import Oyl.Basic

/-!
# Character classes

The classes of the 256-entry table of `oyl_chars.h` that the scanner, the
parser and the emitter test, and the run lengths of `oyl_simd.c` in their
portable form.
-/

namespace Oyl

abbrev tab : UInt8 := 0x09
abbrev lf : UInt8 := 0x0A
abbrev cr : UInt8 := 0x0D
abbrev space : UInt8 := 0x20
abbrev bang : UInt8 := 0x21
abbrev dquote : UInt8 := 0x22
abbrev hash : UInt8 := 0x23
abbrev percent : UInt8 := 0x25
abbrev amp : UInt8 := 0x26
abbrev squote : UInt8 := 0x27
abbrev star : UInt8 := 0x2A
abbrev plus : UInt8 := 0x2B
abbrev comma : UInt8 := 0x2C
abbrev dash : UInt8 := 0x2D
abbrev dot : UInt8 := 0x2E
abbrev slash : UInt8 := 0x2F
abbrev colon : UInt8 := 0x3A
abbrev less : UInt8 := 0x3C
abbrev greater : UInt8 := 0x3E
abbrev question : UInt8 := 0x3F
abbrev lbracket : UInt8 := 0x5B
abbrev backslash : UInt8 := 0x5C
abbrev rbracket : UInt8 := 0x5D
abbrev lbrace : UInt8 := 0x7B
abbrev pipe : UInt8 := 0x7C
abbrev rbrace : UInt8 := 0x7D
abbrev del : UInt8 := 0x7F

def isBlank (c : UInt8) : Bool := c == space || c == tab

def isBreak (c : UInt8) : Bool := c == lf || c == cr

def isBlankOrBreak (c : UInt8) : Bool := isBlank c || isBreak c

/-- The flow indicators `, [ ] { }`. -/
def isFlow (c : UInt8) : Bool :=
  c == comma || c == lbracket || c == rbracket || c == lbrace || c == rbrace

def isDigit (c : UInt8) : Bool := 0x30 ≤ c && c ≤ 0x39

def isHex (c : UInt8) : Bool :=
  isDigit c || (0x61 ≤ c && c ≤ 0x66) || (0x41 ≤ c && c ≤ 0x46)

/-- Control characters that may not occur in text, tags and names. -/
def isControl (c : UInt8) : Bool := c < 0x20 || c == del

/-- What evaluation shows of the 256 bytes. -/
theorem forall_byte {p : UInt8 → Prop} (all : ∀ n < 256, p (UInt8.ofNat n)) (c : UInt8) : p c := by
  have here := all c.toNat c.toNat_lt
  rwa [UInt8.ofNat_toNat] at here

/-- Length of the longest prefix whose bytes all satisfy `p`. -/
def runLength (p : UInt8 → Bool) : Bytes → Nat
  | [] => 0
  | c :: rest => if p c then runLength p rest + 1 else 0

/-- A byte that may end a plain scalar (`scan_plain_scalar_scalar`). -/
def endsPlainRun (c : UInt8) : Bool :=
  c ≤ space || c == hash || c == colon || isFlow c || c == del

def plainRun : Bytes → Nat := runLength fun c => !endsPlainRun c

def skipBlanks : Bytes → Nat := runLength isBlank

def scanToBreak : Bytes → Nat := runLength fun c => !isBreak c

/-- `oyl_find_any4` and `oyl_find_any4_short`. -/
def findAny4 (a b c d : UInt8) : Bytes → Nat :=
  runLength fun x => !(x == a || x == b || x == c || x == d)

def trimBlanks (out : Bytes) : Bytes :=
  (out.reverse.dropWhile isBlank).reverse

end Oyl
