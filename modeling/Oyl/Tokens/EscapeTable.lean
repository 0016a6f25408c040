import Mathlib.Algebra.Group.Nat.Defs
import Oyl.Logic.Utf8
import Oyl.Schema
import Oyl.Tokens.DoubleQuoted

/-!
# Escapes of double-quoted scalars

The escapes of YAML 1.2.2, section 5.7, and what the scanner makes of them on a line of
a double-quoted scalar.
-/

namespace Oyl

open StateError

/-! ### The table -/

def hexValue (c : UInt8) : Option Nat :=
  (ascii "0123456789abcdef").idxOf? c <|> (ascii "0123456789ABCDEF").idxOf? c

def hexNumber (digits : Bytes) : Option Nat :=
  (digits.mapM hexValue).map (·.foldl (fun n digit => 16 * n + digit) 0)

/-- The code points of the escapes of one letter. -/
def escapeCode (esc : UInt8) : Option Nat :=
  if esc == 0x30 then some 0x00        -- 0
  else if esc == 0x61 then some 0x07   -- a
  else if esc == 0x62 then some 0x08   -- b
  else if esc == 0x74 then some 0x09   -- t
  else if esc == tab then some 0x09
  else if esc == 0x6E then some 0x0A   -- n
  else if esc == 0x76 then some 0x0B   -- v
  else if esc == 0x66 then some 0x0C   -- f
  else if esc == 0x72 then some 0x0D   -- r
  else if esc == 0x65 then some 0x1B   -- e
  else if esc == space then some 0x20
  else if esc == dquote then some 0x22
  else if esc == slash then some 0x2F
  else if esc == backslash then some 0x5C
  else if esc == 0x4E then some 0x85   -- N
  else if esc == 0x5F then some 0xA0   -- _
  else if esc == 0x4C then some 0x2028 -- L
  else if esc == 0x50 then some 0x2029 -- P
  else none

/-- How many digits follow a letter. -/
def escapeDigits (esc : UInt8) : Option Nat :=
  if esc == 0x78 then some 2           -- x
  else if esc == 0x75 then some 4      -- u
  else if esc == 0x55 then some 8      -- U
  else none

/-- The code point of the escape after a backslash, and how many bytes the escape has. -/
def escapePoint : Bytes → Option (Nat × Nat)
  | [] => none
  | esc :: rest =>
      match escapeCode esc with
      | some cp => some (cp, 1)
      | none =>
          (escapeDigits esc).bind fun digits =>
            if rest.length < digits then none
            else ((hexNumber (rest.take digits)).filter fun cp => decide cp.isValidChar).map
              fun cp => (cp, digits + 1)

/-- The escape after a backslash, as the UTF-8 encoding of its code point. -/
def decodedEscape (text : Bytes) : Option (Bytes × Nat) :=
  (escapePoint text).map fun (cp, n) => (String.utf8EncodeChar (Char.ofNat cp), n)

/-- A text with its escapes replaced.  `skip` bytes belong to an escape. -/
def unescape (escape : Bytes → Option (Bytes × Nat)) : Nat → Bytes → Option Bytes
  | _, [] => some []
  | skip + 1, _ :: rest => unescape escape skip rest
  | 0, c :: rest =>
      if c == backslash then
        (escape rest).bind fun (bytes, n) => (unescape escape n rest).map (bytes ++ ·)
      else (unescape escape 0 rest).map (c :: ·)

/-- The text between the quotes of a scalar, with one of `letters` after each backslash. -/
inductive EscapedLine (letters : UInt8 → Prop) : Bytes → Prop
  | nil : EscapedLine letters []
  | byte {c : UInt8} {rest : Bytes} : isQuotedPlain c = true → EscapedLine letters rest →
      EscapedLine letters (c :: rest)
  | escape {esc : UInt8} {rest : Bytes} : letters esc → EscapedLine letters rest →
      EscapedLine letters (backslash :: esc :: rest)

/-- The text between the quotes of a scalar on one line. -/
abbrev QuotedLine : Bytes → Prop := EscapedLine (isBreak · = false)

/-- `u` and `U`, whose digits the scanner counts with an `int`. -/
def isWideEscape (esc : UInt8) : Bool := esc == 0x75 || esc == 0x55

/-! ### The table and the scanner -/

/-- `\L`, `\P`, and `\x` with a value that is no ASCII character. -/
def misread : Bytes → Bool
  | [] => false
  | esc :: rest =>
      esc == 0x4C || esc == 0x50 ||
        (esc == 0x78 && ((escapePoint (esc :: rest)).any fun (cp, _) => 0x80 ≤ cp))

/-- A text has an escape that is misread. -/
def misreads : Nat → Bytes → Bool
  | _, [] => false
  | skip + 1, _ :: rest => misreads skip rest
  | 0, c :: rest =>
      if c == backslash then misread rest || misreads ((escapePoint rest).elim 0 Prod.snd) rest
      else misreads 0 rest

theorem hexValue_eq (c : UInt8) : hexValue c = if isHex c then some (hexDigit c) else none := by
  have lower : ascii "0123456789abcdef" = [0x30, 0x31, 0x32, 0x33, 0x34, 0x35, 0x36, 0x37, 0x38,
      0x39, 0x61, 0x62, 0x63, 0x64, 0x65, 0x66] := by decide +kernel
  have upper : ascii "0123456789ABCDEF" = [0x30, 0x31, 0x32, 0x33, 0x34, 0x35, 0x36, 0x37, 0x38,
      0x39, 0x41, 0x42, 0x43, 0x44, 0x45, 0x46] := by decide +kernel
  rw [funext hexValue.eq_1, lower, upper]
  revert c
  exact forall_byte (by decide +kernel)

theorem hexNumber_eq (digits : Bytes) :
    hexNumber digits = if digits.all isHex then
      some (digits.foldl (fun n c => n * 16 + hexDigit c) 0) else none := by
  have values : digits.mapM hexValue =
      if digits.all isHex then some (digits.map hexDigit) else none := by
    induction digits with
    | nil => rfl
    | cons c rest ih =>
        rw [List.mapM_cons, ih, hexValue_eq, List.all_cons]
        cases isHex c with
        | false => rfl
        | true =>
            rw [Bool.true_and, if_pos rfl]
            cases rest.all isHex <;> rfl
  rw [hexNumber, values]
  cases digits.all isHex with
  | false => rfl
  | true =>
      simp only [if_true, Option.map_some, List.foldl_map, Nat.mul_comm 16]

theorem toNat_ofNat_valid {cp : Nat} (valid : cp.isValidChar) : (Char.ofNat cp).val.toNat = cp := by
  rw [Char.ofNat, dif_pos valid]
  exact UInt32.toNat_ofNatLT

theorem or_add (n k base : Nat) (h : n < 2 ^ k) : 2 ^ k * base ||| n = n + 2^k*base := by
  rw [← Nat.two_pow_add_eq_or_of_lt h, Nat.add_comm]

theorem encodeUtf8_eq {cp : Nat} (valid : cp.isValidChar) :
    encodeUtf8 cp = String.utf8EncodeChar (Char.ofNat cp) := by
  have isCp : (Char.ofNat cp).val.toNat = cp := toNat_ofNat_valid valid
  have low (n : Nat) : n &&& 0x3F = n % 64 := Nat.and_two_pow_sub_one_eq_mod n 6
  have tail (n : Nat) : 0x80 ||| n % 64 = n % 64 + 0x80 := or_add (n % 64) 6 2
      (Nat.mod_lt _ (by decide))
  have top : cp < 0x110000 := by rcases valid with h | h <;> omega
  rw [encodeUtf8, String.utf8EncodeChar, isCp]
  simp only [low, tail, Nat.shiftRight_eq_div_pow]
  split
  · rfl
  split
  · have lead : 0xC0 ||| cp / 2 ^ 6 = cp / 64 % 0x20 + 0xC0 := by
      rw [Nat.mod_eq_of_lt (by omega)]
      exact or_add (cp / 64) 6 3 (by omega)
    rw [lead]
  split
  · have lead : 0xE0 ||| cp / 2 ^ 12 = cp / 4096 % 0x10 + 0xE0 := by
      rw [Nat.mod_eq_of_lt (by omega)]
      exact or_add (cp / 4096) 5 7 (by omega)
    rw [lead]
  · have lead : 0xF0 ||| cp / 2 ^ 18 = cp / 262144 % 0x08 + 0xF0 := by
      rw [Nat.mod_eq_of_lt (by omega)]
      exact or_add (cp / 262144) 4 15 (by omega)
    rw [lead]

theorem simpleEscape_eq {esc : UInt8} (notL : esc ≠ 0x4C) (notP : esc ≠ 0x50) :
    simpleEscape esc =
      (escapeCode esc).map fun cp => String.utf8EncodeChar (Char.ofNat cp) := by
  rw [escapeCode, beq_false_of_ne notL, beq_false_of_ne notP]
  simp only [apply_ite (Option.map fun cp => String.utf8EncodeChar (Char.ofNat cp))]
  rfl

theorem hexDigits_eq (n : Nat) (rest : Bytes) :
    hexDigits n rest = if rest.length < n then none else hexNumber (rest.take n) := by
  rw [hexDigits, hexNumber_eq]
  by_cases short : rest.length < n
  · rw [if_pos short, if_pos (by rw [decide_eq_true short]; rfl)]
  · rw [if_neg short, decide_eq_false short, Bool.false_or]
    cases (rest.take n).all isHex <;> rfl

theorem hexDigit_lt (c : UInt8) : hexDigit c < 16 := by
  have all : ∀ c, hexDigit c < 16 := forall_byte (by decide +kernel)
  exact all c

theorem hexDigits_lt {n cp : Nat} {rest : Bytes} (found : hexDigits n rest = some cp) :
    cp < 16 ^ n := by
  have bound (digits : Bytes) (first : Nat) :
      digits.foldl (fun n c => n * 16 + hexDigit c) first < (first + 1) * 16 ^ digits.length := by
    induction digits generalizing first with
    | nil => simp
    | cons c rest ih =>
        have digit := hexDigit_lt c
        refine Nat.lt_of_lt_of_le (ih _) ?_
        rw [List.length_cons, Nat.pow_succ, Nat.mul_comm (16 ^ _), ← Nat.mul_assoc]
        refine Nat.mul_le_mul_right _ ?_
        dsimp only
        omega
  obtain ⟨enough, _⟩ := hexDigits_enough found
  rw [hexDigits] at found
  split at found
  · cases found
  · cases found
    have below := bound (rest.take n) 0
    rwa [List.length_take, Nat.min_eq_left enough, Nat.zero_add, Nat.one_mul] at below

theorem isScalarValue_eq (cp : Nat) : isScalarValue cp = decide cp.isValidChar := by
  rw [Bool.eq_iff_iff]
  simp only [isScalarValue, Nat.isValidChar, Bool.and_eq_true, decide_eq_true_eq,
    Bool.not_eq_true', Bool.and_eq_false_iff, decide_eq_false_iff_not]
  omega

/-- An escape that is not one letter. -/
theorem escapePoint_digits {esc : UInt8} {digits : Nat} (rest : Bytes)
    (noCode : escapeCode esc = none) (isLetter : escapeDigits esc = some digits) :
    escapePoint (esc :: rest) =
      ((hexDigits digits rest).filter isScalarValue).map fun cp => (cp, digits + 1) := by
  rw [escapePoint, noCode, isLetter, Option.bind_some, hexDigits_eq, funext isScalarValue_eq]
  dsimp only
  split <;> rfl

theorem unicode_faithful {digits : Nat} {rest : Bytes} :
    (((hexDigits digits rest).filter isScalarValue).map fun cp => (encodeUtf8 cp, digits + 1)) =
      (((hexDigits digits rest).filter isScalarValue).map fun cp => (cp, digits + 1)).map
        fun (cp, n) => (String.utf8EncodeChar (Char.ofNat cp), n) := by
  cases found : (hexDigits digits rest).filter isScalarValue with
  | none => rfl
  | some cp =>
      have isScalar := (Option.filter_eq_some_iff.mp found).2
      rw [isScalarValue_eq, decide_eq_true_eq] at isScalar
      rw [Option.map_some, Option.map_some, Option.map_some, encodeUtf8_eq isScalar]

/-- `\x` with the value of an ASCII character. -/
theorem hex_faithful {rest : Bytes} (ascii : ((hexDigits 2 rest).any fun cp => 0x80 ≤ cp) = false) :
    ((hexDigits 2 rest).map fun n => ([UInt8.ofNat n], 3)) =
      (((hexDigits 2 rest).filter isScalarValue).map fun cp => (cp, 3)).map
        fun (cp, n) => (String.utf8EncodeChar (Char.ofNat cp), n) := by
  cases found : hexDigits 2 rest with
  | none => rfl
  | some cp =>
      rw [found, Option.any_some, decide_eq_false_iff_not] at ascii
      have valid : cp.isValidChar := .inl (by omega)
      have isCp := toNat_ofNat_valid valid
      rw [Option.filter_some, if_pos (by rw [isScalarValue_eq, decide_eq_true valid]),
        Option.map_some, Option.map_some, Option.map_some]
      dsimp only
      rw [utf8EncodeChar_ascii (by rw [isCp]; omega), isCp]

theorem misread_hex {rest : Bytes} :
    misread (0x78 :: rest) = (hexDigits 2 rest).any fun cp => 0x80 ≤ cp := by
  have code : escapeCode 0x78 = none := rfl
  rw [misread, escapePoint_digits rest code rfl]
  cases found : hexDigits 2 rest with
  | none => rfl
  | some cp =>
      have small := hexDigits_lt found
      have valid : cp.isValidChar := .inl (by omega)
      rw [Option.filter_some, if_pos (by rw [isScalarValue_eq, decide_eq_true valid])]
      rfl

/-- The scanner reads an escape as the table has it. -/
theorem escapeBytes_faithful {text : Bytes} (faithful : misread text = false) :
    escapeBytes text = decodedEscape text := by
  cases text with
  | nil => rfl
  | cons esc rest =>
      have letters := faithful
      simp only [misread, Bool.or_eq_false_iff, beq_eq_false_iff_ne] at letters
      have simple := simpleEscape_eq letters.1.1 letters.1.2
      rw [escapeBytes, decodedEscape, simple]
      cases code : escapeCode esc with
      | some cp =>
          rw [escapePoint, code]
          rfl
      | none =>
          rw [Option.map_none]
          dsimp only
          by_cases isX : esc = 0x78
          · subst isX
            rw [misread_hex] at faithful
            rw [escapePoint_digits rest code rfl]
            exact hex_faithful faithful
          rw [if_neg (by simpa using isX)]
          by_cases isU : esc = 0x75
          · subst isU
            rw [escapePoint_digits rest code rfl]
            exact unicode_faithful
          rw [if_neg (by simpa using isU)]
          by_cases isLongU : esc = 0x55
          · subst isLongU
            rw [escapePoint_digits rest code rfl]
            exact unicode_faithful
          · rw [if_neg (by simpa using isLongU), escapePoint, code, escapeDigits,
              beq_false_of_ne isX, beq_false_of_ne isU, beq_false_of_ne isLongU]
            rfl

/-- A misread escape has a longer value, or is refused. -/
theorem escapeBytes_misread {text : Bytes} (isMisread : misread text = true) :
    ∃ bytes n, decodedEscape text = some (bytes, n) ∧
      (escapeBytes text = none ∨ ∃ other, escapeBytes text = some (other, n) ∧
        other.length < bytes.length) := by
  cases text with
  | nil => cases isMisread
  | cons esc rest =>
      by_cases isL : esc = 0x4C
      · subst isL
        exact ⟨_, 1, rfl, .inl rfl⟩
      by_cases isP : esc = 0x50
      · subst isP
        exact ⟨_, 1, rfl, .inl rfl⟩
      obtain rfl : esc = 0x78 := by
        rw [misread, beq_false_of_ne isL, beq_false_of_ne isP, Bool.false_or, Bool.false_or,
          Bool.and_eq_true, beq_iff_eq] at isMisread
        exact isMisread.1
      rw [misread_hex] at isMisread
      have code : escapeCode 0x78 = none := rfl
      rw [decodedEscape, escapePoint_digits rest code rfl]
      cases found : hexDigits 2 rest with
      | none =>
          rw [found] at isMisread
          cases isMisread
      | some cp =>
          rw [found, Option.any_some, decide_eq_true_eq] at isMisread
          have small := hexDigits_lt found
          have valid : cp.isValidChar := .inl (by omega)
          rw [Option.filter_some, if_pos (by rw [isScalarValue_eq, decide_eq_true valid])]
          refine ⟨_, 3, rfl, .inr ⟨[UInt8.ofNat cp], ?_, ?_⟩⟩
          · simp only [escapeBytes, found]
            rfl
          · rw [String.utf8EncodeChar, toNat_ofNat_valid valid, if_neg (by omega),
              if_pos (by omega)]
            exact Nat.lt_succ_self 1

/-! ### Texts -/

theorem unescape_skip (escape : Bytes → Option (Bytes × Nat)) (skip : Nat) (text : Bytes) :
    unescape escape skip text = unescape escape 0 (text.drop skip) := by
  induction text generalizing skip with
  | nil =>
      rw [List.drop_nil]
      cases skip <;> rfl
  | cons c rest ih =>
      cases skip with
      | zero => rfl
      | succ skip => rw [unescape, ih, List.drop_succ_cons]

/-- What is read of a text that stands for `meant`: a misread text is refused or read as
something shorter. -/
def ReadAs (wrong : Bool) (read meant : Option Bytes) : Prop :=
  match meant with
  | none => read = none
  | some value =>
      if wrong then read = none ∨ ∃ other, read = some other ∧ other.length < value.length
      else read = some value

namespace ReadAs

variable {wrong : Bool} {read meant : Option Bytes}

theorem append (bytes : Bytes) (readAs : ReadAs wrong read meant) :
    ReadAs wrong (read.map (bytes ++ ·)) (meant.map (bytes ++ ·)) := by
  cases meant with
  | none => exact congrArg (Option.map (bytes ++ ·)) readAs
  | some value =>
      cases wrong with
      | false => exact congrArg (Option.map (bytes ++ ·)) readAs
      | true =>
          rcases readAs with refused | ⟨other, isRead, short⟩
          · exact .inl (congrArg (Option.map (bytes ++ ·)) refused)
          · refine .inr ⟨bytes ++ other, congrArg (Option.map (bytes ++ ·)) isRead, ?_⟩
            rw [List.length_append, List.length_append]
            exact Nat.add_lt_add_left short _

theorem shorter {bytes other : Bytes} (short : other.length < bytes.length)
    (readAs : ReadAs wrong read meant) :
    ReadAs true (read.map (other ++ ·)) (meant.map (bytes ++ ·)) := by
  cases meant with
  | none => exact congrArg (Option.map (other ++ ·)) readAs
  | some value =>
      have atMost : read = none ∨ ∃ last, read = some last ∧ last.length ≤ value.length := by
        cases wrong with
        | false => exact .inr ⟨value, readAs, Nat.le_refl _⟩
        | true =>
            exact readAs.imp_right fun ⟨last, isRead, less⟩ => ⟨last, isRead, Nat.le_of_lt less⟩
      rcases atMost with refused | ⟨last, isRead, less⟩
      · exact .inl (congrArg (Option.map (other ++ ·)) refused)
      · refine .inr ⟨other ++ last, congrArg (Option.map (other ++ ·)) isRead, ?_⟩
        rw [List.length_append, List.length_append]
        exact Nat.add_lt_add_of_lt_of_le short less

theorem refused : ReadAs true none meant := by
  cases meant with
  | none => rfl
  | some value => exact .inl rfl

end ReadAs

theorem decodedEscape_eq_some {text bytes : Bytes} {n : Nat}
    (found : decodedEscape text = some (bytes, n)) : (escapePoint text).elim 0 Prod.snd = n := by
  obtain ⟨⟨cp, _⟩, isPoint, same⟩ := Option.map_eq_some_iff.mp found
  cases same
  rw [isPoint]
  rfl

/-- What the scanner makes of a text and what the table makes of it. -/
theorem unescape_compare (skip : Nat) (text : Bytes) :
    ReadAs (misreads skip text) (unescape escapeBytes skip text)
      (unescape decodedEscape skip text) := by
  induction text generalizing skip with
  | nil => cases skip <;> rfl
  | cons c rest ih =>
      cases skip with
      | succ skip => exact ih skip
      | zero =>
          rw [unescape, unescape, misreads]
          by_cases isEscape : (c == backslash) = true
          · rw [if_pos isEscape, if_pos isEscape, if_pos isEscape]
            cases wrong : misread rest with
            | true =>
                obtain ⟨bytes, n, found, refused | ⟨other, isRead, short⟩⟩ :=
                  escapeBytes_misread wrong
                · rw [refused]
                  exact .refused
                · rw [found, isRead]
                  exact .shorter short (ih n)
            | false =>
                rw [escapeBytes_faithful wrong, Bool.false_or]
                cases found : decodedEscape rest with
                | none => rfl
                | some escape =>
                    rw [decodedEscape_eq_some found]
                    exact .append _ (ih _)
          · rw [if_neg isEscape, if_neg isEscape, if_neg isEscape]
            exact .append [c] (ih 0)

/-! ### UTF-8 -/

/-- The letters and the digits of escapes. -/
theorem escapeByte_ascii {c : UInt8}
    (isByte : isHex c = true ∨ (escapeCode c).isSome = true ∨ (escapeDigits c).isSome = true) :
    c < 0x80 := by
  have all : ∀ c, isHex c = true ∨ (escapeCode c).isSome = true ∨ (escapeDigits c).isSome = true →
      c < 0x80 := forall_byte (by decide +kernel)
  exact all c isByte

/-- Escapes are written in ASCII. -/
theorem escapePoint_ascii {text : Bytes} {cp n : Nat} (found : escapePoint text = some (cp, n)) :
    ∀ c ∈ text.take n, c < 0x80 := by
  cases text with
  | nil => cases found
  | cons esc rest =>
      cases code : escapeCode esc with
      | some point =>
          rw [escapePoint, code] at found
          cases found
          intro c member
          rw [List.take_succ_cons, List.take_zero, List.mem_singleton] at member
          exact member ▸ escapeByte_ascii (.inr (.inl (code ▸ rfl)))
      | none =>
          cases letter : escapeDigits esc with
          | none =>
              rw [escapePoint, code, letter] at found
              cases found
          | some digits =>
              rw [escapePoint_digits rest code letter] at found
              obtain ⟨point, isPoint, same⟩ := Option.map_eq_some_iff.mp found
              cases same
              have hex := (hexDigits_enough (Option.filter_eq_some_iff.mp isPoint).1).2
              rw [List.all_eq_true] at hex
              intro c member
              rw [List.take_succ_cons] at member
              rcases List.mem_cons.mp member with rfl | later
              · exact escapeByte_ascii (.inr (.inr (letter ▸ rfl)))
              · exact escapeByte_ascii (.inl (hex c later))

/-- Decoding keeps UTF-8. -/
theorem unescape_utf8 {before text value : Bytes} (valid : Utf8 (before ++ text))
    (decoded : unescape decodedEscape 0 text = some value) : Utf8 (before ++ value) := by
  induction isLength : text.length using Nat.strong_induction_on generalizing before text value with
  | _ length ih =>
      cases text with
      | nil =>
          cases decoded
          exact valid
      | cons c rest =>
          subst isLength
          rw [unescape] at decoded
          split at decoded
          · rename_i isEscape
            obtain ⟨⟨bytes, n⟩, found, more⟩ := Option.bind_eq_some_iff.mp decoded
            obtain ⟨last, isLast, rfl⟩ := Option.map_eq_some_iff.mp more
            obtain ⟨⟨cp, _⟩, isPoint, same⟩ := Option.map_eq_some_iff.mp found
            cases same
            rw [beq_iff_eq.mp isEscape] at valid
            obtain ⟨first, after⟩ := valid.split (by decide)
            rw [← List.take_append_drop n rest] at after
            have tail : Utf8 ([] ++ rest.drop n) := after.drop_ascii (escapePoint_ascii isPoint)
            rw [unescape_skip] at isLast
            have short : (rest.drop n).length < (c :: rest).length := by
              rw [List.length_drop, List.length_cons]
              omega
            exact first.append (.append (.char _) (ih _ short tail isLast rfl))
          · obtain ⟨last, isLast, rfl⟩ := Option.map_eq_some_iff.mp decoded
            have valid' : Utf8 ((before ++ [c]) ++ rest) := by
              rwa [List.append_assoc]
            have whole := ih rest.length (Nat.lt_succ_self _) valid' isLast rfl
            rwa [List.append_assoc] at whole

/-! ### The loop -/

theorem EscapedLine.drop {letters : UInt8 → Prop} {text : Bytes} {n : Nat}
    (line : EscapedLine letters text) (plain : ∀ c ∈ text.take n, isQuotedPlain c = true) :
    EscapedLine letters (text.drop n) := by
  induction n generalizing text with
  | zero => exact line
  | succ n ih =>
      cases line with
      | nil => exact .nil
      | byte _ rest => exact ih rest fun c member => plain c (List.mem_cons_of_mem _ member)
      | escape _ _ => cases plain _ List.mem_cons_self

theorem isHex_quotedPlain {c : UInt8} (hex : isHex c = true) : isQuotedPlain c = true := by
  obtain ⟨notBreak, notQuote, notEscape⟩ := isHex_plain hex
  obtain ⟨notLf, notCr⟩ := Bool.or_eq_false_iff.mp notBreak
  rw [isQuotedPlain, beq_false_of_ne notQuote, beq_false_of_ne notEscape, notLf, notCr]
  rfl

theorem escapeBytes_narrow {esc : UInt8} {rest bytes : Bytes} {n : Nat}
    (found : escapeBytes (esc :: rest) = some (bytes, n)) (narrow : isWideEscape esc = false) :
    n ≤ 3 := by
  obtain ⟨notU, notLongU⟩ := Bool.or_eq_false_iff.mp narrow
  rw [escapeBytes] at found
  split at found
  · cases found
    decide
  · rw [notU, notLongU] at found
    split at found
    · have size : n = 3 := map_size found
      omega
    · cases found

/-- No escape reads past the closing quote. -/
theorem escapeBytes_closed (esc : UInt8) (rest tail : Bytes) :
    escapeBytes (esc :: (rest ++ dquote :: tail)) = escapeBytes (esc :: rest) := by
  cases inside : escapeBytes (esc :: rest) with
  | some found =>
      obtain ⟨digits, _, enough, _, other⟩ := escapeBytes_eq_some inside
      exact other _ (List.take_append_of_le_length enough)
  | none =>
      cases whole : escapeBytes (esc :: (rest ++ dquote :: tail)) with
      | none => rfl
      | some found =>
          obtain ⟨digits, _, _, hex, other⟩ := escapeBytes_eq_some whole
          have enough : digits ≤ rest.length := by
            by_contra short
            rw [List.all_eq_true] at hex
            have isHexQuote := hex dquote (List.mem_take_iff_getElem.mpr
              ⟨rest.length, by simp; omega, by simp⟩)
            cases isHexQuote
          rw [other rest (List.take_append_of_le_length enough).symm] at inside
          cases inside

/-- The bytes up to an escape. -/
theorem unescape_plain (escape : Bytes → Option (Bytes × Nat)) {text : Bytes} {n : Nat}
    (plain : ∀ c ∈ text.take n, isQuotedPlain c = true) :
    unescape escape 0 text = (unescape escape 0 (text.drop n)).map (text.take n ++ ·) := by
  induction n generalizing text with
  | zero => simp
  | succ n ih =>
      cases text with
      | nil => rfl
      | cons c rest =>
          have first := plain c List.mem_cons_self
          simp only [isQuotedPlain, Bool.not_eq_true', Bool.or_eq_false_iff] at first
          rw [unescape, first.1.1.2, if_neg Bool.false_ne_true,
            ih fun d member => plain d (List.mem_cons_of_mem _ member), List.drop_succ_cons,
            List.take_succ_cons, Option.map_map]
          rfl

section

variable {text : Bytes} {s : Scanner}

theorem runLength_append_stop {p : UInt8 → Bool} {first tail : Bytes} {c : UInt8}
    (stops : p c = false) : runLength p (first ++ c :: tail) = runLength p first := by
  induction first with
  | nil =>
      change runLength p (c :: tail) = 0
      rw [runLength, stops]
      rfl
  | cons d first ih => rw [List.cons_append, runLength, runLength, ih]

theorem mem_run {p : UInt8 → Bool} {bytes : Bytes} {c : UInt8}
    (member : c ∈ bytes.take (runLength p bytes)) : p c = true := by
  induction bytes with
  | nil => cases member
  | cons d rest ih =>
      rw [runLength] at member
      split at member
      · rename_i inRun
        rw [List.take_succ_cons] at member
        rcases List.mem_cons.mp member with rfl | later
        · exact inRun
        · exact ih later
      · cases member

theorem Gives.of_eq {α : Type} {x y : ScanM α} {s s' : Scanner} {found : Option (α × Scanner)}
    (same : x s = y s') (gives : Gives y s' found) : Gives x s found := by
  cases found with
  | none =>
      obtain ⟨q, failed⟩ := gives
      exact ⟨q, same.trans failed⟩
  | some result => exact same.trans gives

/-- The loop on a line of a double-quoted scalar. -/
theorem doubleQuotedLoop_line {letters : UInt8 → Prop} (fuel : Nat) (out : Bytes)
    (contentEnd : Nat) {body tail : Bytes} (reads : s.Reads text)
    (isRest : s.rest = body ++ dquote :: tail) (line : EscapedLine letters body)
    (inLine : ∀ esc, letters esc → isBreak esc = false)
    (narrow : (text.length : Int) ≤ intMax ∨ ∀ esc, letters esc → isWideEscape esc = false)
    (enough : body.length < fuel) :
    Gives (doubleQuotedLoop fuel out contentEnd) s ((unescape escapeBytes 0 body).map fun value =>
      (out ++ value, s.advanceCols body.length)) := by
  induction fuel generalizing s body out contentEnd with
  | zero => exact absurd enough (Nat.not_lt_zero _)
  | succ fuel ih =>
      -- what is read in one round, and the rest of the line
      have round (bytes first rest out' : Bytes) (contentEnd' : Nat) (isBody : body = first ++ rest)
          (some : 0 < first.length) (line' : EscapedLine letters rest)
          (value : unescape escapeBytes 0 body = (unescape escapeBytes 0 rest).map (bytes ++ ·))
          (isOut : out' = out ++ bytes)
          (same : doubleQuotedLoop (fuel + 1) out contentEnd s =
            doubleQuotedLoop fuel out' contentEnd' (s.advanceCols first.length)) :
          Gives (doubleQuotedLoop (fuel + 1) out contentEnd) s
            ((unescape escapeBytes 0 body).map fun value =>
              (out ++ value, s.advanceCols body.length)) := by
        have within : s.pos + first.length ≤ text.length := by
          have length := congrArg List.length isRest
          have inside := reads.inside
          rw [reads.rest_eq, List.length_drop, isBody, List.length_append, List.length_append,
            List.length_cons] at length
          omega
        have isRest' : (s.advanceCols first.length).rest = rest ++ dquote :: tail := by
          rw [Scanner.rest_advanceCols, isRest, isBody, List.append_assoc, List.drop_left]
        have enough' : rest.length < fuel := by
          rw [isBody, List.length_append] at enough
          omega
        have next : Gives (doubleQuotedLoop fuel out' contentEnd') (s.advanceCols first.length) _ :=
          ih out' contentEnd' (reads.advanceCols within) isRest' line' enough'
        refine Gives.of_eq same ?_
        rw [advanceCols_add, ← List.length_append, ← isBody] at next
        rw [value, Option.map_map]
        have shift : ((fun value => (out ++ value, s.advanceCols body.length)) ∘ (bytes ++ ·)) =
            fun value => (out' ++ value, s.advanceCols body.length) := by
          funext value
          rw [Function.comp, isOut, List.append_assoc]
        rw [shift]
        exact next
      cases line with
      | nil =>
          have isQuote := (peek_of_rest reads isRest).2.1
          change doubleQuotedLoop (fuel + 1) out contentEnd s = .ok (out ++ []) s
          rw [List.append_nil, doubleQuotedLoop_close isQuote]
      | @escape esc rest isLetter line' =>
          obtain ⟨_, isEscape, isDrop⟩ := peek_of_rest reads isRest
          rw [reads.peek_eq] at isEscape
          have isDrop' : text.drop (s.pos + 1) = esc :: (rest ++ dquote :: tail) := isDrop
          have inside : s.pos + 1 < text.length := by
            have length := congrArg List.length isDrop'
            rw [List.length_drop, List.length_cons] at length
            omega
          have letter : byteAt text (s.pos + 1) = esc := by
            rw [drop_eq_cons inside] at isDrop'
            exact (List.cons.inj isDrop').1
          have step := doubleQuotedLoop_escape fuel out contentEnd reads inside isEscape
            (letter ▸ inLine esc isLetter)
          rw [isDrop', escapeBytes_closed] at step
          cases found : escapeBytes (esc :: rest) with
          | none =>
              rw [unescape, if_pos (beq_self_eq_true backslash), found]
              exact step.2 found
          | some escape =>
              obtain ⟨bytes, n⟩ := escape
              obtain ⟨digits, rfl, short, hex, _⟩ := escapeBytes_eq_some found
              have size : (backslash :: esc :: rest.take digits).length = digits + 1 + 1 := by
                rw [List.length_cons, List.length_cons, List.length_take, Nat.min_eq_left short]
              apply round bytes (backslash :: esc :: rest.take digits) (rest.drop digits)
              · rw [List.cons_append, List.cons_append, List.take_append_drop]
              · exact size ▸ Nat.succ_pos _
              · refine line'.drop fun c member => isHex_quotedPlain ?_
                exact List.all_eq_true.mp hex c member
              · rw [unescape, if_pos (beq_self_eq_true backslash), found, Option.bind_some]
                dsimp only
                rw [unescape_skip escapeBytes (digits + 1), List.drop_succ_cons]
              · rfl
              · rw [size]
                rcases step.1 bytes _ found with next | ⟨long, wide, _⟩
                · exact next
                · rcases narrow with short | narrow
                  · exact absurd long (Int.not_lt.mpr short)
                  · have := escapeBytes_narrow found (narrow esc isLetter)
                    omega
      | @byte c rest plain line' =>
          obtain ⟨inside, isByte, _⟩ := peek_of_rest reads isRest
          have open' : s.atEnd = false := by
            rw [Bool.eq_false_iff, ne_eq, reads.atEnd_iff, Nat.not_le]
            exact inside
          generalize isBody : c :: rest = body at *
          have isRun : runLength isQuotedPlain s.rest = runLength isQuotedPlain body := by
            rw [isRest, runLength_append_stop rfl]
          have short := runLength_le isQuotedPlain body
          have some : 0 < runLength isQuotedPlain body := by
            rw [← isBody, runLength, if_pos plain]
            exact Nat.succ_pos _
          have inRun : ∀ d ∈ body.take (runLength isQuotedPlain body), isQuotedPlain d = true :=
            fun d => mem_run
          have isTake : s.rest.take (runLength isQuotedPlain body) =
              body.take (runLength isQuotedPlain body) := by
            rw [isRest, List.take_append_of_le_length short]
          have size : (body.take (runLength isQuotedPlain body)).length =
              runLength isQuotedPlain body := by
            rw [List.length_take, Nat.min_eq_left short]
          have step := doubleQuotedLoop_run fuel out contentEnd open' (isByte ▸ plain)
          rw [isRun, isTake] at step
          apply round _ _ _ _ _ (List.take_append_drop (runLength isQuotedPlain body) body).symm
          · rw [size]
            exact some
          · exact (isBody ▸ EscapedLine.byte plain line' : EscapedLine letters body).drop inRun
          · exact unescape_plain escapeBytes inRun
          · rfl
          · rw [size]
            exact step

/-- A double-quoted scalar on one line. -/
theorem scanDoubleQuoted_line {letters : UInt8 → Prop} {body tail : Bytes} (reads : s.Reads text)
    (isQuote : s.peek = dquote) (isRest : text.drop (s.pos + 1) = body ++ dquote :: tail)
    (line : EscapedLine letters body) (inLine : ∀ esc, letters esc → isBreak esc = false)
    (narrow : (text.length : Int) ≤ intMax ∨ ∀ esc, letters esc → isWideEscape esc = false) :
    match unescape escapeBytes 0 body with
    | some value => ∃ s', scanDoubleQuoted s =
        .ok (tokScalar value .doubleQuoted s.mark s'.mark) s' ∧ s'.pos = s.pos + (body.length + 2)
    | none => ∃ q, scanDoubleQuoted s = .error .scan q := by
  have inside : s.pos < text.length := by
    by_contra outside
    rw [reads.peek_eq, byteAt_outside (Nat.not_lt.mp outside)] at isQuote
    cases isQuote
  have one : s.advance 1 = s.advanceCols 1 := by
    apply Moves.advance_plain reads _ (isQuote ▸ rfl)
    rw [Bool.eq_false_iff, ne_eq, reads.atEnd_iff, Nat.not_le]
    exact inside
  have reads' : (s.advanceCols 1).Reads text := reads.advanceCols inside
  have isRest' : (s.advanceCols 1).rest = body ++ dquote :: tail := by
    rw [← isRest, reads'.rest_eq]
    rfl
  have enough : body.length < (s.advanceCols 1).remaining + 1 := by
    rw [remaining_eq reads', isRest', List.length_append, List.length_cons]
    omega
  have loop := doubleQuotedLoop_line _ [] 0 reads' isRest' line inLine narrow enough
  rw [scanDoubleQuoted_eq reads isQuote, scanDoubleQuotedBuffered, get_bind_eq,
    run_bind, run_modify,
    one]
  dsimp only
  rw [get_bind_eq]
  cases isValue : unescape escapeBytes 0 body with
  | none =>
      rw [isValue] at loop
      obtain ⟨q, failed⟩ := loop
      exact ⟨q, by rw [run_bind, failed]⟩
  | some value =>
      rw [isValue] at loop
      have closes : ((s.advanceCols 1).advanceCols body.length).rest = dquote :: tail := by
        rw [Scanner.rest_advanceCols, isRest', List.drop_left]
      have within : (s.advanceCols 1).pos + body.length ≤ text.length := by
        have length := congrArg List.length isRest
        have more : (s.advanceCols 1).pos = s.pos + 1 := rfl
        rw [List.length_drop, List.length_append, List.length_cons] at length
        omega
      obtain ⟨inside', isClose, _⟩ := peek_of_rest (reads'.advanceCols within) closes
      have passed := Moves.advance_pos (reads'.advanceCols within) inside'
      rw [run_bind_ok loop, get_bind_eq, isClose, if_neg (by simp)]
      refine ⟨_, rfl, passed.trans ?_⟩
      rw [Scanner.advanceCols, Scanner.advanceCols]
      dsimp only
      omega

/-! ### The scalar -/

/-- The double-quoted scalar at the cursor is decoded by the table of escapes. -/
structure EscapesDecoded (text body : Bytes) (s : Scanner) : Prop where
  accepts : (∃ tok s', scanAtToken s = .ok tok s') ↔ (unescape decodedEscape 0 body).isSome = true
  value : ∀ tok s', scanAtToken s = .ok tok s' → unescape decodedEscape 0 body = some tok.value
  utf8 : ∀ tok s', scanAtToken s = .ok tok s' → Utf8 text → Utf8 tok.value

/-- The text between the quotes of a UTF-8 text. -/
theorem Utf8.quoted {body tail : Bytes} {p : Nat} (valid : Utf8 text)
    (isQuote : byteAt text p = dquote) (isRest : text.drop (p + 1) = body ++ dquote :: tail) :
    Utf8 body := by
  have inside : p < text.length := by
    by_contra outside
    rw [byteAt_outside (Nat.not_lt.mp outside)] at isQuote
    cases isQuote
  rw [← List.take_append_drop p text, drop_eq_cons inside, isQuote, isRest] at valid
  exact ((valid.split (by decide)).2.split (by decide)).1

/-- Escapes are decoded as in YAML 1.2.2, but for `\L`, `\P` and `\x80` to `\xFF`, in a text
whose length is an `int`. -/
theorem escapes_decoded {body tail : Bytes} (reads : s.Reads text)
    (short : (text.length : Int) ≤ intMax) (isQuote : s.peek = dquote)
    (isRest : text.drop (s.pos + 1) = body ++ dquote :: tail) (line : QuotedLine body) :
    EscapesDecoded text body s ↔
      (unescape decodedEscape 0 body = none ∨ misreads 0 body = false) := by
  have alike := s.atScalar_alike
  have reads' : s.atScalar.Reads text := (alike.moves reads : Moves text anyLine noEscape _ _).reads
  have scanned := scanDoubleQuoted_line reads' (alike.peek.trans isQuote)
    (alike.pos.symm ▸ isRest) line (fun _ => id) (.inl short)
  rw [← scanAtToken_double isQuote] at scanned
  have compared := unescape_compare 0 body
  have refused (absent : unescape escapeBytes 0 body = none) :
      ¬∃ tok s', scanAtToken s = .ok tok s' := by
    rw [absent] at scanned
    obtain ⟨q, failed⟩ := scanned
    rintro ⟨tok, s', ok⟩
    rw [failed] at ok
    cases ok
  cases meant : unescape decodedEscape 0 body with
  | none =>
      rw [meant] at compared
      have none := refused compared
      refine ⟨fun _ => .inl rfl, fun _ => ⟨?_, ?_, ?_⟩⟩
      · rw [meant]
        exact ⟨fun accepted => absurd accepted none, fun some => by cases some⟩
      · exact fun tok s' ok => absurd ⟨tok, s', ok⟩ none
      · exact fun tok s' ok => absurd ⟨tok, s', ok⟩ none
  | some value =>
      cases wrong : misreads 0 body with
      | true =>
          rw [meant, wrong] at compared
          constructor
          · intro decoded
            obtain ⟨tok, s', ok⟩ := decoded.accepts.mpr (by rw [meant]; rfl)
            rcases compared with absent | ⟨other, isRead, short⟩
            · exact absurd ⟨tok, s', ok⟩ (refused absent)
            · rw [isRead] at scanned
              obtain ⟨s'', ok', _⟩ := scanned
              rw [ok'] at ok
              cases ok
              have same := decoded.value _ _ ok'
              rw [meant, Option.some_inj] at same
              rw [same] at short
              exact absurd short (Nat.lt_irrefl _)
          · rintro (absent | faithful)
            · cases absent
            · cases faithful
      | false =>
          rw [meant, wrong] at compared
          have isRead : unescape escapeBytes 0 body = some value := compared
          rw [isRead] at scanned
          obtain ⟨s', ok, _⟩ := scanned
          have only (tok' : Token) (s'' : Scanner) (ok' : scanAtToken s = .ok tok' s'') :
              tok'.value = value := by
            rw [ok] at ok'
            cases ok'
            rfl
          refine ⟨fun _ => .inr rfl, fun _ => ⟨?_, ?_, ?_⟩⟩
          · rw [meant]
            exact ⟨fun _ => rfl, fun _ => ⟨_, s', ok⟩⟩
          · intro tok' s'' ok'
            rw [meant, only tok' s'' ok']
          · intro tok' s'' ok' valid
            rw [only tok' s'' ok']
            have valid' : Utf8 ([] ++ body) := valid.quoted (reads.peek_eq ▸ isQuote) isRest
            exact unescape_utf8 valid' meant

end

/-- The text `\u00e9\n`. -/
def escapedLine : Bytes := [backslash, 0x75, 0x30, 0x30, 0x65, 0x39, backslash, 0x6E]

theorem escapes_decoded_escapedLine :
    EscapesDecoded (dquote :: (escapedLine ++ [dquote])) escapedLine
      (Scanner.new (dquote :: (escapedLine ++ [dquote]))) ∧
    unescape decodedEscape 0 escapedLine = some [0xC3, 0xA9, 0x0A] := by
  have line : QuotedLine escapedLine :=
    .escape rfl (.byte rfl (.byte rfl (.byte rfl (.byte rfl (.escape rfl .nil)))))
  have reads := (Scanner.new_between (dquote :: (escapedLine ++ [dquote]))).reads
  have isRest : (dquote :: (escapedLine ++ [dquote])).drop (0 + 1) =
      escapedLine ++ dquote :: [] := rfl
  exact ⟨(escapes_decoded reads (by decide) rfl isRest line).mpr (.inr (by decide)), by decide⟩

/-- The line separator has an escape that the scanner refuses. -/
theorem escapes_decoded_lineSeparator :
    QuotedLine [backslash, 0x4C] ∧ ¬EscapesDecoded [dquote, backslash, 0x4C, dquote]
      [backslash, 0x4C] (Scanner.new [dquote, backslash, 0x4C, dquote]) := by
  refine ⟨.escape rfl .nil, fun decoded => ?_⟩
  have refused : ∃ q, scanAtToken (Scanner.new [dquote, backslash, 0x4C, dquote]) =
      .error .scan q := ⟨_, rfl⟩
  obtain ⟨tok, s', ok⟩ := decoded.accepts.mpr rfl
  obtain ⟨q, failed⟩ := refused
  rw [failed] at ok
  cases ok

end Oyl
