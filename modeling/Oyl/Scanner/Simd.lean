import Oyl.Logic.Vectors
import Oyl.Scanner.Scalars
import Oyl.Parser.Lookahead

/-!
# Vector forms of the scan primitives

The functions of `oyl_simd` on vectors of 16 bytes, and `scan_plain_scalar` on top of
either of the two plain scans, with its value as a slice of the input until the scalar
goes on on another line.
-/

namespace Oyl

open Vectors

/-! ### Scans for a byte -/

/-- `oyl_simd_struct_ranges` -/
def structRanges : Bytes :=
  [0x00, space, hash, hash, comma, comma, colon, colon, lbracket, rbracket, lbrace, rbrace,
    del, del, 0x00, 0x00]

/-- `OYL_SIMD_STRUCT_RANGES_LEN` -/
def structRangesLen : Nat := 14

/-- `scan_plain_scalar_sse42` -/
def plainRunSse42 (bytes : Bytes) : Nat :=
  blockScan 16 (fun chunk =>
    let idx := cmpestriRanges structRanges structRangesLen chunk 16
    if idx < 16 then some idx else none) plainRun (bytes.length / 16) bytes

/-- `__builtin_ctz` -/
def ctz (n : Nat) : Nat := trailingZeros 32 n

/-- `skip_blanks_sse42` -/
def skipBlanksSse42 (bytes : Bytes) : Nat :=
  blockScan 16 (fun chunk =>
    let eqSp := cmpeqEpi8 chunk (set1Epi8 space)
    let eqTb := cmpeqEpi8 chunk (set1Epi8 tab)
    let mask := movemaskEpi8 (orSi128 eqSp eqTb)
    if mask != 0xFFFF then some (ctz (2 ^ 32 - 1 - mask)) else none)
    skipBlanks (bytes.length / 16) bytes

/-- `scan_to_break_sse42` -/
def scanToBreakSse42 (bytes : Bytes) : Nat :=
  blockScan 16 (fun chunk =>
    let eqNl := cmpeqEpi8 chunk (set1Epi8 lf)
    let eqCr := cmpeqEpi8 chunk (set1Epi8 cr)
    let mask := movemaskEpi8 (orSi128 eqNl eqCr)
    if mask != 0 then some (ctz mask) else none)
    scanToBreak (bytes.length / 16) bytes

/-- `oyl_find_any4` with SSE2 -/
def findAny4Sse2 (a b c d : UInt8) (bytes : Bytes) : Nat :=
  blockScan 16 (fun v =>
    let m := orSi128
      (orSi128 (cmpeqEpi8 v (set1Epi8 a)) (cmpeqEpi8 v (set1Epi8 b)))
      (orSi128 (cmpeqEpi8 v (set1Epi8 c)) (cmpeqEpi8 v (set1Epi8 d)))
    let mask := movemaskEpi8 m
    if mask != 0 then some (ctz mask) else none)
    (findAny4 a b c d) (bytes.length / 16) bytes

/-- `oyl_find_any4_short`: a few plain compares before `oyl_find_any4`. -/
def findAny4Short (findAny4 : Bytes → Nat) (a b c d : UInt8) : Nat → Bytes → Nat
  | 0, bytes => findAny4 bytes
  | _ + 1, [] => findAny4 []
  | n + 1, x :: rest =>
      if x == a || x == b || x == c || x == d then 0
      else findAny4Short findAny4 a b c d n rest + 1

/-! ### The bit mask of the lookahead -/

/-- `oyl_flow_mask16` -/
def flowMask16 (v : Bytes) : Nat :=
  let lower := orSi128 v (set1Epi8 0x20)
  let m := orSi128 (cmpeqEpi8 lower (set1Epi8 lbrace)) (cmpeqEpi8 lower (set1Epi8 rbrace))
  let m := orSi128 m (cmpeqEpi8 v (set1Epi8 dquote))
  let m := orSi128 m (cmpeqEpi8 v (set1Epi8 squote))
  let m := orSi128 m (cmpeqEpi8 v (set1Epi8 hash))
  let m := orSi128 m (cmpeqEpi8 v (set1Epi8 less))
  let m := orSi128 m (cmpeqEpi8 v (set1Epi8 lf))
  let m := orSi128 m (cmpeqEpi8 v (set1Epi8 cr))
  movemaskEpi8 m

/-- `oyl_flow_mask64` with SSE2 -/
def flowMask64Sse2 (p : Bytes) : Nat :=
  flowMask16 (p.take 16) ||| flowMask16 ((p.drop 16).take 16) <<< 16 |||
    flowMask16 ((p.drop 32).take 16) <<< 32 ||| flowMask16 ((p.drop 48).take 16) <<< 48

/-- `oyl_flow_mask64` without SSE2 -/
def flowMask64 (p : Bytes) : Nat :=
  (List.range 64).foldl (fun m k => if isFkStop (p.getD k 0) then m ||| 1 <<< k else m) 0

/-! ### Plain scalars on either scan -/

/-- The value of a plain scalar so far: `single_start` and `single_len`, or `buf`. -/
inductive PlainOut where
  | single (start len : Nat)
  | inBuf (out : Bytes)
  deriving DecidableEq, Repr

namespace PlainOut

variable (buf : Bytes)

def bytes : PlainOut → Bytes
  | single start len => (buf.drop start).take len
  | inBuf out => out

/-- `TRIM_TRAILING` -/
def trim : PlainOut → PlainOut
  | single start len => single start (trimBlanks ((buf.drop start).take len)).length
  | inBuf out => inBuf (trimBlanks out)

/-- `SWITCH_TO_BUF` -/
def switch (out : PlainOut) : PlainOut := inBuf (out.bytes buf)

/-- `APPEND_RUN` and `APPEND_CHAR` -/
def append (run : Bytes) : PlainOut → PlainOut
  | single start len => single start (len + run.length)
  | inBuf out => inBuf (out ++ run)

end PlainOut

/-- What the loop of `scan_plain_scalar` does after its run of plain bytes. -/
def plainScanRound (again : PlainOut → ScanM PlainOut) (out : PlainOut) : ScanM PlainOut := do
  let s ← get
  if s.atEnd then return out
  let c := s.peek
  if c == colon then
    let next := s.peekAt 1
    if !isBlankOrBreak next && next != 0 &&
        !(s.flowLevel > 0 && isFlow next) then
      set (s.advance 1)
      again (out.append [colon])
    else return out
  else if c == hash then
    let cur := out.bytes s.buf
    if cur.getLast?.any isBlank then return out.trim s.buf
    else if cur.isEmpty then return out
    else
      set (s.advance 1)
      again (out.append [hash])
  else if s.flowLevel > 0 && isFlow c then return out
  else if isBlank c then
    let blanks := skipBlanks s.rest
    let next := s.advanceCols blanks
    set next
    if next.atEnd then return out
    if isBreak next.peek then again out
    else again (out.append (s.rest.take blanks))
  else if isBreak c then
    let (next, breakCount) := s.skipBreakLines s.remaining 0
    if next.atEnd || next.plainLineEnds then return out
    set next
    again (((out.trim s.buf).switch s.buf).append (foldBreaks breakCount))
  else if isControl c then scanError "control character in plain scalar"
  else
    set (s.advance 1)
    again (out.append [c])

/-- The loop of `scan_plain_scalar` on top of a plain scan. -/
def plainScanLoop (run : Bytes → Nat) : Nat → PlainOut → ScanM PlainOut
  | 0, out => pure out
  | fuel + 1, out => do
      let s ← get
      set (s.advanceCols (run s.rest))
      plainScanRound (plainScanLoop run fuel) (out.append (s.rest.take (run s.rest)))

/-- `scan_plain_scalar` on top of a plain scan. -/
def scanPlainScalarOn (run : Bytes → Nat) : ScanM Token := do
  let start := (← get).mark
  let out ← plainScanLoop run ((← get).remaining + 1) (.single start.offset 0)
  let s ← get
  let stop := s.mark
  set (s.noteNode start stop.offset)
  return tokScalar ((out.trim s.buf).bytes s.buf) .plain start stop

end Oyl
