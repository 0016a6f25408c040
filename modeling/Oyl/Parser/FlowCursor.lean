import Oyl.Scanner.Simd

/-!
# The cursor of the lookahead

The scan for flow collections that are keys walks its stop bytes with a bit mask, 64
bytes at a time.
-/

namespace Oyl

open Vectors

/-- `fk_cursor`: bit `k` of `bits` marks a stop at `base + k`. -/
structure FkCursor where
  input : Bytes
  base : Nat
  bits : Nat
  deriving DecidableEq, Repr

/-- `__builtin_ctzll` -/
def ctzll (n : Nat) : Nat := trailingZeros 64 n

section

variable (mask64 : Bytes → Nat)

/-- `fk_mask_at`, on either form of `oyl_flow_mask64`. -/
def fkMaskAt (input : Bytes) (base : Nat) : Nat :=
  if input.length - base ≥ 64 then mask64 ((input.drop base).take 64)
  else
    -- the last partial block
    (List.range (input.length - base)).foldl
      (fun m k => if isFkStop (input.getD (base + k) 0) then m ||| 1 <<< k else m) 0

/-- `fk_seek` -/
def fkSeek (input : Bytes) (pos : Nat) : FkCursor :=
  { input := input
    base := pos
    bits := if pos < input.length then fkMaskAt mask64 input pos else 0 }

namespace FkCursor

/-- The loop of `fk_next`: the offset of the next stop, and the cursor past it. -/
def nextFrom : Nat → FkCursor → Nat × FkCursor
  | 0, c => (c.input.length, c)
  | fuel + 1, c =>
      if c.bits == 0 then
        if c.input.length - c.base ≤ 64 then
          (c.input.length, { c with base := c.input.length })
        else
          nextFrom fuel { c with
            base := c.base + 64, bits := fkMaskAt mask64 c.input (c.base + 64) }
      else (c.base + ctzll c.bits, { c with bits := c.bits &&& (c.bits - 1) })

/-- `fk_next` -/
def next (c : FkCursor) : Nat × FkCursor :=
  nextFrom mask64 (c.input.length - c.base + 1) c

/-- The loop of `fk_skip_quoted` for the quoted scalar that opens at `i`. -/
def skipQuotedFrom (i : Nat) : Nat → FkCursor → Nat × FkCursor
  | 0, c => (c.input.length, c)
  | fuel + 1, c =>
      let q := c.input.getD i 0
      let (k, c) := c.next mask64
      if k == c.input.length then (c.input.length, c)
      else if c.input.getD k 0 != q then skipQuotedFrom i fuel c
      else if q == squote then
        if k + 1 < c.input.length && c.input.getD (k + 1) 0 == squote then
          skipQuotedFrom i fuel (c.next mask64).2
        else (k + 1, c)
      else if backslashRun c.input (i + 1) k % 2 == 0 then (k + 1, c)
      else skipQuotedFrom i fuel c

/-- `fk_skip_quoted` -/
def skipQuoted (i : Nat) (c : FkCursor) : Nat × FkCursor :=
  skipQuotedFrom mask64 i (c.input.length - i) c

/-- The results of successive calls of `fk_next`. -/
def results : Nat → FkCursor → List Nat
  | 0, _ => []
  | n + 1, c => (c.next mask64).1 :: results n (c.next mask64).2

end FkCursor

end

end Oyl
