import Oyl.Tokens.Dispatch

/-!
# Which block scalar headers are accepted

A `|` or `>` in block context starts a block scalar, whose header the scanner gets past
without an error or fails with one of the header's errors.
-/

namespace Oyl

open StateError

section

variable {text : Bytes} {s s' : Scanner}

/-- A block scalar's indicator is read as such. -/
theorem scanAtToken_block (isBlock : s.peek = pipe ∨ s.peek = greater) (block : s.flowLevel = 0) :
    scanAtToken s = scanBlockScalar s.mark s.atScalar := by
  have content : startsContent s.peek = true := by
    rcases isBlock with isByte | isByte <;> rw [isByte] <;> rfl
  have level := s.atScalar_flowLevel.trans block
  rw [scanAtToken_content content, scanContent, run_bind, run_modify]
  change (get >>= _ : ScanM Token) s.atScalar = _
  rw [get_bind_eq]
  rcases isBlock with isByte | isByte
  · rw [isByte, level]
    rfl
  · rw [isByte, level]
    rfl

/-- The text after the byte at the cursor. -/
def Scanner.following (s : Scanner) : Bytes := s.buf.drop (s.pos + 1)

end

end Oyl
