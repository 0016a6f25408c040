import Oyl.Emitter.Quoted
import Oyl.Tokens.BlockText

/-!
# Literal block scalars are read back

The writer leaves the indentation to be found from the first line that is not empty, and
says in the header only how the line feeds at the end are chomped.
-/

namespace Oyl

open StateError

/-- What may follow a block scalar in a block that is indented by `parent`: the end, a
document marker, or a line whose first character is indented by no more than the block. -/
def FollowsBlock (parent : Int) (tail : Bytes) : Prop :=
  tail = [] ∨ isMarkerLine (firstLine tail) = true ∨
    ∃ (depth : Nat) (c : UInt8) (more : Bytes), tail = List.replicate depth space ++ c :: more ∧
      (depth : Int) ≤ parent ∧ isBlankOrBreak c = false

section

variable {text value body tail line run : Bytes} {lines : List Bytes} {s : Scanner} {n pos : Nat}

/-! ### The lines that are written -/

end

end Oyl
