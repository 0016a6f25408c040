import Mathlib.Data.List.Basic
import Mathlib.Tactic.Common

/-!
# Lines of a text

A text is cut into lines at the offsets that end a line break.  The line and
the column of an offset are counted from the text's first offset, and follow
the offset byte by byte.
-/

namespace Oyl

namespace Lines

variable (ends : Nat → Bool) (first : Nat)

/-- The offsets from `first` to `last` that end a line break. -/
def breaks (last : Nat) : List Nat := (List.range' first (last - first)).filter ends

/-- One more than the number of breaks before an offset. -/
def line (offset : Nat) : Nat := 1 + (breaks ends first offset).length

/-- Where the line of an offset starts. -/
def lineStart (offset : Nat) : Nat :=
  ((breaks ends first offset).getLast?.map (· + 1)).getD first

/-- One more than the number of bytes between the last break and an offset. -/
def column (offset : Nat) : Nat := 1 + (offset - lineStart ends first offset)

/-- An offset at which a line starts. -/
def Starts (offset : Nat) : Prop :=
  offset = first ∨ first < offset ∧ ends (offset - 1) = true

variable {ends first}

theorem breaks_succ {offset : Nat} (inside : first ≤ offset) :
    breaks ends first (offset + 1) =
      breaks ends first offset ++ if ends offset then [offset] else [] := by
  have more : offset + 1 - first = (offset - first) + 1 := by omega
  rw [breaks, more, List.range'_concat, List.filter_append, breaks]
  congr 1
  have here : first + 1 * (offset - first) = offset := by omega
  rw [here]
  cases isEnd : ends offset <;> simp [isEnd]

theorem breaks_self : breaks ends first first = [] := by simp [breaks]

theorem line_first : line ends first first = 1 := by simp [line, breaks_self]

theorem column_first : column ends first first = 1 := by
  simp [column, lineStart, breaks_self]

theorem lineStart_le {offset : Nat} (inside : first ≤ offset) :
    lineStart ends first offset ≤ offset := by
  unfold lineStart
  cases last : (breaks ends first offset).getLast? with
  | none => exact inside
  | some break' =>
      have member := List.mem_of_getLast? last
      have bounds := List.mem_range'_1.mp (List.mem_of_mem_filter member)
      simp only [Option.map_some, Option.getD_some]
      omega

theorem line_over {offset : Nat} (inside : first ≤ offset) (plain : ends offset = false) :
    line ends first (offset + 1) = line ends first offset := by
  simp [line, breaks_succ inside, plain]

theorem column_over {offset : Nat} (inside : first ≤ offset) (plain : ends offset = false) :
    column ends first (offset + 1) = column ends first offset + 1 := by
  have same : lineStart ends first (offset + 1) = lineStart ends first offset := by
    simp [lineStart, breaks_succ inside, plain]
  have before : lineStart ends first offset ≤ offset := lineStart_le inside
  rw [column, same, column]
  omega

theorem line_cross {offset : Nat} (inside : first ≤ offset) (isEnd : ends offset = true) :
    line ends first (offset + 1) = line ends first offset + 1 := by
  simp only [line, breaks_succ inside, isEnd, if_pos, List.length_append, List.length_singleton]
  omega

theorem column_cross {offset : Nat} (inside : first ≤ offset) (isEnd : ends offset = true) :
    column ends first (offset + 1) = 1 := by
  have here : lineStart ends first (offset + 1) = offset + 1 := by
    simp [lineStart, breaks_succ inside, isEnd]
  rw [column, here]
  omega

theorem starts_succ {offset : Nat} (inside : first ≤ offset) :
    Starts ends first (offset + 1) ↔ ends offset = true := by
  constructor
  · rintro (isFirst | ⟨_, isEnd⟩)
    · omega
    · exact isEnd
  · intro isEnd
    exact .inr ⟨by omega, isEnd⟩

end Lines

end Oyl
