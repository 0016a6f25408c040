import Mathlib.Computability.Language

/-!
# Regular languages

Languages of one letter of a class, of many, and of optional parts, by the lists in
them, and the longest run of a class at the front of a list.
-/

namespace Oyl

namespace Languages

open Computability

universe u

variable {α : Type u}

/-- One letter of a class. -/
def letter (p : α → Bool) : Language α := {s | ∃ c, p c = true ∧ s = [c]}

def word (w : List α) : Language α := {w}

def optional (l : Language α) : Language α := 1 + l

def many (p : α → Bool) : Language α := (letter p)∗

def many1 (p : α → Bool) : Language α := letter p * (letter p)∗

section

variable {p : α → Bool} {l : Language α} {s w : List α}

theorem mem_word : s ∈ word w ↔ s = w := Iff.rfl

theorem mem_many : s ∈ many p ↔ ∀ c ∈ s, p c = true := by
  rw [many, Language.mem_kstar]
  constructor
  · rintro ⟨parts, rfl, letters⟩ c member
    obtain ⟨part, isPart, inPart⟩ := List.mem_flatten.mp member
    obtain ⟨d, isLetter, rfl⟩ := letters part isPart
    rwa [List.mem_singleton.mp inPart]
  · intro all
    refine ⟨s.map fun c => [c], ?_, ?_⟩
    · rw [← List.flatMap_def, List.flatMap_singleton']
    · intro part isPart
      obtain ⟨c, member, rfl⟩ := List.mem_map.mp isPart
      exact ⟨c, all c member, rfl⟩

theorem mem_letter_mul : s ∈ letter p * l ↔ ∃ c rest, p c = true ∧ rest ∈ l ∧ s = c :: rest := by
  rw [Language.mem_mul]
  constructor
  · rintro ⟨_, ⟨c, isLetter, rfl⟩, rest, isRest, rfl⟩
    exact ⟨c, rest, isLetter, isRest, rfl⟩
  · rintro ⟨c, rest, isLetter, isRest, rfl⟩
    exact ⟨[c], ⟨c, isLetter, rfl⟩, rest, isRest, rfl⟩

theorem mem_word_mul : s ∈ word w * l ↔ ∃ rest ∈ l, s = w ++ rest := by
  rw [Language.mem_mul]
  constructor
  · rintro ⟨_, rfl, rest, isRest, rfl⟩
    exact ⟨rest, isRest, rfl⟩
  · rintro ⟨rest, isRest, rfl⟩
    exact ⟨w, rfl, rest, isRest, rfl⟩

theorem mem_many1 : s ∈ many1 p ↔ s ≠ [] ∧ ∀ c ∈ s, p c = true := by
  rw [many1, mem_letter_mul]
  constructor
  · rintro ⟨c, rest, isLetter, isRest, rfl⟩
    refine ⟨List.cons_ne_nil _ _, ?_⟩
    intro d member
    rcases List.mem_cons.mp member with rfl | member
    · exact isLetter
    · exact mem_many.mp isRest d member
  · rintro ⟨some, all⟩
    cases s with
    | nil => exact absurd rfl some
    | cons c rest =>
        refine ⟨c, rest, all c List.mem_cons_self, ?_, rfl⟩
        exact mem_many.mpr fun d member => all d (List.mem_cons_of_mem _ member)

/-- An optional letter before a list. -/
theorem mem_optional_letter_mul :
    s ∈ optional (letter p) * l ↔ s ∈ l ∨ ∃ c rest, p c = true ∧ rest ∈ l ∧ s = c :: rest := by
  rw [← mem_letter_mul, optional, add_mul, one_mul]
  rfl

theorem mem_mul_optional {first : Language α} :
    s ∈ first * optional l ↔ ∃ u v, u ∈ first ∧ (v = [] ∨ v ∈ l) ∧ s = u ++ v := by
  rw [Language.mem_mul]
  constructor
  · rintro ⟨u, isFirst, v, isLast, rfl⟩
    exact ⟨u, v, isFirst, isLast, rfl⟩
  · rintro ⟨u, v, isFirst, isLast, rfl⟩
    exact ⟨u, isFirst, v, isLast, rfl⟩

end

end Languages

end Oyl
