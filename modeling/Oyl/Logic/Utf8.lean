import Mathlib.Data.List.Basic

/-!
# UTF-8

Texts that encode characters, and how they are taken apart at an ASCII byte.
-/

namespace Oyl

/-- A text that encodes characters, as `ByteArray.IsValidUTF8` has it for arrays. -/
def Utf8 (bytes : List UInt8) : Prop :=
  ∃ chars : List Char, bytes = chars.flatMap String.utf8EncodeChar

theorem utf8EncodeChar_ascii {char : Char} (ascii : char.val.toNat ≤ 0x7F) :
    String.utf8EncodeChar char = [UInt8.ofNat char.val.toNat] := if_pos ascii

/-- A byte of a character of several bytes. -/
theorem high_of_mem_utf8EncodeChar {char : Char} (high : 0x7F < char.val.toNat) {b : UInt8}
    (member : b ∈ String.utf8EncodeChar char) : 0x80 ≤ b := by
  have lead (n base : Nat) (within : 0x80 ≤ base ∧ n + base < 0x100) :
      (0x80 : UInt8) ≤ UInt8.ofNat (n + base) := by
    rw [UInt8.le_iff_toNat_le, UInt8.toNat_ofNat_of_lt' within.2]
    exact Nat.le_trans within.1 (Nat.le_add_left _ _)
  have below (n k : Nat) (base : Nat) (within : 0 < k ∧ 0x80 ≤ base ∧ k + base ≤ 0x100) :
      (0x80 : UInt8) ≤ UInt8.ofNat (n % k + base) :=
    lead _ _ ⟨within.2.1, by have := Nat.mod_lt n within.1; omega⟩
  rw [String.utf8EncodeChar, if_neg (Nat.not_le.mpr high)] at member
  split at member
  · rcases List.mem_pair.mp member with rfl | rfl
    · exact below _ _ _ (by decide)
    · exact below _ _ _ (by decide)
  split at member
  · simp only [List.mem_cons, List.not_mem_nil, or_false] at member
    rcases member with rfl | rfl | rfl <;> exact below _ _ _ (by decide)
  · simp only [List.mem_cons, List.not_mem_nil, or_false] at member
    rcases member with rfl | rfl | rfl | rfl <;> exact below _ _ _ (by decide)

namespace Utf8

theorem nil : Utf8 [] := ⟨[], rfl⟩

theorem char (char : Char) : Utf8 (String.utf8EncodeChar char) :=
  ⟨[char], (List.flatMap_singleton _ _).symm⟩

theorem append {first second : List UInt8} (before : Utf8 first) (after : Utf8 second) :
    Utf8 (first ++ second) := by
  obtain ⟨chars, rfl⟩ := before
  obtain ⟨more, rfl⟩ := after
  exact ⟨chars ++ more, List.flatMap_append.symm⟩

/-- An ASCII byte is a character of its own. -/
theorem split {first rest : List UInt8} {c : UInt8} (valid : Utf8 (first ++ c :: rest))
    (ascii : c < 0x80) : Utf8 first ∧ Utf8 rest := by
  obtain ⟨chars, whole⟩ := valid
  induction chars generalizing first with
  | nil => cases (List.append_eq_nil_iff.mp whole).2
  | cons char chars ih =>
      rw [List.flatMap_cons] at whole
      rcases List.append_eq_append_iff.mp whole with ⟨more, isEnd, isRest⟩ | ⟨more, isFirst, isRest⟩
      · -- the byte belongs to the character
        cases more with
        | nil =>
            rw [List.append_nil] at isEnd
            obtain ⟨_, valid⟩ := ih (List.nil_append (c :: rest) ▸ isRest)
            exact ⟨isEnd ▸ .char char, valid⟩
        | cons d more =>
            rw [List.cons_append] at isRest
            obtain ⟨rfl, tail⟩ := List.cons.inj isRest
            by_cases high : 0x7F < char.val.toNat
            · have above := high_of_mem_utf8EncodeChar high
                  (isEnd ▸ List.mem_append_right first List.mem_cons_self)
              exact absurd ascii (UInt8.not_lt.mpr above)
            · rw [utf8EncodeChar_ascii (Nat.not_lt.mp high)] at isEnd
              obtain ⟨rfl, rfl⟩ : first = [] ∧ more = [] := by
                have one := congrArg List.length isEnd
                rw [List.length_singleton, List.length_append, List.length_cons] at one
                constructor <;> apply List.length_eq_zero_iff.mp <;> omega
              exact ⟨.nil, chars, tail⟩
      · obtain ⟨before, after⟩ := ih isRest.symm
        rw [isFirst]
        exact ⟨.append (.char char) before, after⟩

/-- ASCII bytes at the front. -/
theorem drop_ascii {first rest : List UInt8} (valid : Utf8 (first ++ rest))
    (ascii : ∀ c ∈ first, c < 0x80) : Utf8 rest := by
  induction first with
  | nil => exact valid
  | cons c first ih =>
      have valid' : Utf8 ([] ++ c :: (first ++ rest)) := valid
      have after := (valid'.split (ascii c List.mem_cons_self)).2
      exact ih after fun d member => ascii d (List.mem_cons_of_mem _ member)

end Utf8

end Oyl
