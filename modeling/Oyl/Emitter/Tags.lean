import Oyl.Emitter.Quoted
import Oyl.Parser.Props

/-!
# Tags read back

The three forms in which the emitter writes a tag are each scanned as one token, from
which the parser takes the tag again.
-/

namespace Oyl

open StateError

/-! ### Characters of tags -/

/-- What the scanner and the decoder see of a URI character. -/
theorem isUriChar_plain {c : UInt8} (isUri : isUriChar c = true) :
    isBlankOrBreak c = false ∧ isControl c = false ∧ c ≠ greater ∧ c ≠ less ∧ c ≠ percent := by
  have all : ∀ c, isUriChar c = true → isBlankOrBreak c = false ∧ isControl c = false ∧
      c ≠ greater ∧ c ≠ less ∧ c ≠ percent := forall_byte (by decide +kernel)
  exact all c isUri

theorem isHex_uri {c : UInt8} (hex : isHex c = true) : isUriChar c = true := by
  have all : ∀ c, isHex c = true → isUriChar c = true := forall_byte (by decide +kernel)
  exact all c hex

theorem verbatimBytes_plain {tag : Bytes} {d : UInt8} (member : d ∈ tag.flatMap verbatimByte) :
    isBlankOrBreak d = false ∧ isControl d = false ∧ d ≠ greater := by
  obtain ⟨c, _, within⟩ := List.mem_flatMap.mp member
  have uri {e : UInt8} (isUri : isUriChar e = true) :
      isBlankOrBreak e = false ∧ isControl e = false ∧ e ≠ greater :=
    ⟨(isUriChar_plain isUri).1, (isUriChar_plain isUri).2.1, (isUriChar_plain isUri).2.2.1⟩
  rw [verbatimByte] at within
  split at within
  · rename_i isUri
    rw [List.mem_singleton.mp within]
    exact uri isUri
  · obtain ⟨high, low⟩ := upperHexDigits_hex c
    simp only [List.mem_cons, List.not_mem_nil, or_false] at within
    rcases within with rfl | rfl | rfl
    · exact ⟨rfl, rfl, by decide⟩
    · exact uri (isHex_uri high)
    · exact uri (isHex_uri low)

/-! ### The scanner -/

section

variable {text tail run : Bytes} {s : Scanner}

theorem isTagChar_plain {c : UInt8} (isTag : isTagChar c = true) :
    isUriChar c = true ∧ c ≠ bang ∧ isFlow c = false := by
  rw [isTagChar, Bool.and_eq_true, Bool.and_eq_true, bne_iff_ne, Bool.not_eq_true'] at isTag
  exact ⟨isTag.1.1, isTag.1.2, isTag.2⟩

end

end Oyl
