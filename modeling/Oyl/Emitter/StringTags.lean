import Oyl.Emitter.Scalars
import Oyl.Tags.CoreSchema

/-!
# Strings that would resolve to another type

The keywords and the number test of the emitter cover the rules of the core schema, so a
scalar tagged `!!str` that is written plain stays a string without its tag.
-/

namespace Oyl

open Languages

section

variable {s rest run : Bytes} {hasDot hasE : Bool}

/-! ### The number test -/

/-- Bytes that the loop of `looks_like_number` passes, whatever the byte before them is. -/
def PassesNumber (hasDot hasE : Bool) (rest : Bytes) : Prop :=
  ∀ prev, numberBytes prev hasDot hasE rest = true

theorem PassesNumber.nil : PassesNumber hasDot hasE [] := fun _ => rfl

theorem PassesNumber.digits (all : ∀ c ∈ run, isDigit c = true)
    (passes : PassesNumber hasDot hasE rest) : PassesNumber hasDot hasE (run ++ rest) := by
  induction run with
  | nil => exact passes
  | cons c run ih =>
      intro prev
      rw [List.cons_append, numberBytes, if_pos (all c List.mem_cons_self)]
      exact ih (fun d member => all d (List.mem_cons_of_mem _ member)) (some c)

theorem PassesNumber.allDigits (all : ∀ c ∈ run, isDigit c = true) :
    PassesNumber hasDot hasE run := by
  have passes := PassesNumber.digits all (@PassesNumber.nil hasDot hasE)
  rwa [List.append_nil] at passes

theorem PassesNumber.point (passes : PassesNumber true hasE rest) :
    PassesNumber false hasE (dot :: rest) := by
  intro prev
  have isPoint : ¬isDigit dot = true ∧ (dot == dot && !false) = true := by decide
  rw [numberBytes, if_neg isPoint.1, if_pos isPoint.2]
  exact passes (some dot)

theorem PassesNumber.exponential (member : rest ∈ exponent) : PassesNumber hasDot false rest := by
  obtain ⟨e, signed, isLetter, isNumber, rfl⟩ := mem_letter_mul.mp member
  intro prev
  have letters : e = 0x65 ∨ e = 0x45 := by
    rw [isExponent, Bool.or_eq_true, beq_iff_eq, beq_iff_eq] at isLetter
    exact isLetter
  have notDigit : ¬isDigit e = true ∧ ¬(e == dot && !hasDot) = true := by
    rcases letters with rfl | rfl <;> cases hasDot <;> decide
  have first : ((e == 0x65 || e == 0x45) && !false) = true := by
    rcases letters with rfl | rfl <;> decide
  rw [numberBytes, if_neg notDigit.1, if_neg notDigit.2, if_pos first]
  rcases mem_optional_letter_mul.mp isNumber with bare | ⟨c, digits, sign, isDigits, rfl⟩
  · exact PassesNumber.allDigits (mem_many1.mp bare).2 (some e)
  · have signs : c = plus ∨ c = dash := by
      rw [isSign, Bool.or_eq_true, beq_iff_eq, beq_iff_eq] at sign
      exact sign
    have notOther : ¬isDigit c = true ∧ ¬(c == dot && !hasDot) = true ∧
        ¬((c == 0x65 || c == 0x45) && !true) = true := by
      rcases signs with rfl | rfl <;> cases hasDot <;> decide
    have after :
        ((c == plus || c == dash) && (some e == some 0x65 || some e == some 0x45)) = true := by
      rcases signs with rfl | rfl <;> rcases letters with rfl | rfl <;> decide
    rw [numberBytes, if_neg notOther.1, if_neg notOther.2.1, if_neg notOther.2.2, if_pos after]
    exact PassesNumber.allDigits (mem_many1.mp isDigits).2 (some c)

theorem PassesNumber.tail (isTail : rest = [] ∨ rest ∈ exponent) :
    PassesNumber hasDot false rest := by
  rcases isTail with rfl | isExp
  · exact PassesNumber.nil
  · exact PassesNumber.exponential isExp

theorem PassesNumber.float (member : s ∈ floatBody) : PassesNumber false false s := by
  obtain ⟨number, tail, isNumber, isTail, rfl⟩ := mem_mul_optional.mp member
  rcases isNumber with isNumber | isNumber
  · obtain ⟨decimals, isMany, rfl⟩ := mem_word_mul.mp isNumber
    exact .point (.digits (mem_many1.mp isMany).2 (.tail isTail))
  · obtain ⟨digits, fraction, isMany, isFraction, rfl⟩ := mem_mul_optional.mp isNumber
    rw [List.append_assoc]
    refine .digits (mem_many1.mp isMany).2 ?_
    rcases isFraction with rfl | isFraction
    · exact .tail isTail
    · obtain ⟨decimals, isMany', rfl⟩ := mem_word_mul.mp isFraction
      exact .point (.digits (mem_many.mp isMany') (.tail isTail))

/-- The number test looks at what follows the sign. -/
theorem looksLikeNumber_body (some : dropSign s ≠ [])
    (passes : (∃ rest, dropSign s = 0x30 :: 0x78 :: rest) ∨
      (∃ rest, dropSign s = 0x30 :: 0x6F :: rest) ∨ PassesNumber false false (dropSign s)) :
    looksLikeNumber s = true := by
  cases s with
  | nil => exact absurd rfl some
  | cons first rest =>
      have body : (if first == plus || first == dash then rest else first :: rest) =
          dropSign (first :: rest) := rfl
      have notAlone : ¬((first == plus || first == dash) && rest.isEmpty) = true := by
        rw [Bool.and_eq_true, List.isEmpty_iff]
        rintro ⟨sign, rfl⟩
        rw [dropSign, if_pos sign] at some
        exact some rfl
      rw [looksLikeNumber]
      rw [if_neg notAlone, body]
      split
      · rfl
      · rfl
      · rename_i notHex notOctal
        rcases passes with ⟨tail, isHex⟩ | ⟨tail, isOctal⟩ | passes
        · exact absurd isHex (notHex tail)
        · exact absurd isOctal (notOctal tail)
        · exact passes _

theorem matchInt_looksLikeNumber (matched : matchInt s = true) : looksLikeNumber s = true := by
  rcases matchInt_iff.mp matched with decimal | octal | hex
  · obtain ⟨some, all⟩ := mem_many1.mp decimal
    exact looksLikeNumber_body some (.inr (.inr (.allDigits all)))
  · obtain ⟨digits, _, same⟩ := mem_word_mul.mp octal
    refine looksLikeNumber_body ?_ (.inr (.inl ⟨digits, same⟩))
    rw [same]
    exact List.cons_ne_nil _ _
  · obtain ⟨digits, _, same⟩ := mem_word_mul.mp hex
    refine looksLikeNumber_body ?_ (.inl ⟨digits, same⟩)
    rw [same]
    exact List.cons_ne_nil _ _

theorem floatBody_notEmpty : [] ∉ floatBody := by
  intro member
  obtain ⟨number, tail, isNumber, _, same⟩ := mem_mul_optional.mp member
  obtain ⟨rfl, rfl⟩ := List.append_eq_nil_iff.mp same.symm
  rcases isNumber with isNumber | isNumber
  · obtain ⟨decimals, _, same⟩ := mem_word_mul.mp isNumber
    cases same
  · obtain ⟨digits, fraction, isMany, _, same⟩ := mem_mul_optional.mp isNumber
    obtain ⟨rfl, _⟩ := List.append_eq_nil_iff.mp same.symm
    exact (mem_many1.mp isMany).1 rfl

/-- The floats with a value are keywords, the others look like numbers. -/
theorem matchFloat_covered (matched : matchFloat s = true) :
    isYamlKeyword s = true ∨ looksLikeNumber s = true := by
  rw [matchFloat_eq, Bool.or_eq_true, Bool.or_eq_true, beq_iff_eq, beq_iff_eq,
    matchNumber_iff] at matched
  rcases matched with (rfl | infinite) | ⟨isFloat, _⟩
  · left
    decide
  · left
    cases s with
    | nil => cases infinite
    | cons c rest =>
        rw [dropSign] at infinite
        split at infinite
        · rename_i sign
          rw [Bool.or_eq_true, beq_iff_eq, beq_iff_eq] at sign
          rcases sign with rfl | rfl <;> rw [infinite] <;> decide
        · rw [infinite]
          decide
  · right
    refine looksLikeNumber_body ?_ (.inr (.inr (.float isFloat)))
    intro empty
    rw [empty] at isFloat
    exact floatBody_notEmpty isFloat

/-! ### The rules of the core schema -/

/-- A rule of the core schema that takes a text is covered by the emitter's tests. -/
theorem schemaCore_covered (some : s ≠ [])
    (matched : ∃ rule ∈ schemaCore.rules, rule.pattern.matches s = true) :
    isYamlKeyword s = true ∨ looksLikeNumber s = true := by
  obtain ⟨rule, isRule, matched⟩ := matched
  have known : ∀ r ∈ schemaCore.rules, (∃ p ∈ coreNulls ++ coreBools, r.pattern = .exact p) ∨
      r.pattern = .builtin (ascii "int") ∨ r.pattern = .builtin (ascii "float") := by
    decide
  have listed : ∀ p ∈ coreNulls ++ coreBools, p = [] ∨ isYamlKeyword p = true := by
    decide
  have names : (ascii "int" == ascii "float") = false ∧ (ascii "float" == ascii "int") = false := by
    decide
  rcases known rule isRule with ⟨p, isLiteral, isExact⟩ | isInt | isFloat
  · rw [isExact, SchemaMatch.matches, beq_iff_eq] at matched
    subst matched
    left
    exact (listed s isLiteral).resolve_left some
  · rw [isInt, SchemaMatch.matches, names.1, beq_self_eq_true, Bool.true_and, Bool.false_and,
      Bool.or_false] at matched
    right
    exact matchInt_looksLikeNumber matched
  · rw [isFloat, SchemaMatch.matches, names.2, beq_self_eq_true, Bool.true_and, Bool.false_and,
      Bool.false_or] at matched
    exact matchFloat_covered matched

theorem schemaCore_unmatched
    (unmatched : ¬∃ rule ∈ schemaCore.rules, rule.pattern.matches s = true) :
    schemaResolve schemaCore s .plain = some tagStr := by
  have none : schemaCore.rules.find? (·.pattern.matches s) = none := by
    rw [List.find?_eq_none]
    intro rule isRule matched
    exact unmatched ⟨rule, isRule, matched⟩
  rw [schemaResolve, none]
  rfl

theorem chooseStyle_str_plain {flowCtx isKey : Bool}
    (plain : chooseStyle .plain s flowCtx isKey (some tagStr) = .plain) :
    s ≠ [] ∧ isYamlKeyword s = false ∧ looksLikeNumber s = false := by
  have isStr : isStrTag (some tagStr) = true := beq_self_eq_true _
  rw [chooseStyle] at plain
  rw [isStr, Bool.not_true, Bool.and_false, if_neg Bool.false_ne_true, Bool.true_and] at plain
  cases escapes : needsEscape s with
  | true =>
      rw [escapes, if_pos rfl] at plain
      cases plain
  | false =>
      rw [escapes, if_neg Bool.false_ne_true, if_neg Bool.false_ne_true] at plain
      cases quoting : needsQuoting s flowCtx with
      | true =>
          rw [quoting, if_neg (by decide)] at plain
          split at plain <;> cases plain
      | false =>
          rw [quoting, Bool.not_false, if_pos rfl] at plain
          split at plain
          · cases plain
          · rename_i plainText
            rw [Bool.not_eq_true, Bool.or_eq_false_iff] at plainText
            refine ⟨?_, plainText⟩
            rintro rfl
            cases quoting

/-- A scalar tagged `!!str` that the emitter writes plain resolves to a string, and its tests
cover every rule that takes a text. -/
theorem plain_keepsString (s : Bytes) :
    (∀ flowCtx isKey, chooseStyle .plain s flowCtx isKey (some tagStr) = .plain →
      schemaResolve schemaCore s .plain = some tagStr) ∧
    ((∃ rule ∈ schemaCore.rules, rule.pattern.matches s = true) →
      s = [] ∨ isYamlKeyword s = true ∨ looksLikeNumber s = true) := by
  constructor
  · intro flowCtx isKey plain
    obtain ⟨some, notKeyword, notNumber⟩ := chooseStyle_str_plain plain
    apply schemaCore_unmatched
    intro matched
    rcases schemaCore_covered some matched with keyword | number
    · rw [keyword] at notKeyword
      cases notKeyword
    · rw [number] at notNumber
      cases notNumber
  · intro matched
    by_cases empty : s = []
    · exact .inl empty
    · exact .inr (schemaCore_covered empty matched)

end

/-- A text between the two tests. -/
theorem plain_keepsString_version :
    chooseStyle .plain (ascii "1.2.3") true true (some tagStr) = .plain ∧
      schemaResolve schemaCore (ascii "1.2.3") .plain = some tagStr ∧
      chooseStyle .plain (ascii "1.2") true true (some tagStr) = .doubleQuoted ∧
      looksLikeNumber (ascii "1.2") = true := by
  have plain : chooseStyle .plain (ascii "1.2.3") true true (some tagStr) = .plain := by decide
  have matched : ∃ rule ∈ schemaCore.rules, rule.pattern.matches (ascii "1.2") = true := by decide
  have covered := (plain_keepsString (ascii "1.2")).2 matched
  have others : ascii "1.2" ≠ [] ∧ isYamlKeyword (ascii "1.2") = false := by decide
  refine ⟨plain, (plain_keepsString _).1 true true plain, by decide, ?_⟩
  rcases covered with empty | keyword | number
  · exact absurd empty others.1
  · rw [others.2] at keyword
    cases keyword
  · exact number

end Oyl
