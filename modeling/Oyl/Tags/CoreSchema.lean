import Oyl.Logic.Languages
import Oyl.Schema
import Oyl.Tokens.Cursor

/-!
# The core schema

The regular languages of YAML 1.2.2, section 10.3.2, and what the matchers of the
schema make of them.
-/

namespace Oyl

open Languages

/-! ### The languages of the core schema -/

def isSign (c : UInt8) : Bool := c == plus || c == dash

def isExponent (c : UInt8) : Bool := c == 0x65 || c == 0x45

def coreSign : Language UInt8 := optional (letter isSign)

def coreNulls : List Bytes := [[], ascii "~", ascii "null", ascii "Null", ascii "NULL"]

def coreBools : List Bytes :=
  [ascii "true", ascii "True", ascii "TRUE", ascii "false", ascii "False", ascii "FALSE"]

def octalInt : Language UInt8 := word (ascii "0o") * many1 isOctalDigit

def hexInt : Language UInt8 := word (ascii "0x") * many1 isHex

def coreInt : Language UInt8 := coreSign * many1 isDigit + octalInt + hexInt

def exponent : Language UInt8 := letter isExponent * (coreSign * many1 isDigit)

def floatBody : Language UInt8 :=
  (word [dot] * many1 isDigit + many1 isDigit * optional (word [dot] * many isDigit)) *
    optional exponent

def infinities : Language UInt8 := {ascii ".inf", ascii ".Inf", ascii ".INF"}

def notNumbers : Language UInt8 := {ascii ".nan", ascii ".NaN", ascii ".NAN"}

def coreFloat : Language UInt8 := coreSign * floatBody + coreSign * infinities + notNumbers

open Classical in
/-- The tag of a plain scalar in the core schema. -/
noncomputable def coreTag (s : Bytes) : Bytes :=
  if s ∈ coreNulls then tagNull
  else if s ∈ coreBools then tagBool
  else if s ∈ coreInt then tagInt
  else if s ∈ coreFloat then tagFloat
  else tagStr

/-- A sign before an octal or a hexadecimal integer. -/
def signedPrefix : Language UInt8 := letter isSign * (octalInt + hexInt)

/-- The special floats with capital letters. -/
def capitalFloat : Language UInt8 :=
  coreSign * {ascii ".Inf", ascii ".INF"} + {ascii ".NaN", ascii ".NAN"}

section

variable {s body : Bytes}

/-! ### Signs -/

theorem mem_sign_mul {l : Language UInt8}
    (unsigned : ∀ c rest, c :: rest ∈ l → isSign c = false) :
    s ∈ coreSign * l ↔ dropSign s ∈ l := by
  rw [coreSign, mem_optional_letter_mul]
  cases s with
  | nil =>
      constructor
      · rintro (member | ⟨_, _, _, _, same⟩)
        · exact member
        · cases same
      · exact .inl
  | cons c rest =>
      rw [dropSign]
      cases sign : c == plus || c == dash with
      | true =>
          rw [if_pos rfl]
          constructor
          · rintro (member | ⟨d, rest', _, isRest, same⟩)
            · rw [← isSign, unsigned c rest member] at sign
              cases sign
            · cases same
              exact isRest
          · intro isRest
            exact .inr ⟨c, rest, sign, isRest, rfl⟩
      | false =>
          rw [if_neg Bool.false_ne_true]
          constructor
          · rintro (member | ⟨d, rest', isLetter, _, same⟩)
            · exact member
            · cases same
              rw [isSign, sign] at isLetter
              cases isLetter
          · exact .inl

theorem isSign_of_isDigit {c : UInt8} (digit : isDigit c = true) : isSign c = false := by
  rw [isSign, Bool.or_eq_false_iff]
  constructor <;> apply beq_false_of_ne <;> rintro rfl <;> cases digit

theorem many1_unsigned (c : UInt8) (rest : Bytes) (member : c :: rest ∈ many1 isDigit) :
    isSign c = false :=
  isSign_of_isDigit ((mem_many1.mp member).2 c List.mem_cons_self)

/-! ### Integers -/

theorem all_iff_many1 (p : UInt8 → Bool) (digits : Bytes) :
    (!digits.isEmpty && digits.all p) = true ↔ digits ∈ many1 p := by
  rw [mem_many1, Bool.and_eq_true, List.all_eq_true]
  cases digits <;> simp

/-- What `match_int` accepts after a sign. -/
theorem matchInt_iff : matchInt s = true ↔
    dropSign s ∈ many1 isDigit ∨ dropSign s ∈ octalInt ∨ dropSign s ∈ hexInt := by
  have letters : ascii "0o" = [0x30, 0x6F] ∧ ascii "0x" = [0x30, 0x78] := by decide
  rw [matchInt, octalInt, hexInt, mem_word_mul, mem_word_mul, letters.1, letters.2]
  have notDigits (c : UInt8) (rest : Bytes) (notDigit : isDigit c = false) :
      0x30 :: c :: rest ∉ many1 isDigit := by
    intro member
    have digit := (mem_many1.mp member).2 c (by simp)
    rw [notDigit] at digit
    cases digit
  split
  · rename_i digits isRest
    rw [all_iff_many1, isRest]
    constructor
    · intro hex
      exact .inr (.inr ⟨digits, hex, rfl⟩)
    · rintro (decimal | ⟨_, _, same⟩ | ⟨rest, hex, same⟩)
      · exact absurd decimal (notDigits _ _ rfl)
      · cases same
      · cases same
        exact hex
  · rename_i digits isRest
    rw [all_iff_many1, isRest]
    constructor
    · intro octal
      exact .inr (.inl ⟨digits, octal, rfl⟩)
    · rintro (decimal | ⟨rest, octal, same⟩ | ⟨_, _, same⟩)
      · exact absurd decimal (notDigits _ _ rfl)
      · cases same
        exact octal
      · cases same
  · rename_i notHex notOctal
    rw [all_iff_many1]
    constructor
    · exact .inl
    · rintro (decimal | ⟨rest, _, same⟩ | ⟨rest, _, same⟩)
      · exact decimal
      · exact absurd same (notOctal rest)
      · exact absurd same (notHex rest)

/-- `match_int` accepts the integers, and a sign before a prefix. -/
theorem matchInt_languages : matchInt s = true ↔ s ∈ coreInt ∨ s ∈ signedPrefix := by
  have signed (l : Language UInt8) (zero : ∀ c rest, c :: rest ∈ l → isSign c = false) :
      dropSign s ∈ l ↔ s ∈ l ∨ s ∈ letter isSign * l := by
    rw [← mem_sign_mul zero, coreSign, mem_optional_letter_mul, mem_letter_mul]
  have octalZero (c : UInt8) (rest : Bytes) (member : c :: rest ∈ octalInt) : isSign c = false := by
    obtain ⟨digits, _, same⟩ := mem_word_mul.mp member
    cases same
    decide
  have hexZero (c : UInt8) (rest : Bytes) (member : c :: rest ∈ hexInt) : isSign c = false := by
    obtain ⟨digits, _, same⟩ := mem_word_mul.mp member
    cases same
    decide
  rw [matchInt_iff, ← mem_sign_mul many1_unsigned, signed octalInt octalZero,
    signed hexInt hexZero, signedPrefix, mul_add, coreInt]
  simp only [Language.mem_add]
  tauto

/-! ### Floats -/

/-- What `match_float` does after a sign. -/
def matchNumber (body : Bytes) : Bool :=
  let digits := runLength isDigit body
  let afterDigits := body.drop digits
  let hasDot := afterDigits.head? == some dot
  let afterDot := if hasDot then afterDigits.drop 1 else afterDigits
  let decimals := if hasDot then runLength isDigit afterDot else 0
  if digits == 0 && (!hasDot || decimals == 0) then false
  else
    match dropExponent (afterDot.drop decimals) with
    | none => false
    | some (hasExp, tail) => tail.isEmpty && (hasDot || hasExp)

theorem matchFloat_eq (s : Bytes) : matchFloat s =
    (s == ascii ".nan" || dropSign s == ascii ".inf" || matchNumber (dropSign s)) := by
  rw [matchFloat]
  cases s == ascii ".nan" with
  | true => rfl
  | false =>
      rw [if_neg Bool.false_ne_true]
      dsimp only
      cases dropSign s == ascii ".inf" with
      | true => rfl
      | false => rfl

/-- The exponent is passed whole, or there is none. -/
theorem dropExponent_iff {rest : Bytes} {hasExp : Bool} :
    dropExponent rest = some (hasExp, []) ↔
      (rest = [] ∧ hasExp = false) ∨ (rest ∈ exponent ∧ hasExp = true) := by
  cases rest with
  | nil =>
      rw [dropExponent, exponent, mem_letter_mul]
      constructor
      · intro same
        cases same
        exact .inl ⟨rfl, rfl⟩
      · rintro (⟨_, rfl⟩ | ⟨⟨_, _, _, _, same⟩, _⟩)
        · rfl
        · cases same
  | cons c rest =>
      rw [dropExponent, exponent, mem_letter_mul]
      cases isExp : c == 0x65 || c == 0x45 with
      | false =>
          rw [if_neg Bool.false_ne_true]
          constructor
          · intro same
            cases same
          · rintro (⟨none, _⟩ | ⟨⟨d, rest', isLetter, _, same⟩, _⟩)
            · cases none
            · cases same
              rw [isExponent, isExp] at isLetter
              cases isLetter
      | true =>
          rw [if_pos rfl]
          dsimp only
          obtain ⟨digits, tail, isRest, all, halts⟩ := exists_run isDigit (dropSign rest)
          have member : rest ∈ coreSign * many1 isDigit ↔ digits ++ tail ∈ many1 isDigit := by
            rw [mem_sign_mul many1_unsigned, isRest]
          have whole : digits ++ tail ∈ many1 isDigit ↔ digits ≠ [] ∧ tail = [] := by
            rw [mem_many1]
            constructor
            · rintro ⟨some, every⟩
              have empty : tail = [] := by
                cases tail with
                | nil => rfl
                | cons d tail =>
                    have digit := every d (by simp)
                    rw [halts d rfl] at digit
                    cases digit
              subst empty
              rw [List.append_nil] at some
              exact ⟨some, rfl⟩
            · rintro ⟨some, rfl⟩
              rw [List.append_nil]
              exact ⟨some, all⟩
          rw [isRest, drop_run all halts, runLength_run all halts]
          constructor
          · intro same
            split at same
            · cases same
            · rename_i some
              cases same
              refine .inr ⟨⟨c, rest, isExp, member.mpr (whole.mpr ⟨?_, rfl⟩), rfl⟩, rfl⟩
              rintro rfl
              exact some rfl
          · rintro (⟨none, _⟩ | ⟨⟨d, rest', _, isNumber, same⟩, rfl⟩)
            · cases none
            · cases same
              obtain ⟨some, rfl⟩ := whole.mp (member.mp isNumber)
              have positive : (digits.length == 0) = false :=
                beq_false_of_ne fun zero => some (List.length_eq_zero_iff.mp zero)
              rw [positive, if_neg Bool.false_ne_true]

theorem exponent_halts {rest : Bytes} (tail : rest = [] ∨ rest ∈ exponent) :
    Halts isDigit rest ∧ rest.head? ≠ some dot := by
  rcases tail with rfl | isExp
  · exact ⟨by simp [Halts], by simp⟩
  · obtain ⟨c, digits, isLetter, _, rfl⟩ := mem_letter_mul.mp isExp
    rw [isExponent, Bool.or_eq_true, beq_iff_eq, beq_iff_eq] at isLetter
    constructor
    · intro d isHead
      cases isHead
      rcases isLetter with rfl | rfl <;> rfl
    · intro isHead
      cases isHead
      rcases isLetter with same | same <;> cases same

/-- A number without a dot. -/
theorem matchNumber_plain {digits rest : Bytes} (all : ∀ c ∈ digits, isDigit c = true)
    (halts : Halts isDigit rest) (notDot : rest.head? ≠ some dot) :
    matchNumber (digits ++ rest) = true ↔ digits ≠ [] ∧ rest ∈ exponent := by
  have noDot : (rest.head? == some dot) = false := beq_false_of_ne notDot
  rw [matchNumber, drop_run all halts, runLength_run all halts, noDot]
  simp only [Bool.false_eq_true, if_false, Bool.not_false, Bool.true_or, Bool.and_true,
    List.drop_zero, Bool.false_or]
  by_cases some : digits = []
  · simp [some]
  have positive : (digits.length == 0) = false :=
    beq_false_of_ne fun zero => some (List.length_eq_zero_iff.mp zero)
  rw [positive, if_neg Bool.false_ne_true]
  have parsed := @dropExponent_iff rest true
  cases found : dropExponent rest with
  | none =>
      rw [found] at parsed
      simp only [Bool.false_eq_true, false_iff, not_and]
      intro _ isExp
      cases parsed.mpr (.inr ⟨isExp, rfl⟩)
  | some result =>
      obtain ⟨hasExp, tail⟩ := result
      rw [found] at parsed
      simp only [Option.some.injEq, Prod.mk.injEq, Bool.true_eq_false, and_false, false_or,
        and_true] at parsed
      rw [← parsed, Bool.and_eq_true, List.isEmpty_iff]
      tauto

/-- A number with a dot. -/
theorem matchNumber_dot {digits decimals rest : Bytes} (all : ∀ c ∈ digits, isDigit c = true)
    (all' : ∀ c ∈ decimals, isDigit c = true) (halts : Halts isDigit rest) :
    matchNumber (digits ++ dot :: (decimals ++ rest)) = true ↔
      (digits ≠ [] ∨ decimals ≠ []) ∧ (rest = [] ∨ rest ∈ exponent) := by
  have stop : Halts isDigit (dot :: (decimals ++ rest)) := by
    intro c isHead
    cases isHead
    rfl
  rw [matchNumber, drop_run all stop, runLength_run all stop]
  simp only [List.head?_cons, beq_self_eq_true, if_true, List.drop_succ_cons, List.drop_zero,
    Bool.not_true, Bool.false_or, Bool.true_or, Bool.and_true]
  rw [drop_run all' halts, runLength_run all' halts]
  by_cases empty : digits = [] ∧ decimals = []
  · obtain ⟨rfl, rfl⟩ := empty
    simp
  have some : ¬(digits.length == 0 && decimals.length == 0) = true := by
    rw [Bool.and_eq_true, beq_iff_eq, beq_iff_eq, List.length_eq_zero_iff, List.length_eq_zero_iff]
    exact empty
  have some' : digits ≠ [] ∨ decimals ≠ [] := by tauto
  rw [if_neg some]
  have parsed (hasExp : Bool) := @dropExponent_iff rest hasExp
  cases found : dropExponent rest with
  | none =>
      simp only [found] at parsed
      simp only [Bool.false_eq_true, false_iff, not_and, not_or]
      intro _
      constructor
      · intro none
        cases (parsed false).mpr (.inl ⟨none, rfl⟩)
      · intro isExp
        cases (parsed true).mpr (.inr ⟨isExp, rfl⟩)
  | some result =>
      obtain ⟨hasExp, tail⟩ := result
      simp only [found, Option.some.injEq, Prod.mk.injEq] at parsed
      rw [List.isEmpty_iff]
      constructor
      · intro empty
        refine ⟨some', ?_⟩
        rcases (parsed hasExp).mp ⟨rfl, empty⟩ with ⟨none, _⟩ | ⟨isExp, _⟩
        · exact .inl none
        · exact .inr isExp
      · rintro ⟨_, none | isExp⟩
        · exact ((parsed false).mpr (.inl ⟨none, rfl⟩)).2
        · exact ((parsed true).mpr (.inr ⟨isExp, rfl⟩)).2

/-- The numbers that `match_float` accepts after a sign: those that are no integers. -/
theorem matchNumber_iff : matchNumber body = true ↔ body ∈ floatBody ∧ body ∉ many1 isDigit := by
  constructor
  · intro matched
    obtain ⟨digits, rest, rfl, all, halts⟩ := exists_run isDigit body
    by_cases isDot : rest.head? = some dot
    · cases rest with
      | nil => cases isDot
      | cons c rest =>
          cases isDot
          obtain ⟨decimals, tail, rfl, all', halts'⟩ := exists_run isDigit rest
          obtain ⟨some, isTail⟩ := (matchNumber_dot all all' halts').mp matched
          constructor
          · refine mem_mul_optional.mpr ⟨digits ++ dot :: decimals, tail, ?_, isTail, by simp⟩
            by_cases empty : digits = []
            · subst empty
              left
              refine mem_word_mul.mpr ⟨decimals, mem_many1.mpr ⟨?_, all'⟩, rfl⟩
              exact some.resolve_left fun not => not rfl
            · right
              refine mem_mul_optional.mpr ⟨digits, dot :: decimals, mem_many1.mpr ⟨empty, all⟩,
                ?_, rfl⟩
              exact .inr (mem_word_mul.mpr ⟨decimals, mem_many.mpr all', rfl⟩)
          · intro member
            have digit := (mem_many1.mp member).2 dot (by simp)
            cases digit
    · obtain ⟨some, isExp⟩ := (matchNumber_plain all halts isDot).mp matched
      constructor
      · refine mem_mul_optional.mpr ⟨digits, rest, .inr ?_, .inr isExp, rfl⟩
        refine mem_mul_optional.mpr ⟨digits, [], mem_many1.mpr ⟨some, all⟩, .inl rfl, ?_⟩
        rw [List.append_nil]
      · intro member
        obtain ⟨c, tail, isLetter, _, rfl⟩ := mem_letter_mul.mp isExp
        have digit := (mem_many1.mp member).2 c (by simp)
        rw [halts c rfl] at digit
        cases digit
  · rintro ⟨isFloat, notDigits⟩
    obtain ⟨number, tail, isNumber, isTail, rfl⟩ := mem_mul_optional.mp isFloat
    obtain ⟨halts, notDot⟩ := exponent_halts isTail
    rcases isNumber with isNumber | isNumber
    · obtain ⟨decimals, isMany, rfl⟩ := mem_word_mul.mp isNumber
      obtain ⟨some, all⟩ := mem_many1.mp isMany
      exact (@matchNumber_dot [] decimals tail (by simp) all halts).mpr ⟨.inr some, isTail⟩
    · obtain ⟨digits, fraction, isMany, isFraction, rfl⟩ := mem_mul_optional.mp isNumber
      obtain ⟨some, all⟩ := mem_many1.mp isMany
      rcases isFraction with rfl | isFraction
      · rw [List.append_nil] at notDigits ⊢
        refine (matchNumber_plain all halts notDot).mpr ⟨some, ?_⟩
        refine isTail.resolve_left ?_
        rintro rfl
        rw [List.append_nil] at notDigits
        exact notDigits isMany
      · obtain ⟨decimals, isMany', rfl⟩ := mem_word_mul.mp isFraction
        have matched := (matchNumber_dot all (mem_many.mp isMany') halts).mpr ⟨.inl some, isTail⟩
        rwa [List.append_assoc]

theorem floatBody_unsigned (c : UInt8) (rest : Bytes) (member : c :: rest ∈ floatBody) :
    isSign c = false := by
  have digitOrDot : isDigit c = true ∨ c = dot := by
    obtain ⟨number, tail, isNumber, _, same⟩ := mem_mul_optional.mp member
    rcases isNumber with isNumber | isNumber
    · obtain ⟨decimals, _, rfl⟩ := mem_word_mul.mp isNumber
      cases same
      exact .inr rfl
    · obtain ⟨digits, fraction, isMany, _, rfl⟩ := mem_mul_optional.mp isNumber
      obtain ⟨some, all⟩ := mem_many1.mp isMany
      cases digits with
      | nil => exact absurd rfl some
      | cons d digits =>
          cases same
          exact .inl (all c List.mem_cons_self)
  rcases digitOrDot with digit | rfl
  · exact isSign_of_isDigit digit
  · rfl

/-- `match_float` accepts the floats in small letters that are no integers. -/
theorem matchFloat_languages : matchFloat s = true ↔
    (s ∈ coreSign * floatBody ∧ s ∉ coreSign * many1 isDigit) ∨
      s ∈ coreSign * word (ascii ".inf") ∨ s = ascii ".nan" := by
  have unsigned (c : UInt8) (rest : Bytes) (member : c :: rest ∈ word (ascii ".inf")) :
      isSign c = false := by
    cases mem_word.mp member
    decide
  rw [matchFloat_eq, Bool.or_eq_true, Bool.or_eq_true, beq_iff_eq, beq_iff_eq, matchNumber_iff,
    mem_sign_mul floatBody_unsigned, mem_sign_mul many1_unsigned, mem_sign_mul unsigned, mem_word]
  tauto

/-! ### Resolution -/

/-- What the rules of the core schema come to. -/
theorem schemaCore_eq (s : Bytes) : schemaResolve schemaCore s .plain = some (
    if s ∈ coreNulls then tagNull else if s ∈ coreBools then tagBool
    else if matchInt s then tagInt else if matchFloat s then tagFloat else tagStr) := by
  by_cases isNull : s ∈ coreNulls
  · rw [if_pos isNull]
    simp only [coreNulls, List.mem_cons, List.not_mem_nil, or_false] at isNull
    rcases isNull with rfl | rfl | rfl | rfl | rfl <;> decide
  rw [if_neg isNull]
  by_cases isBool : s ∈ coreBools
  · rw [if_pos isBool]
    simp only [coreBools, List.mem_cons, List.not_mem_nil, or_false] at isBool
    rcases isBool with rfl | rfl | rfl | rfl | rfl | rfl <;> decide
  rw [if_neg isBool]
  simp only [coreNulls, coreBools, List.mem_cons, List.not_mem_nil, or_false,
    not_or] at isNull isBool
  have names : (ascii "int" == ascii "int") = true ∧ (ascii "int" == ascii "float") = false ∧
      (ascii "float" == ascii "int") = false ∧ (ascii "float" == ascii "float") = true := by decide
  simp only [schemaResolve, schemaCore, List.find?_cons, SchemaMatch.matches, beq_false_of_ne,
    isNull, isBool, ne_eq, not_false_eq_true, names, Bool.true_and, Bool.false_and, Bool.or_false,
    Bool.false_or]
  cases matchInt s <;> cases matchFloat s <;> rfl

theorem signedPrefix_shape (member : s ∈ signedPrefix) :
    ∃ c d rest, isSign c = true ∧ isDigit d = false ∧ s = c :: 0x30 :: d :: rest := by
  obtain ⟨c, rest, sign, prefixed, rfl⟩ := mem_letter_mul.mp member
  rcases prefixed with octal | hex
  · obtain ⟨digits, _, rfl⟩ := mem_word_mul.mp octal
    exact ⟨c, 0x6F, digits, sign, rfl, rfl⟩
  · obtain ⟨digits, _, rfl⟩ := mem_word_mul.mp hex
    exact ⟨c, 0x78, digits, sign, rfl, rfl⟩

theorem signedPrefix_notInt (member : s ∈ signedPrefix) : s ∉ coreInt := by
  obtain ⟨c, d, rest, sign, notDigit, rfl⟩ := signedPrefix_shape member
  have notZero : c ≠ 0x30 := by
    rintro rfl
    cases sign
  rintro ((decimal | octal) | hex)
  · have digits := (mem_sign_mul many1_unsigned).mp decimal
    have isLetter : (c == plus || c == dash) = true := sign
    rw [dropSign, if_pos isLetter] at digits
    have digit := (mem_many1.mp digits).2 d (by simp)
    rw [notDigit] at digit
    cases digit
  · obtain ⟨digits, _, same⟩ := mem_word_mul.mp octal
    exact notZero (List.cons.inj same).1
  · obtain ⟨digits, _, same⟩ := mem_word_mul.mp hex
    exact notZero (List.cons.inj same).1

/-- The special floats with capital letters, written out. -/
def capitalFloats : List Bytes :=
  [ascii ".Inf", ascii ".INF", ascii "+.Inf", ascii "+.INF", ascii "-.Inf", ascii "-.INF",
    ascii ".NaN", ascii ".NAN"]

theorem mem_capitalFloats (member : s ∈ capitalFloat) : s ∈ capitalFloats := by
  have listed : ∀ t ∈ [ascii ".Inf", ascii ".INF"], t ∈ capitalFloats ∧
      plus :: t ∈ capitalFloats ∧ dash :: t ∈ capitalFloats := by decide
  have isListed {t : Bytes} (either : t ∈ ({ascii ".Inf", ascii ".INF"} : Language UInt8)) :
      t ∈ [ascii ".Inf", ascii ".INF"] := by
    rcases either with rfl | same
    · exact List.mem_cons_self
    · exact List.mem_cons_of_mem _ (List.mem_singleton.mpr same)
  rcases member with infinite | notNumber
  · rcases mem_optional_letter_mul.mp infinite with bare | ⟨c, rest, sign, isRest, rfl⟩
    · exact (listed s (isListed bare)).1
    · rw [isSign, Bool.or_eq_true, beq_iff_eq, beq_iff_eq] at sign
      rcases sign with rfl | rfl
      · exact (listed rest (isListed isRest)).2.1
      · exact (listed rest (isListed isRest)).2.2
  · rcases notNumber with rfl | same
    · decide
    · cases same
      decide

theorem capitalFloats_unmatched : ∀ t ∈ capitalFloats,
    matchInt t = false ∧ matchFloat t = false ∧ t ∉ coreNulls ∧ t ∉ coreBools := by
  decide

theorem capitalFloat_float (member : s ∈ capitalFloat) : s ∈ coreFloat := by
  rcases member with infinite | notNumber
  · left
    right
    obtain ⟨sign, isSign, rest, isRest, rfl⟩ := Language.mem_mul.mp infinite
    refine Language.append_mem_mul isSign ?_
    rcases isRest with rfl | same
    · exact .inr (.inl rfl)
    · exact .inr (.inr same)
  · right
    rcases notNumber with rfl | same
    · exact .inr (.inl rfl)
    · exact .inr (.inr same)

theorem coreFloat_iff (notInt : s ∉ coreInt) (notCapital : s ∉ capitalFloat) :
    matchFloat s = true ↔ s ∈ coreFloat := by
  have notDigits : s ∉ coreSign * many1 isDigit := fun decimal => notInt (.inl (.inl decimal))
  rw [matchFloat_languages]
  constructor
  · rintro (⟨number, _⟩ | infinite | rfl)
    · exact .inl (.inl number)
    · obtain ⟨sign, isSign, rest, rfl, rfl⟩ := Language.mem_mul.mp infinite
      exact .inl (.inr (Language.append_mem_mul isSign (.inl rfl)))
    · exact .inr (.inl rfl)
  · rintro ((number | infinite) | notNumber)
    · exact .inl ⟨number, notDigits⟩
    · obtain ⟨sign, isSign, rest, isRest, rfl⟩ := Language.mem_mul.mp infinite
      rcases isRest with rfl | capital
      · exact .inr (.inl (Language.append_mem_mul isSign rfl))
      · exact absurd (.inl (Language.append_mem_mul isSign capital)) notCapital
    · rcases notNumber with rfl | capital
      · exact .inr (.inr rfl)
      · exact absurd (.inr capital) notCapital

/-- No literal of the schema starts like the scalars that are resolved otherwise. -/
theorem exception_notLiteral (member : s ∈ signedPrefix + capitalFloat) :
    s ∉ coreNulls ∧ s ∉ coreBools := by
  have unsigned : ∀ t ∈ coreNulls ++ coreBools, t.head?.any isSign = false := by decide
  rcases member with signed | capital
  · obtain ⟨c, d, rest, sign, _, rfl⟩ := signedPrefix_shape signed
    rw [← not_or, ← List.mem_append]
    intro literal
    have isSign := unsigned _ literal
    rw [List.head?_cons, Option.any_some, sign] at isSign
    cases isSign
  · exact (capitalFloats_unmatched s (mem_capitalFloats capital)).2.2

/-- A plain scalar is resolved as in YAML 1.2.2, but for a sign before `0o` or `0x` and the
special floats with capital letters. -/
theorem core_resolves (s : Bytes) :
    schemaResolve schemaCore s .plain = some (coreTag s) ↔ s ∉ signedPrefix + capitalFloat := by
  have apart : tagInt ≠ tagFloat ∧ tagInt ≠ tagStr ∧ tagStr ≠ tagFloat := by decide
  rw [schemaCore_eq, coreTag, Option.some_inj]
  by_cases isNull : s ∈ coreNulls
  · rw [if_pos isNull, if_pos isNull]
    exact iff_of_true rfl fun member => (exception_notLiteral member).1 isNull
  by_cases isBool : s ∈ coreBools
  · rw [if_neg isNull, if_neg isNull, if_pos isBool, if_pos isBool]
    exact iff_of_true rfl fun member => (exception_notLiteral member).2 isBool
  rw [if_neg isNull, if_neg isNull, if_neg isBool, if_neg isBool]
  by_cases isInt : s ∈ coreInt
  · rw [if_pos (matchInt_languages.mpr (.inl isInt)), if_pos isInt]
    refine iff_of_true rfl ?_
    rintro (signed | capital)
    · exact signedPrefix_notInt signed isInt
    · have unmatched := (capitalFloats_unmatched s (mem_capitalFloats capital)).1
      rw [matchInt_languages.mpr (.inl isInt)] at unmatched
      cases unmatched
  rw [if_neg isInt]
  by_cases signed : s ∈ signedPrefix
  · rw [if_pos (matchInt_languages.mpr (.inr signed))]
    refine iff_of_false ?_ fun outside => outside (.inl signed)
    split
    · exact apart.1
    · exact apart.2.1
  have unmatched : ¬matchInt s = true := by
    rw [matchInt_languages, not_or]
    exact ⟨isInt, signed⟩
  rw [if_neg unmatched]
  by_cases capital : s ∈ capitalFloat
  · have notFloat := (capitalFloats_unmatched s (mem_capitalFloats capital)).2.1
    rw [notFloat, if_neg Bool.false_ne_true, if_pos (capitalFloat_float capital)]
    exact iff_of_false apart.2.2 fun outside => outside (.inr capital)
  · have floats := coreFloat_iff isInt capital
    have regular : s ∉ signedPrefix + capitalFloat := by
      rintro (member | member)
      · exact signed member
      · exact capital member
    by_cases isFloat : s ∈ coreFloat
    · rw [if_pos (floats.mpr isFloat), if_pos isFloat]
      exact iff_of_true rfl regular
    · rw [if_neg (mt floats.mp isFloat), if_neg isFloat]
      exact iff_of_true rfl regular

end

/-- A sign before `0x` is taken. -/
theorem core_resolves_signedHex :
    schemaResolve schemaCore (ascii "-0x1F") .plain ≠ some (coreTag (ascii "-0x1F")) := by
  have resolved : schemaResolve schemaCore (ascii "-0x1F") .plain = some tagInt := by decide
  have digits : ascii "1F" ∈ many1 isHex := mem_many1.mpr (by decide +kernel)
  have isHexInt : ascii "0x1F" ∈ hexInt := mem_word_mul.mpr ⟨ascii "1F", digits, by decide⟩
  have signed : ascii "-0x1F" ∈ signedPrefix :=
    mem_letter_mul.mpr ⟨dash, ascii "0x1F", rfl, .inr isHexInt, by decide⟩
  have notInt := signedPrefix_notInt signed
  obtain ⟨notNull, notBool⟩ := exception_notLiteral (.inl signed)
  rw [resolved, coreTag, if_neg notNull, if_neg notBool, if_neg notInt, ne_eq, Option.some_inj]
  split <;> decide

end Oyl
