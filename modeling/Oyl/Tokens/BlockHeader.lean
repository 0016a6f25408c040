import Oyl.Tokens.Scalars

/-!
# Block scalar headers

The header of a block scalar is read to the end of its line before the content is
looked at.
-/

namespace Oyl

open StateError

/-- The header of a block scalar, from its `|` or `>` past the end of the line. -/
def scanBlockHeader : ScanM (Chomp × Nat) := do
  let (s, chomp, explicitIndent) := ((← get).advance 1).blockHeader 2 .clip 0
  let blanks := skipBlanks s.rest
  let s := s.advanceCols blanks
  set s
  if !s.atEnd && s.peek == hash && blanks == 0 then
    scanError "comment must be separated from other tokens by whitespace"
  let s := if !s.atEnd && s.peek == hash then s.advanceCols (scanToBreak s.rest)
    else s
  set s
  if !s.atEnd && !isBreak s.peek then scanError "invalid block scalar indicator"
  set s.skipBreak
  return (chomp, explicitIndent)

/-- The indentation of a block scalar's content. -/
def blockBase (explicitIndent : Nat) : ScanM Nat := do
  let s ← get
  if explicitIndent > 0 then return (max (s.indent + explicitIndent) explicitIndent).toNat
  match s.probeIndent (s.remaining + 1) s.pos 0 with
  | (some li, maxEmpty) =>
      if maxEmpty > li then
        scanError "leading empty line in block scalar has more spaces than the first content line"
      else return li
  | (none, maxEmpty) => return (max maxEmpty (max (s.indent + 1) 1).toNat)

/-- The lines of a block scalar. -/
def scanBlockLines (style : ScalarStyle) (start : Mark) (chomp : Chomp) (base : Nat) :
    ScanM Token := do
  let s ← get
  match s.measureBlock base (s.remaining + 1) s.pos 0 with
  | none => scanError "tabs are not allowed as indentation in a block scalar"
  | some (endPos, _needed) =>
      let (s, out, lines) := s.copyBlock base endPos (s.remaining + 1) [] []
      set s
      let out := if style == .folded && !lines.isEmpty then
          foldLines lines.length lines else out
      return tokScalar (chompBlock chomp out) style start s.mark

/-- The style that the indicator at the cursor stands for. -/
def Scanner.blockStyle (s : Scanner) : ScalarStyle :=
  if s.peek == pipe then .literal else .folded

theorem scanBlockScalar_eq (start : Mark) :
    scanBlockScalar start = (do
      let style := (← get).blockStyle
      let (chomp, explicitIndent) ← scanBlockHeader
      let base ← blockBase explicitIndent
      scanBlockLines style start chomp base) := by
  funext s
  rw [scanBlockScalar, scanBlockHeader, get_bind_eq, get_bind_eq, get_bind_eq, run_bind,
    get_bind_eq]
  generalize (s.advance 1).blockHeader 2 .clip 0 = found
  obtain ⟨q, chomp, explicitIndent⟩ := found
  dsimp only
  rw [run_bind, run_bind, run_set]
  dsimp only
  by_cases attached : (!(q.advanceCols (skipBlanks q.rest)).atEnd &&
      (q.advanceCols (skipBlanks q.rest)).peek == hash && skipBlanks q.rest == 0) = true
  · rw [if_pos attached, if_pos attached]
    rfl
  rw [if_neg attached, if_neg attached, run_bind, run_bind, run_set]
  dsimp only
  generalize (if (!(q.advanceCols (skipBlanks q.rest)).atEnd &&
      (q.advanceCols (skipBlanks q.rest)).peek == hash) = true then _ else _ : Scanner) = q'
  by_cases open' : (!q'.atEnd && !isBreak q'.peek) = true
  · rw [if_pos open', if_pos open']
    rfl
  rw [if_neg open', if_neg open', run_bind, run_bind, run_set]
  dsimp only
  rw [run_pure]
  dsimp only
  generalize q'.skipBreak = next
  rw [run_bind, blockBase, get_bind_eq]
  by_cases given : explicitIndent > 0
  · rw [if_pos given, if_pos given]
    rfl
  rw [if_neg given, if_neg given]
  generalize next.probeIndent (next.remaining + 1) next.pos 0 = detected
  obtain ⟨detected, maxEmpty⟩ := detected
  cases detected with
  | none => rfl
  | some li =>
      dsimp only
      by_cases deep : maxEmpty > li
      · rw [if_pos deep, if_pos deep]
        rfl
      · rw [if_neg deep, if_neg deep]
        rfl

/-! ### The grammar of headers -/

def isChomping (c : UInt8) : Bool := c == dash || c == plus

def isIndentDigit (c : UInt8) : Bool := 0x31 ≤ c && c ≤ 0x39

def isHeaderIndicator (c : UInt8) : Bool := isChomping c || isIndentDigit c

/-- At most one chomping indicator and at most one digit, in either order. -/
inductive HeaderIndicators : Bytes → Prop
  | none : HeaderIndicators []
  | chomping {c : UInt8} : isChomping c = true → HeaderIndicators [c]
  | digit {d : UInt8} : isIndentDigit d = true → HeaderIndicators [d]
  | chompingDigit {c d : UInt8} : isChomping c = true → isIndentDigit d = true →
      HeaderIndicators [c, d]
  | digitChomping {c d : UInt8} : isIndentDigit d = true → isChomping c = true →
      HeaderIndicators [d, c]

/-- The end of a line, after blanks, or after a comment that a blank comes before. -/
def headerEnds (tail : Bytes) : Bool :=
  (tail.dropWhile isBlank).head?.all fun c => isBreak c || (c == hash && tail.head?.any isBlank)

/-- A block scalar header, after its `|` or `>`. -/
def HeaderText (rest : Bytes) : Prop :=
  ∃ indicators tail, rest = indicators ++ tail ∧ HeaderIndicators indicators ∧
    headerEnds tail = true

/-- Two indicators of one kind. -/
def RepeatsIndicator (rest : Bytes) : Prop :=
  ∃ a b tail, rest = a :: b :: tail ∧
    (isChomping a = true ∧ isChomping b = true ∨ isIndentDigit a = true ∧ isIndentDigit b = true) ∧
    headerEnds tail = true

theorem indicator_plain {c : UInt8} (indicator : isHeaderIndicator c = true) :
    isBlank c = false ∧ isBreak c = false ∧ (c == hash) = false := by
  have apart (d : UInt8) (other : isHeaderIndicator d = false) : (c == d) = false := by
    apply beq_false_of_ne
    rintro rfl
    rw [other] at indicator
    cases indicator
  rw [isBlank, isBreak, apart space (by decide), apart tab (by decide), apart lf (by decide),
    apart cr (by decide), apart hash (by decide)]
  exact ⟨rfl, rfl, rfl⟩

/-- The line does not end at an indicator. -/
theorem headerEnds_indicator {c : UInt8} {more : Bytes} (indicator : isHeaderIndicator c = true) :
    headerEnds (c :: more) = false := by
  obtain ⟨notBlank, notBreak, notHash⟩ := indicator_plain indicator
  have stays : ¬isBlank c = true := by rw [notBlank]; exact Bool.false_ne_true
  rw [headerEnds, List.dropWhile_cons_of_neg stays, List.head?_cons, Option.all_some, notBreak,
    notHash]
  rfl

/-- Of a header, at most two indicators are read. -/
def indicatorCount (rest : Bytes) : Nat := runLength isHeaderIndicator (rest.take 2)

theorem isHeaderIndicator_iff {c : UInt8} :
    isHeaderIndicator c = true ↔ isChomping c = true ∨ isIndentDigit c = true :=
  Bool.or_eq_true_iff

/-- What an indicator is followed by in a header. -/
theorem HeaderText.cons {a : UInt8} {more : Bytes} (indicator : isHeaderIndicator a = true) :
    HeaderText (a :: more) ↔ headerEnds more = true ∨ ∃ b tail, more = b :: tail ∧
      (isChomping a = true ∧ isIndentDigit b = true ∨ isIndentDigit a = true ∧
        isChomping b = true) ∧
      headerEnds tail = true := by
  constructor
  · rintro ⟨indicators, tail, whole, known, ends⟩
    cases known with
    | none =>
        rw [List.nil_append] at whole
        rw [← whole, headerEnds_indicator indicator] at ends
        cases ends
    | chomping =>
        cases whole
        exact .inl ends
    | digit =>
        cases whole
        exact .inl ends
    | chompingDigit first second =>
        cases whole
        exact .inr ⟨_, _, rfl, .inl ⟨first, second⟩, ends⟩
    | digitChomping first second =>
        cases whole
        exact .inr ⟨_, _, rfl, .inr ⟨first, second⟩, ends⟩
  · rintro (ends | ⟨b, tail, rfl, ⟨first, second⟩ | ⟨first, second⟩, ends⟩)
    · rcases isHeaderIndicator_iff.mp indicator with chomping | digit
      · exact ⟨[a], more, rfl, .chomping chomping, ends⟩
      · exact ⟨[a], more, rfl, .digit digit, ends⟩
    · exact ⟨[a, b], tail, rfl, .chompingDigit first second, ends⟩
    · exact ⟨[a, b], tail, rfl, .digitChomping first second, ends⟩

/-- A header without indicators. -/
theorem HeaderText.bare {rest : Bytes} (plain : rest.head?.any isHeaderIndicator = false) :
    HeaderText rest ↔ headerEnds rest = true := by
  refine ⟨?_, fun ends => ⟨[], rest, rfl, .none, ends⟩⟩
  have apart {a : UInt8} {more : Bytes} (whole : rest = a :: more)
      (indicator : isHeaderIndicator a = true) : headerEnds rest = true := by
    rw [whole, List.head?_cons, Option.any_some, indicator] at plain
    cases plain
  rintro ⟨indicators, tail, whole, known, ends⟩
  cases known with
  | none => exact whole ▸ ends
  | chomping first => exact apart whole (isHeaderIndicator_iff.mpr (.inl first))
  | digit first => exact apart whole (isHeaderIndicator_iff.mpr (.inr first))
  | chompingDigit first => exact apart whole (isHeaderIndicator_iff.mpr (.inl first))
  | digitChomping first => exact apart whole (isHeaderIndicator_iff.mpr (.inr first))

theorem RepeatsIndicator.indicators {rest : Bytes} (repeats : RepeatsIndicator rest) :
    indicatorCount rest = 2 ∧ headerEnds (rest.drop 2) = true := by
  obtain ⟨a, b, tail, rfl, same, ends⟩ := repeats
  have first : isHeaderIndicator a = true :=
    isHeaderIndicator_iff.mpr (same.imp And.left And.left)
  have second : isHeaderIndicator b = true :=
    isHeaderIndicator_iff.mpr (same.imp And.right And.right)
  refine ⟨?_, ends⟩
  simp only [indicatorCount, List.take_succ_cons, List.take_zero, runLength, first, second, if_true]

/-- A chomping indicator is no digit. -/
theorem chomping_not_digit {c : UInt8} (chomping : isChomping c = true) : isIndentDigit c =
    false := by
  simp only [isChomping, Bool.or_eq_true, beq_iff_eq] at chomping
  rcases chomping with rfl | rfl <;> rfl

section

variable {text : Bytes} {s s' : Scanner}

theorem advanceCols_add (s : Scanner) (m n : Nat) :
    (s.advanceCols m).advanceCols n = s.advanceCols (m + n) := by
  simp only [Scanner.advanceCols, Nat.add_assoc]

theorem dropWhile_eq (p : UInt8 → Bool) (bytes : Bytes) :
    bytes.dropWhile p = bytes.drop (runLength p bytes) := by
  induction bytes with
  | nil => rfl
  | cons c rest ih =>
      rw [List.dropWhile_cons, runLength]
      split
      · rw [ih, List.drop_succ_cons]
      · rfl

theorem head_rest (reads : s.Reads text) (inside : s.atEnd = false) :
    s.rest.head? = some s.peek := by
  have below : s.pos < text.length := by
    rw [← Nat.not_le, ← reads.atEnd_iff, inside]
    exact Bool.false_ne_true
  rw [reads.rest_eq, drop_eq_cons below, reads.peek_eq]
  rfl

theorem rest_atEnd (reads : s.Reads text) (ended : s.atEnd = true) : s.rest = [] := by
  rw [reads.rest_eq, List.drop_eq_nil_of_le (reads.atEnd_iff.mp ended)]

/-- The end of the line at the cursor. -/
theorem headerEnds_eq (reads : s.Reads text) :
    headerEnds s.rest =
      ((s.advanceCols (skipBlanks s.rest)).atEnd || isBreak
        (s.advanceCols (skipBlanks s.rest)).peek ||
        ((s.advanceCols (skipBlanks s.rest)).peek == hash && skipBlanks s.rest != 0)) := by
  have read : (s.advanceCols (skipBlanks s.rest)).Reads text :=
    reads.advanceCols (reads.run_within isBlank)
  have isDrop : s.rest.dropWhile isBlank = (s.advanceCols (skipBlanks s.rest)).rest := by
    rw [dropWhile_eq, Scanner.rest_advanceCols]
    rfl
  have first : s.rest.head?.any isBlank = (skipBlanks s.rest != 0) := by
    cases s.rest with
    | nil => rfl
    | cons c rest =>
        rw [List.head?_cons, Option.any_some, skipBlanks, runLength]
        cases isBlank c <;> rfl
  rw [headerEnds, isDrop, first]
  cases ended : (s.advanceCols (skipBlanks s.rest)).atEnd with
  | true =>
      rw [rest_atEnd read ended]
      rfl
  | false =>
      rw [head_rest read ended]
      rfl

end

end Oyl
