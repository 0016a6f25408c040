import Oyl.Tokens.Runs

/-!
# Lines and document markers

The marks of tokens agree with the text, and the lines that are document markers
are tokens of their own, unless a double-quoted scalar escapes a break that it
should not.
-/

namespace Oyl

open StateError

/-- Where a line of a text starts. -/
def LineStart (text : Bytes) (offset : Nat) : Prop :=
  Lines.Starts (breakEnds text) (Scanner.new text).begins offset

/-- The next token does not escape a lone carriage return. -/
def Scanner.EscapesCounted (text : Bytes) (s : Scanner) : Prop :=
  s.streamStarted = true → ∀ e ∈ tokenEscapes text (gapEnd text s.pos), loneCr text e = false

/-- The next token does not escape a break before a document marker. -/
def Scanner.EscapesUnmarked (text : Bytes) (s : Scanner) : Prop :=
  s.streamStarted = true → ∀ e ∈ tokenEscapes text (gapEnd text s.pos),
    markerAt text (breakStop text e) = false

section

variable {text : Bytes} {s s' q : Scanner} {tok : Token} {toks : List Token}

instance : Decidable (s.EscapesCounted text) :=
  inferInstanceAs (Decidable (_ → ∀ e ∈ tokenEscapes _ _, _))

instance : Decidable (s.EscapesUnmarked text) :=
  inferInstanceAs (Decidable (_ → ∀ e ∈ tokenEscapes _ _, _))

/-! ### Marks -/

theorem Gap.accurate {begins : Nat} (gap : Gap text s q) (accurate : s.mark.Accurate text begins) :
    q.mark.Accurate text begins :=
  gap.moves.path.accurate (fun _ => False.elim) accurate

/-- A step keeps the marks accurate. -/
theorem ScanStep.accurate {begins : Nat} (step : ScanStep text s tok s')
    (counted : s.EscapesCounted text) (accurate : s.mark.Accurate text begins) :
    s'.mark.Accurate text begins ∧ tok.start.Accurate text begins ∧
      tok.stop.Accurate text begins := by
  cases step with
  | streamStart _ isTok isNext =>
      subst isTok isNext
      exact ⟨accurate, accurate, accurate⟩
  | atEnd _ gap _ isTok alike =>
      have after := gap.accurate accurate
      subst isTok
      exact ⟨alike.mark ▸ after, after, after⟩
  | token started gap atToken ok =>
      have after := gap.accurate accurate
      obtain ⟨⟨⟨_, isStart, stop, moves⟩, _⟩, _⟩ := scanAtToken_at atToken ok
      have last := moves.path.accurate (gap.stop ▸ counted started) after
      exact ⟨last, isStart ▸ after, stop ▸ last⟩

theorem Scanner.new_accurate (text : Bytes) :
    (Scanner.new text).mark.Accurate text (Scanner.new text).begins :=
  ⟨Nat.le_refl _, Lines.line_first.symm, Lines.column_first.symm⟩

/-- Every mark of a run is accurate, as long as no lone carriage return is escaped. -/
theorem Scanned.marks_accurate (run : Scanned text (·.EscapesCounted text) toks s) :
    ∀ tok ∈ toks, tok.start.Accurate text (Scanner.new text).begins ∧
      tok.stop.Accurate text (Scanner.new text).begins := by
  have whole : s.mark.Accurate text (Scanner.new text).begins ∧
      ∀ tok ∈ toks, tok.start.Accurate text (Scanner.new text).begins ∧
        tok.stop.Accurate text (Scanner.new text).begins := by
    induction run with
    | new => exact ⟨Scanner.new_accurate text, fun _ member => nomatch member⟩
    | token before counted ok ih =>
        obtain ⟨here, earlier⟩ := ih
        obtain ⟨after, marks⟩ := (scanToken_step before.between ok).accurate counted here
        refine ⟨after, fun tok member => ?_⟩
        rcases List.mem_append.mp member with early | last
        · exact earlier tok early
        · rw [List.mem_singleton.mp last]
          exact marks
  exact whole.2

/-- `"a\`, a line feed, `b"`. -/
def escapedLf : Bytes := [dquote, 0x61, backslash, lf, 0x62, dquote]

theorem marks_accurate_escapedLf : ∃ toks s, Scanned escapedLf (·.EscapesCounted escapedLf) toks s ∧
    toks.length = 3 ∧ ∀ tok ∈ toks, tok.start.Accurate escapedLf 0 ∧
      tok.stop.Accurate escapedLf 0 := by
  obtain ⟨toks, s, run, length⟩ := exists_scanned escapedLf (·.EscapesCounted escapedLf) 3
    (fun toks => toks.length = 3) (by decide +kernel)
  exact ⟨toks, s, run, length, run.marks_accurate⟩

/-- `"a\`, a lone carriage return, `b"`. -/
def escapedCr : Bytes := [dquote, 0x61, backslash, cr, 0x62, dquote]

/-- The scalar ends on the second line, and its mark says the first. -/
theorem marks_not_accurate_escapedCr : ∃ toks s, Scanned escapedCr (fun _ => True) toks s ∧
    ∃ tok ∈ toks, ¬tok.stop.Accurate escapedCr (Scanner.new escapedCr).begins := by
  obtain ⟨toks, s, run, tok, member, offset, line⟩ := exists_scanned escapedCr (fun _ => True) 2
    (fun toks => ∃ tok ∈ toks, tok.stop.offset = 6 ∧ tok.stop.line = 1) (by decide +kernel)
  refine ⟨toks, s, run, tok, member, fun accurate => ?_⟩
  have second : Lines.line (breakEnds escapedCr) (Scanner.new escapedCr).begins 6 = 2 := by decide
  rw [← offset, ← accurate.line, line] at second
  cases second

/-! ### Document markers -/

/-- No document marker starts a line in a gap. -/
theorem Gap.unmarked {o : Nat} (gap : Gap text s q) (between : s.Between text)
    (starts : LineStart text o) (later : s.pos ≤ o) (within : o < q.pos) :
    markerAt text o = false := by
  rw [LineStart, ← between.first] at starts
  rcases Nat.lt_or_eq_of_le later with later | here
  · rcases gap.moves.path.enters between.begun later (Nat.le_of_lt within) starts with
      (ready | same) | ⟨_, escaped, _⟩
    · exact ready
    · omega
    · exact escaped.elim
  · subst here
    rcases gap.first with same | ready
    · omega
    · exact ready

/-- No document marker starts a line inside a token. -/
theorem TokenAt.unmarked {o : Nat} (at' : TokenAt text q tok s') (between : q.Between text)
    (escapes : ∀ e ∈ tokenEscapes text q.pos, markerAt text (breakStop text e) = false)
    (starts : LineStart text o) (later : q.pos < o) (within : o < s'.pos) :
    markerAt text o = false := by
  rw [LineStart, ← between.first] at starts
  rcases at'.spans.moves.path.enters between.begun later (Nat.le_of_lt within) starts with
    (ready | same) | ⟨e, escaped, _, isStop⟩
  · exact ready
  · omega
  · rw [isStop]
    exact escapes e escaped

/-- A marker that a token starts at. -/
theorem marker_at_token {o : Nat} (between : q.Between text) (atToken : q.AtToken text)
    (ok : scanAtToken q = .ok tok s') (starts : LineStart text o) (here : q.pos = o)
    (marked : markerAt text o = true) : tok.type = .docStart ∨ tok.type = .docEnd := by
  subst here
  rw [LineStart, ← between.first] at starts
  exact (scanAtToken_at atToken ok).2.2 (between.opens starts) marked

/-- What a step passes: a line that is a document marker is a token of its own. -/
theorem ScanStep.marker {o : Nat} (step : ScanStep text s tok s') (between : s.Between text)
    (unmarked : s.EscapesUnmarked text) (starts : LineStart text o) (later : s.pos ≤ o)
    (within : o < s'.pos) (marked : markerAt text o = true) :
    (tok.type = .docStart ∨ tok.type = .docEnd) ∧ tok.start.offset = o := by
  cases step with
  | streamStart _ _ isNext =>
      subst isNext
      exact absurd within (Nat.not_lt.mpr later)
  | atEnd _ gap _ _ alike =>
      have ready := gap.unmarked between starts later (alike.pos ▸ within)
      rw [marked] at ready
      cases ready
  | @token q started gap atToken ok =>
      have after := gap.between between
      obtain ⟨at', _⟩ := scanAtToken_at atToken ok
      rcases Nat.lt_trichotomy o q.pos with early | here | late
      · have ready := gap.unmarked between starts later early
        rw [marked] at ready
        cases ready
      · refine ⟨marker_at_token after atToken ok starts here.symm marked, ?_⟩
        rw [at'.spans.start, here]
        rfl
      · have ready := at'.unmarked after (gap.stop ▸ unmarked started) starts late within
        rw [marked] at ready
        cases ready

/-- No scalar extends over a line that is a document marker. -/
theorem ScanStep.scalar_unmarked {o : Nat} (step : ScanStep text s tok s')
    (between : s.Between text) (unmarked : s.EscapesUnmarked text) (isScalar : tok.type = .scalar)
    (starts : LineStart text o) (later : tok.start.offset ≤ o) (within : o < tok.stop.offset) :
    markerAt text o = false := by
  cases step with
  | streamStart _ isTok =>
      subst isTok
      cases isScalar
  | atEnd _ _ _ isTok =>
      subst isTok
      exact absurd within (Nat.not_lt.mpr later)
  | @token q started gap atToken ok =>
      have after := gap.between between
      obtain ⟨at', _⟩ := scanAtToken_at atToken ok
      rw [at'.spans.start] at later
      rw [at'.spans.stop] at within
      rcases Nat.lt_or_eq_of_le later with late | here
      · exact at'.unmarked after (gap.stop ▸ unmarked started) starts late within
      · cases marked : markerAt text o with
        | false => rfl
        | true =>
            have type := marker_at_token after atToken ok starts here marked
            rw [isScalar] at type
            rcases type with type | type <;> cases type

/-- The stream ends at the end of its text. -/
theorem ScanStep.streamEnd (step : ScanStep text s tok s') (isEnd : tok.type = .streamEnd) :
    text.length ≤ s'.pos := by
  cases step with
  | streamStart _ isTok =>
      subst isTok
      cases isEnd
  | atEnd _ _ outside _ alike => exact alike.pos ▸ outside
  | token _ _ atToken ok =>
      obtain ⟨⟨⟨inside, _⟩, _⟩, _⟩ := scanAtToken_at atToken ok
      rw [isEnd] at inside
      cases inside

theorem ScanStep.pos_le (step : ScanStep text s tok s') : s.pos ≤ s'.pos := by
  cases step with
  | streamStart _ _ isNext =>
      subst isNext
      exact Nat.le_refl _
  | atEnd _ gap _ _ alike => exact alike.pos ▸ gap.moves.pos_le
  | token _ gap atToken ok =>
      obtain ⟨at', _⟩ := scanAtToken_at atToken ok
      exact Nat.le_trans gap.moves.pos_le at'.spans.moves.pos_le

/-- The document markers that a run has passed. -/
theorem Scanned.markers (run : Scanned text (·.EscapesUnmarked text) toks s) :
    (∀ o, LineStart text o → o < s.pos → markerAt text o = true →
      ∃ tok ∈ toks, (tok.type = .docStart ∨ tok.type = .docEnd) ∧ tok.start.offset = o) ∧
    ((∃ tok ∈ toks, tok.type = .streamEnd) → text.length ≤ s.pos) := by
  induction run with
  | new =>
      refine ⟨fun o starts within _ => ?_, fun ⟨_, member, _⟩ => nomatch member⟩
      -- no line starts before the text
      rcases starts with first | ⟨later, _⟩
      · exact absurd within (Nat.not_lt.mpr (Nat.le_of_eq first.symm))
      · exact absurd within (Nat.not_lt.mpr (Nat.le_of_lt later))
  | @token toks s s' tok before unmarked ok ih =>
      have step := scanToken_step before.between ok
      constructor
      · intro o starts within marked
        by_cases passed : o < s.pos
        · obtain ⟨tok', member, isMarker⟩ := ih.1 o starts passed marked
          exact ⟨tok', List.mem_append_left _ member, isMarker⟩
        · have here := step.marker before.between unmarked starts
              (Nat.not_lt.mp passed) within marked
          exact ⟨tok, List.mem_append_right _ (List.mem_singleton.mpr rfl), here⟩
      · rintro ⟨tok', member, isEnd⟩
        rcases List.mem_append.mp member with early | last
        · exact Nat.le_trans (ih.2 ⟨tok', early, isEnd⟩) step.pos_le
        · rw [List.mem_singleton.mp last] at isEnd
          exact step.streamEnd isEnd

theorem lt_length_of_markerAt {o : Nat} (marked : markerAt text o = true) : o < text.length := by
  by_contra outside
  have ready : Oyl.unmarked text o := unmarked_outside (Nat.not_lt.mp outside)
  rw [Oyl.unmarked, marked] at ready
  cases ready

/-- Every document marker of a text is a token, and no scalar extends over one, as
long as no break before a marker is escaped. -/
theorem Scanned.markers_are_tokens (run : Scanned text (·.EscapesUnmarked text) toks s) :
    ((∃ tok ∈ toks, tok.type = .streamEnd) → ∀ o, LineStart text o → markerAt text o = true →
      ∃ tok ∈ toks, (tok.type = .docStart ∨ tok.type = .docEnd) ∧ tok.start.offset = o) ∧
    ∀ tok ∈ toks, tok.type = .scalar → ∀ o, LineStart text o → markerAt text o = true →
      ¬(tok.start.offset ≤ o ∧ o < tok.stop.offset) := by
  constructor
  · intro ended o starts marked
    have passed := Nat.lt_of_lt_of_le (lt_length_of_markerAt marked) (run.markers.2 ended)
    exact run.markers.1 o starts passed marked
  · induction run with
    | new => exact fun _ member => nomatch member
    | token before unmarked ok ih =>
        intro tok member isScalar o starts marked extends'
        rcases List.mem_append.mp member with early | last
        · exact ih tok early isScalar o starts marked extends'
        · have isLast := List.mem_singleton.mp last
          subst isLast
          have ready := (scanToken_step before.between ok).scalar_unmarked before.between unmarked
            isScalar starts extends'.1 extends'.2
          rw [marked] at ready
          cases ready

end

/-- `--- a` and a line with `...`. -/
def markedText : Bytes := [dash, dash, dash, space, 0x61, lf, dot, dot, dot, lf]

theorem markers_are_tokens_markedText :
    ∃ toks s, Scanned markedText (·.EscapesUnmarked markedText) toks s ∧
      ∃ tok ∈ toks, (tok.type = .docStart ∨ tok.type = .docEnd) ∧ tok.start.offset = 6 := by
  obtain ⟨toks, s, run, ended⟩ := exists_scanned markedText (·.EscapesUnmarked markedText) 5
    (fun toks => ∃ tok ∈ toks, tok.type = .streamEnd) (by decide +kernel)
  exact ⟨toks, s, run, run.markers_are_tokens.1 ended 6 (.inr ⟨by decide, rfl⟩) rfl⟩

/-- `"a\`, a line feed, `--- b"`. -/
def escapedMarker : Bytes :=
  [dquote, 0x61, backslash, lf, dash, dash, dash, space, 0x62, dquote]

/-- The second line is a document marker inside a scalar, and no token. -/
theorem markers_not_tokens_escapedMarker :
    ∃ toks s, Scanned escapedMarker (fun _ => True) toks s ∧
      (∃ tok ∈ toks, tok.type = .streamEnd) ∧
      LineStart escapedMarker 4 ∧ markerAt escapedMarker 4 = true ∧
      (∀ tok ∈ toks, tok.start.offset ≠ 4) ∧
      ∃ tok ∈ toks, tok.type = .scalar ∧ tok.start.offset ≤ 4 ∧ 4 < tok.stop.offset := by
  obtain ⟨toks, s, run, ended, hidden, extends'⟩ := exists_scanned escapedMarker (fun _ => True) 3
    (fun toks => (∃ tok ∈ toks, tok.type = .streamEnd) ∧ (∀ tok ∈ toks, tok.start.offset ≠ 4) ∧
      ∃ tok ∈ toks, tok.type = .scalar ∧ tok.start.offset ≤ 4 ∧ 4 < tok.stop.offset)
    (by decide +kernel)
  exact ⟨toks, s, run, ended, .inr ⟨by decide, rfl⟩, rfl, hidden, extends'⟩

end Oyl
