import Oyl.Emitter.Literal
import Oyl.Tokens.PlainScalar

/-!
# Plain scalars are read back

The writer leaves a scalar plain only if no byte of it can end the scalar, start a comment
or be taken for an indicator.  Of such a text every byte is copied, up to what follows it.
-/

namespace Oyl

open StateError

/-! ### What the writer asks for -/

/-- A text that may be written plain. -/
structure PlainSafe (flowCtx : Bool) (value : Bytes) : Prop where
  notEmpty : value ≠ []
  escapes : needsEscape value = false
  quoting : needsQuoting value flowCtx = false

/-- A byte of such a text, before the bytes `after`. -/
structure SafeByte (flowCtx : Bool) (c : UInt8) (after : Bytes) : Prop where
  notNul : c ≠ 0
  notBreak : isBreak c = false
  notControl : isBlank c = false → isControl c = false
  colon : c = colon → ∃ d rest, after = d :: rest ∧ isBlank d = false
  blank : isBlank c = true → ∃ d rest, after = d :: rest ∧ d ≠ hash
  flow : flowCtx = true → isFlow c = false

section

variable {text value before after tail out : Bytes} {flowCtx isKey : Bool} {tag : Option Bytes}
  {requested : ScalarStyle} {s t : Scanner} {c : UInt8}

theorem unsafeBytes_append (safe : unsafeBytes flowCtx (before ++ after) = false) :
    unsafeBytes flowCtx after = false := by
  induction before with
  | nil => exact safe
  | cons c before ih =>
      rw [List.cons_append, unsafeBytes, Bool.or_eq_false_iff] at safe
      exact ih safe.2

/-- What `needs_quoting` looks at. -/
theorem PlainSafe.tests (safe : PlainSafe flowCtx value) :
    unsafeBytes flowCtx value = false ∧ ∀ first rest, value = first :: rest →
      unsafeFirst flowCtx first rest = false ∧ isBlank first = false ∧
        (value.take 3 == [0xEF, 0xBB, 0xBF]) = false ∧
        (value.take 3 == [dash, dash, dash]) = false ∧ (value.take 3 == [dot, dot, dot]) =
          false := by
  have quoting := safe.quoting
  cases value with
  | nil => exact absurd rfl safe.notEmpty
  | cons first rest =>
      rw [needsQuoting] at quoting
      simp only [Bool.or_eq_false_iff] at quoting
      obtain ⟨⟨⟨⟨⟨notFirst, notBlank⟩, notBom⟩, notStart⟩, notEnd⟩, bytes⟩ := quoting
      refine ⟨bytes, ?_⟩
      rintro _ _ ⟨⟩
      exact ⟨notFirst, notBlank, notBom, notStart, notEnd⟩

theorem PlainSafe.byte (safe : PlainSafe flowCtx value) (isValue : value = before ++ c :: after) :
    SafeByte flowCtx c after := by
  have bytes := unsafeBytes_append (isValue ▸ safe.tests.1)
  have escapes := safe.escapes
  rw [needsEscape, List.any_eq_false] at escapes
  have escape := escapes c (isValue ▸ List.mem_append_right _ List.mem_cons_self)
  rw [unsafeBytes] at bytes
  simp only [Bool.or_eq_false_iff] at bytes
  obtain ⟨⟨⟨⟨⟨notColon, notComment⟩, notBreak⟩, notFlow⟩, notLast⟩, _⟩ := bytes
  constructor
  · rintro rfl
    exact escape rfl
  · exact notBreak
  · intro notBlank
    rw [isBlank, Bool.or_eq_false_iff] at notBlank
    rw [bne, notBlank.2, Bool.not_false, Bool.and_true] at escape
    exact Bool.eq_false_iff.mpr escape
  · intro isColon
    rw [isColon, beq_self_eq_true, Bool.true_and] at notColon
    cases after with
    | nil => cases notColon
    | cons d rest =>
        refine ⟨d, rest, rfl, ?_⟩
        simpa [isBlank] using notColon
  · intro blank
    rw [blank, Bool.true_and] at notComment notLast
    cases after with
    | nil => cases notLast
    | cons d rest => exact ⟨d, rest, rfl, by simpa using notComment⟩
  · intro inFlow
    rw [inFlow, Bool.true_and] at notFlow
    exact notFlow

/-- The first byte of such a text starts nothing else. -/
theorem PlainSafe.first (safe : PlainSafe flowCtx value) (isValue : value = c :: after) :
    isBlank c = false ∧ (isIndicator c = true → (c = dash ∨ c = question ∨ c = colon) ∧
      ∃ d rest, after = d :: rest ∧ isBlankOrBreak d = false ∧
        (flowCtx = true → isFlow d = false)) := by
  obtain ⟨notFirst, notBlank, _⟩ := safe.tests.2 c after isValue
  refine ⟨notBlank, fun indicator => ?_⟩
  rw [unsafeFirst, indicator, Bool.true_and, Bool.or_eq_false_iff, Bool.not_eq_false',
    Bool.or_eq_true, Bool.or_eq_true, beq_iff_eq, beq_iff_eq, beq_iff_eq, or_assoc] at notFirst
  refine ⟨notFirst.1, ?_⟩
  cases after with
  | nil => cases notFirst.2
  | cons d rest =>
      have next := notFirst.2
      rw [List.head?_cons, Option.all_some, Bool.or_eq_false_iff] at next
      refine ⟨d, rest, rfl, next.1, fun inFlow => ?_⟩
      rw [inFlow, Bool.true_and] at next
      exact next.2

theorem PlainSafe.last (safe : PlainSafe flowCtx value) : trimBlanks value = value := by
  rcases List.eq_nil_or_concat value with none | ⟨before, c, isValue⟩
  · exact absurd none safe.notEmpty
  · rw [List.concat_eq_append] at isValue
    have byte := safe.byte isValue
    rw [isValue]
    apply trimBlanks_content
    rw [Bool.eq_false_iff]
    intro blank
    obtain ⟨_, _, impossible, _⟩ := byte.blank blank
    cases impossible

/-! ### The loop -/

/-- The loop of `scan_plain_scalar` ends here. -/
def StopsPlain (t : Scanner) : Prop :=
  ∀ (again : Bytes → ScanM Bytes) (out : Bytes), plainRound again out t = .ok out t

/-- A comment sign in the text follows something that is no blank. -/
theorem PlainSafe.comment (safe : PlainSafe flowCtx value)
    (isValue : value = out ++ hash :: after) :
    out ≠ [] ∧ out.getLast?.any isBlank = false := by
  rcases List.eq_nil_or_concat out with none | ⟨before, c, isOut⟩
  · rw [none] at isValue
    have start := (safe.first isValue).2 rfl
    rcases start.1 with impossible | impossible | impossible <;> cases impossible
  · rw [List.concat_eq_append] at isOut
    rw [isOut, List.append_assoc, List.singleton_append] at isValue
    rw [isOut, List.getLast?_concat, Option.any_some]
    refine ⟨List.append_ne_nil_of_right_ne_nil _ (List.cons_ne_nil c []), ?_⟩
    rw [Bool.eq_false_iff]
    intro blank
    obtain ⟨d, rest, isAfter, notHash⟩ := (safe.byte isValue).blank blank
    cases isAfter
    exact notHash rfl

/-- What follows a plain scalar: the end, a line that is not of the block, the `:` after a
key, or the flow indicator after an entry. -/
inductive FollowsPlain (flowLevel : Nat) (indent : Int) : Bytes → Prop
  | ended : FollowsPlain flowLevel indent []
  | line {after : Bytes} : flowLevel = 0 → FollowsBlock indent after →
      FollowsPlain flowLevel indent (lf :: after)
  | value {after : Bytes} : after.head?.all isBlankOrBreak = true →
      FollowsPlain flowLevel indent (colon :: after)
  | entry {c : UInt8} {after : Bytes} : flowLevel > 0 → c = comma ∨ c = rbracket ∨ c = rbrace →
      FollowsPlain flowLevel indent (c :: after)

/-- The first byte after a plain scalar. -/
theorem FollowsPlain.head {flowLevel : Nat} {indent : Int}
    (follows : FollowsPlain flowLevel indent tail) :
    ∀ c ∈ tail.head?, c ∈ [lf, colon, comma, rbracket, rbrace] := by
  rintro c isHead
  cases follows with
  | ended => cases isHead
  | line _ _ =>
      cases isHead
      decide
  | value _ =>
      cases isHead
      decide
  | entry _ known =>
      cases isHead
      rcases known with rfl | rfl | rfl <;> decide

theorem FollowsPlain.ends {flowLevel : Nat} {indent : Int}
    (follows : FollowsPlain flowLevel indent tail) : tail.head?.all endsPlainRun = true := by
  cases follows with
  | ended => rfl
  | line _ _ => rfl
  | value _ => rfl
  | entry _ known => rcases known with rfl | rfl | rfl <;> rfl

/-- A line that is indented by no more than the block, after one break. -/
theorem skipBreakLines_line {depth : Nat} (reads : t.Reads text)
    (isRest : t.rest = lf :: (List.replicate depth space ++ c :: after))
    (other : isBlankOrBreak c = false) :
    ∃ next : Scanner, t.skipBreakLines t.remaining 0 = (next, 1) ∧ next.Reads text ∧
      next.rest = c :: after ∧ next.col = 1 + depth ∧ next.indent = t.indent := by
  obtain ⟨inside, isByte, isMore⟩ := peek_of_rest reads isRest
  rw [isBlankOrBreak, Bool.or_eq_false_iff] at other
  have isBr : isBreak t.peek = true := isByte ▸ rfl
  have isStop : breakStop text t.pos = t.pos + 1 := by
    rw [breakStop, ← reads.peek_eq, isByte]
    rfl
  have crossed := Moves.skipBreak_eq reads (reads.peek_eq ▸ isBr)
  have reads1 : t.skipBreak.Reads text := by
    rw [crossed, isStop]
    exact reads.of_same rfl rfl inside
  have isRest1 : t.skipBreak.rest = List.replicate depth space ++ c :: after := by
    rw [reads1.rest_eq, crossed, isStop]
    exact isMore
  have size : skipBlanks t.skipBreak.rest = depth := by
    rw [isRest1, skipBlanks, runLength_run, List.length_replicate]
    · intro d member
      rw [List.eq_of_mem_replicate member]
      rfl
    · rintro d ⟨⟩
      exact other.1
  have within : t.skipBreak.pos + depth ≤ text.length := size ▸ reads1.run_within isBlank
  have reads2 := reads1.advanceCols within
  have isRest2 : (t.skipBreak.advanceCols depth).rest = c :: after := by
    rw [Scanner.rest_advanceCols, isRest1]
    exact List.drop_left' List.length_replicate
  obtain ⟨inside2, isByte2, _⟩ := peek_of_rest reads2 isRest2
  have open1 : t.atEnd = false := by
    rw [Bool.eq_false_iff, ne_eq, reads.atEnd_iff, Nat.not_le]
    exact inside
  have open2 : (t.skipBreak.advanceCols depth).atEnd = false := by
    rw [Bool.eq_false_iff, ne_eq, reads2.atEnd_iff, Nat.not_le]
    exact inside2
  refine ⟨t.skipBreak.advanceCols depth, ?_, reads2, isRest2, ?_, ?_⟩
  · rw [remaining_eq reads, isRest, List.length_cons, Scanner.skipBreakLines, open1, isBr,
      if_neg (by decide)]
    dsimp only
    rw [size, open2, isByte2, other.2]
    rfl
  · rw [crossed]
    rfl
  · rw [crossed]
    rfl

/-- The end of the text, after one break. -/
theorem skipBreakLines_end (reads : t.Reads text) (isRest : t.rest = [lf]) :
    ∃ next count, t.skipBreakLines t.remaining 0 = (next, count) ∧
      (next.atEnd || next.plainLineEnds) = true := by
  obtain ⟨inside, isByte, isMore⟩ := peek_of_rest reads isRest
  have isBr : isBreak t.peek = true := isByte ▸ rfl
  have open' : t.atEnd = false := by
    rw [Bool.eq_false_iff, ne_eq, reads.atEnd_iff, Nat.not_le]
    exact inside
  have isStop : breakStop text t.pos = t.pos + 1 := by
    rw [breakStop, ← reads.peek_eq, isByte]
    rfl
  have crossed := Moves.skipBreak_eq reads (reads.peek_eq ▸ isBr)
  have reads' : t.skipBreak.Reads text := by
    rw [crossed, isStop]
    exact reads.of_same rfl rfl inside
  have atEnd : t.skipBreak.atEnd = true := by
    rw [reads'.atEnd_iff, crossed, isStop]
    exact List.drop_eq_nil_iff.mp isMore
  have none : skipBlanks t.skipBreak.rest = 0 := by
    rw [reads'.rest_eq, List.drop_eq_nil_of_le (reads'.atEnd_iff.mp atEnd)]
    rfl
  refine ⟨t.skipBreak.advanceCols 0, 1, ?_, ?_⟩
  · rw [remaining_eq reads, isRest, List.length_singleton, Scanner.skipBreakLines, open', isBr,
      if_neg (by decide)]
    dsimp only
    rw [none]
    split <;> rfl
  · change (t.skipBreak.atEnd || _) = true
    rw [atEnd]
    rfl

/-- A marker starts with a dash or a dot. -/
theorem isMarkerLine_start (isMarker : isMarkerLine (firstLine tail) = true) :
    ∃ c more, tail = c :: more ∧ isBlankOrBreak c = false := by
  cases tail with
  | nil => cases isMarker
  | cons c more =>
      refine ⟨c, more, rfl, ?_⟩
      rw [firstLine, scanToBreak, runLength] at isMarker
      cases isBr : isBreak c with
      | true =>
          rw [isBr] at isMarker
          cases isMarker
      | false =>
          rw [isBr, Bool.not_false, if_pos rfl, List.take_succ_cons] at isMarker
          generalize more.take _ = line at isMarker
          rcases line with _ | ⟨d, _ | ⟨e, line⟩⟩
          · cases isMarker
          · cases isMarker
          simp only [isMarkerLine, Bool.and_eq_true, Bool.or_eq_true, beq_iff_eq] at isMarker
          rcases isMarker.1.1.1 with rfl | rfl <;> rfl

theorem stops_line (reads : t.Reads text)
    (follows : FollowsBlock t.indent after) (isRest : t.rest = lf :: after) : StopsPlain t := by
  intro again out
  obtain ⟨inside, isByte, isMore⟩ := peek_of_rest reads isRest
  have open' : t.atEnd = false := by
    rw [Bool.eq_false_iff, ne_eq, reads.atEnd_iff, Nat.not_le]
    exact inside
  have ended : ∃ next count, t.skipBreakLines t.remaining 0 = (next, count) ∧
      (next.atEnd || next.plainLineEnds) = true := by
    rcases follows with none | isMarker | ⟨depth, c, more, isLine, shallow, other⟩
    · rw [none] at isRest
      exact skipBreakLines_end reads isRest
    · obtain ⟨c, more, isAfter, notGap⟩ := isMarkerLine_start isMarker
      have isRest1 : t.rest = lf :: (List.replicate 0 space ++ c :: more) := by
        rw [isRest, isAfter]
        rfl
      obtain ⟨next, skipped, reads', isRest', col, _⟩ := skipBreakLines_line reads isRest1 notGap
      refine ⟨next, 1, skipped, ?_⟩
      rw [Bool.or_eq_true]
      right
      rw [isAfter, ← isRest', reads'.rest_eq, ← markerAt_line] at isMarker
      cases goesOn : next.plainLineEnds with
      | true => rfl
      | false =>
          have unmarked := plainLineEnds_marker reads' col goesOn
          cases isMarker.symm.trans unmarked
    · rw [isLine] at isRest
      obtain ⟨next, skipped, _, _, col, sameIndent⟩ := skipBreakLines_line reads isRest other
      refine ⟨next, 1, skipped, ?_⟩
      have column : next.column = depth := by
        rw [Scanner.column, col]
        omega
      have below : next.column < (if next.indent + 1 < 0 then 0 else next.indent + 1) := by
        rw [column, sameIndent]
        split <;> omega
      rw [Scanner.plainLineEnds, decide_eq_true below]
      exact Bool.or_true _
  obtain ⟨next, count, skipped, ended⟩ := ended
  have notFlow : (decide (t.flowLevel > 0) && isFlow lf) = false := Bool.and_false _
  rw [plainRound, get_bind_eq, open', if_neg Bool.false_ne_true, isByte, if_neg (by decide),
    if_neg (by decide), notFlow, if_neg Bool.false_ne_true, if_neg (by decide), if_pos (by decide),
    skipped]
  dsimp only
  rw [ended, if_pos rfl]
  rfl

theorem FollowsPlain.stops (reads : t.Reads text)
    (follows : FollowsPlain t.flowLevel t.indent tail) (isRest : t.rest = tail) : StopsPlain t := by
  cases follows with
  | ended =>
      intro again out
      have atEnd : t.atEnd = true := by
        rw [reads.atEnd_iff]
        rw [reads.rest_eq] at isRest
        exact List.drop_eq_nil_iff.mp isRest
      rw [plainRound, get_bind_eq, atEnd, if_pos rfl]
      rfl
  | line _ follows => exact stops_line reads follows isRest
  | value gap =>
      intro again out
      obtain ⟨inside, isByte, isMore⟩ := peek_of_rest reads isRest
      have open' : t.atEnd = false := by
        rw [Bool.eq_false_iff, ne_eq, reads.atEnd_iff, Nat.not_le]
        exact inside
      have stops : (isBlankOrBreak (t.peekAt 1) || t.peekAt 1 == 0) = true := by
        cases isAfter : text.drop (t.pos + 1) with
        | nil =>
            rw [reads.peekAt_eq, byteAt_outside (List.drop_eq_nil_iff.mp isAfter)]
            rfl
        | cons c more =>
            rw [← isMore, isAfter] at gap
            rw [reads.peekAt_eq, (drop_cons isAfter).2.1]
            exact Bool.or_eq_true_iff.mpr (.inl gap)
      rw [plainRound, get_bind_eq, open', if_neg Bool.false_ne_true, isByte,
        if_pos (beq_self_eq_true colon), bne, ← Bool.not_or, stops]
      rfl
  | entry inFlow known =>
      intro again out
      obtain ⟨inside, isByte, isMore⟩ := peek_of_rest reads isRest
      have open' : t.atEnd = false := by
        rw [Bool.eq_false_iff, ne_eq, reads.atEnd_iff, Nat.not_le]
        exact inside
      rw [plainRound, get_bind_eq, open', if_neg Bool.false_ne_true, isByte, decide_eq_true inFlow]
      rcases known with rfl | rfl | rfl <;> rfl

/-! ### The dispatch -/

/-- What follows the text does not complete a marker that it starts. -/
theorem take_written {mark : Bytes} {n : Nat} (others : ∀ c ∈ tail.head?, c ∉ mark)
    (same : (value ++ tail).take n = mark) : value.take n = mark := by
  rw [List.take_append] at same
  cases isMore : tail.take (n - value.length) with
  | nil => rw [← same, isMore, List.append_nil]
  | cons c more =>
      have isHead : c ∈ tail.head? := by
        have head := congrArg List.head? isMore
        rw [List.head?_take] at head
        split at head
        · cases head
        · exact head
      refine absurd ?_ (others c isHead)
      rw [← same, isMore]
      exact List.mem_append_right _ List.mem_cons_self

/-- Such a text is no document marker. -/
theorem PlainSafe.unmarked (safe : PlainSafe flowCtx value) (reads : s.Reads text)
    (isRest : s.rest = value ++ tail) {d : UInt8} (known : d = dash ∨ d = dot)
    (others : tail.head? ≠ some d) : s.atDocIndicator d = false := by
  rw [Bool.eq_false_iff]
  intro marked
  have notNul : d ≠ 0 := by rcases known with rfl | rfl <;> decide
  obtain ⟨_, first, second, third, _⟩ := (atDocIndicator_iff reads notNul).mp marked
  have same : (value ++ tail).take 3 = [d, d, d] := by
    have inside : s.pos + 2 < text.length := by
      by_contra outside
      exact notNul (third.symm.trans (byteAt_outside (Nat.not_lt.mp outside)))
    rw [← isRest, reads.rest_eq, drop_eq_cons (by omega), drop_eq_cons (by omega),
      drop_eq_cons inside, first, second, third]
    rfl
  have taken := take_written (fun c isHead member => by
    simp only [List.mem_cons, List.not_mem_nil, or_false, or_self] at member
    exact others (member ▸ isHead)) same
  cases value with
  | nil => exact safe.notEmpty rfl
  | cons c after =>
      obtain ⟨_, _, _, notStart, notEnd⟩ := safe.tests.2 c after rfl
      rcases known with rfl | rfl
      · rw [taken] at notStart
        cases notStart
      · rw [taken] at notEnd
        cases notEnd

/-- The first byte of the text, and the byte after a `-`, `?` or `:`. -/
structure StartsPlain (s : Scanner) : Prop where
  blank : isBlank s.peek = false
  other : ∀ d, isIndicator d = true → d ≠ dash → d ≠ question → d ≠ colon → (s.peek == d) = false
  next : isIndicator s.peek = true →
    (isBlankOrBreak (s.peekAt 1) || s.peekAt 1 == 0) = false ∧
      (s.flowLevel > 0 → isFlow (s.peekAt 1) = false)

theorem PlainSafe.starts (safe : PlainSafe flowCtx value) (reads : s.Reads text)
    (level : s.flowLevel > 0 → flowCtx = true) (isRest : s.rest = value ++ tail) :
    StartsPlain s := by
  cases value with
  | nil => exact absurd rfl safe.notEmpty
  | cons c after =>
      obtain ⟨notBlank, start⟩ := safe.first rfl
      obtain ⟨inside, isByte, isMore⟩ := peek_of_rest reads isRest
      constructor
      · exact isByte ▸ notBlank
      · intro d indicator notDash notQuestion notColon
        rw [isByte]
        apply beq_false_of_ne
        rintro rfl
        rcases (start indicator).1 with same | same | same
        · exact notDash same
        · exact notQuestion same
        · exact notColon same
      · intro indicator
        obtain ⟨_, d, rest, isAfter, notGap, notFlow⟩ := start (isByte ▸ indicator)
        have isText : c :: after = [c] ++ d :: rest := by
          rw [isAfter]
          rfl
        have next := safe.byte isText
        have isNext : s.peekAt 1 = d := by
          rw [isAfter] at isMore
          exact (reads.peekAt_eq 1).trans (drop_cons isMore).2.1
        rw [isNext, notGap, beq_false_of_ne next.notNul]
        exact ⟨rfl, fun inFlow => notFlow (level inFlow)⟩

end

end Oyl
