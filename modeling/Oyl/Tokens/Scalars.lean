import Oyl.Tokens.Cursor

/-!
# The paths of scalars and names

Plain and quoted scalars, tags, anchors and aliases: where the scanner ends up,
and which lines it enters on the way.
-/

namespace Oyl

open StateError

section

variable {text : Bytes} {escapes : Nat → Prop} {s s' : Scanner}

theorem scanError_ok {α : Type} {msg : String} {a : α} (ok : scanError msg s = .ok a s') :
    False := by
  cases ok

theorem isBreak_of_endsPlainRun {c : UInt8} (plain : (!endsPlainRun c) = true) :
    isBreak c = false := by
  cases isBr : isBreak c with
  | false => rfl
  | true =>
      simp only [isBreak, Bool.or_eq_true, beq_iff_eq] at isBr
      rcases isBr with rfl | rfl <;> cases plain

/-- A line that a plain scalar goes on to is no document marker. -/
theorem plainLineEnds_marker (reads : s.Reads text) (atStart : s.col = 1)
    (goesOn : s.plainLineEnds = false) : unmarked text s.pos := by
  unfold Scanner.plainLineEnds at goesOn
  simp only [Bool.or_eq_false_iff] at goesOn
  have check := goesOn.2
  rw [atStart, reads.peek_eq, reads.peekAt_eq, reads.peekAt_eq, reads.peekAt_eq,
    Scanner.remaining, reads.len] at check
  by_contra marked
  have isMarker : markerAt text s.pos = true := by
    cases found : markerAt text s.pos with
    | true => rfl
    | false => exact absurd found marked
  simp only [markerAt, Bool.and_eq_true, Bool.or_eq_true, beq_iff_eq] at isMarker
  obtain ⟨⟨⟨kind, second⟩, third⟩, ending⟩ := isMarker
  have inside : s.pos + 2 < text.length := by
    by_contra outside
    rw [byteAt_outside (by omega)] at third
    rcases kind with isDash | isDot
    · rw [isDash] at third
      cases third
    · rw [isDot] at third
      cases third
  have long : 3 ≤ text.length - s.pos := by omega
  have ends : (text.length - s.pos == 3 || isBlankOrBreak (byteAt text (s.pos + 3))) = true := by
    rcases ending with last | gap
    · simp [show text.length - s.pos = 3 by omega]
    · simp [gap]
  rw [second, third, ends] at check
  rcases kind with isDash | isDot
  · rw [isDash] at check
    simp [long] at check
  · rw [isDot] at check
    simp [long] at check

/-- A round of the loop of `scan_plain_scalar`, after the run of plain bytes. -/
theorem plainLoop_step {fuel : Nat} {out value : Bytes}
    (again : ∀ {q : Scanner} {out : Bytes}, q.Reads text → plainLoop fuel out q = .ok value s' →
      Moves text (unmarked text) escapes q s')
    (reads : (s.advanceCols (plainRun s.rest)).Reads text)
    (ok : plainLoop (fuel + 1) out s = .ok value s') :
    Moves text (unmarked text) escapes (s.advanceCols (plainRun s.rest)) s' := by
  rw [plainLoop, get_bind_eq] at ok
  dsimp only at ok
  obtain ⟨_, q, stored, rest⟩ := bind_eq_ok ok
  cases stored
  generalize s.advanceCols (plainRun s.rest) = q at *
  have one (plain : isBreak q.peek = false) {out : Bytes}
      (ok : (do set (q.advance 1); plainLoop fuel out) q = .ok value s') :
      Moves text (unmarked text) escapes q s' := by
    have next : Moves text (unmarked text) escapes q (q.advance 1) := .advance reads plain
    exact next.trans (again next.reads ok)
  have stop {out : Bytes} (ok : (pure out : ScanM Bytes) q = .ok value s') :
      Moves text (unmarked text) escapes q s' := by
    cases ok
    exact .refl reads
  split at rest
  · exact stop rest
  split at rest
  · rename_i isColon
    split at rest
    · exact one (by rw [beq_iff_eq.mp isColon]; rfl) rest
    · exact stop rest
  split at rest
  · rename_i isHash
    split at rest
    · exact stop rest
    split at rest
    · exact stop rest
    · exact one (by rw [beq_iff_eq.mp isHash]; rfl) rest
  split at rest
  · exact stop rest
  split at rest
  · -- blanks
    have next : Moves text (unmarked text) escapes q (q.advanceCols (skipBlanks q.rest)) :=
      skipBlanks_moves reads
    obtain ⟨_, q', stored, more⟩ := bind_eq_ok rest
    cases stored
    generalize q.advanceCols (skipBlanks q.rest) = q' at *
    split at more
    · cases more
      exact next
    split at more
    · exact next.trans (again next.reads more)
    · exact next.trans (again next.reads more)
  split at rest
  · -- a break: the lines after it, unless they end the scalar
    have lines (clear : (q.skipBreakLines q.remaining 0).1.col = 1 →
        unmarked text (q.skipBreakLines q.remaining 0).1.pos) :
        Moves text (unmarked text) escapes q (q.skipBreakLines q.remaining 0).1 :=
      skipBreakLines_moves reads clear
    have reads' := (skipBreakLines_loop escapes q.remaining reads 0).reads
    generalize q.skipBreakLines q.remaining 0 = found at lines reads' rest
    obtain ⟨next, breakCount⟩ := found
    dsimp only at lines reads' rest
    split at rest
    · exact stop rest
    rename_i goesOn
    simp only [Bool.or_eq_true, not_or, Bool.not_eq_true] at goesOn
    have crossed := lines fun atStart => plainLineEnds_marker reads' atStart goesOn.2
    obtain ⟨_, q', stored, more⟩ := bind_eq_ok rest
    cases stored
    exact crossed.trans (again crossed.reads more)
  split at rest
  · exact (scanError_ok rest).elim
  · rename_i notBreak _
    exact one (Bool.eq_false_iff.mpr notBreak) rest

theorem plainRun_moves {lands : Nat → Prop} (reads : s.Reads text) :
    Moves text lands escapes s (s.advanceCols (plainRun s.rest)) :=
  .run reads fun _ => isBreak_of_endsPlainRun

/-- The loop of `scan_plain_scalar`. -/
theorem plainLoop_moves {fuel : Nat} {out value : Bytes} (reads : s.Reads text)
    (ok : plainLoop fuel out s = .ok value s') : Moves text (unmarked text) escapes s s' := by
  induction fuel generalizing s out with
  | zero =>
      cases ok
      exact .refl reads
  | succ fuel ih =>
      have run : Moves text (unmarked text) escapes s _ := plainRun_moves reads
      exact run.trans (plainLoop_step ih run.reads ok)

/-- A token between those that start and end the stream. -/
def TokenType.inside : TokenType → Bool
  | .none | .streamStart | .streamEnd => false
  | _ => true

/-- A token from a mark to the cursor. -/
structure Spans (text : Bytes) (escapes : Nat → Prop) (start : Mark) (s : Scanner) (tok : Token)
    (s' : Scanner) : Prop where
  type : tok.type.inside = true
  start : tok.start = start
  stop : tok.stop = s'.mark
  moves : Moves text (unmarked text) escapes s s'

theorem Spans.after {start : Mark} {q : Scanner} {tok : Token}
    (first : Moves text (unmarked text) escapes s q) (spans : Spans text escapes start q tok s') :
    Spans text escapes start s tok s' :=
  ⟨spans.type, spans.start, spans.stop, first.trans spans.moves⟩

/-- The first byte is passed on its own. -/
theorem Moves.past_first {lands : Nat → Prop} (moves : Moves text lands escapes (s.advance 1) s')
    (reads : s.Reads text) (notNul : s.peek ≠ 0) : s.pos < s'.pos := by
  have inside : s.pos < text.length := by
    by_contra outside
    rw [reads.peek_eq, byteAt_outside (Nat.not_lt.mp outside)] at notNul
    exact notNul rfl
  rw [← Nat.add_one_le_iff, ← Moves.advance_pos reads inside]
  exact moves.pos_le

theorem Spans.after_first {start : Mark} {tok : Token} (reads : s.Reads text)
    (plain : isBreak s.peek = false) (notNul : s.peek ≠ 0)
    (spans : Spans text escapes start (s.advance 1) tok s') :
    Spans text escapes start s tok s' ∧ s.pos < s'.pos :=
  ⟨spans.after (.advance reads plain), spans.moves.past_first reads notNul⟩

theorem scanPlainScalar_spans {tok : Token} (reads : s.Reads text)
    (ok : scanPlainScalar s = .ok tok s') : Spans text escapes s.mark s tok s' := by
  rw [scanPlainScalar, get_bind_eq, get_bind_eq] at ok
  obtain ⟨out, q, looped, rest⟩ := bind_eq_ok ok
  rw [get_bind_eq] at rest
  obtain ⟨_, q', stored, last⟩ := bind_eq_ok rest
  cases stored
  cases last
  have moves : Moves text (unmarked text) escapes s q := plainLoop_moves reads looped
  exact ⟨rfl, rfl, rfl, moves.trans (.keep moves.reads rfl rfl rfl rfl)⟩

/-- A plain scalar that starts at the cursor has a first byte. -/
structure Scanner.StartsPlain (text : Bytes) (s : Scanner) : Prop where
  inside : s.pos < text.length
  notGap : isBlankOrBreak s.peek = false
  notHash : s.peek ≠ hash
  notFlow : s.flowLevel > 0 → isFlow s.peek = false
  notValue : s.peek = colon → isBlankOrBreak (s.peekAt 1) = false ∧ s.peekAt 1 ≠ 0 ∧
    (s.flowLevel > 0 → isFlow (s.peekAt 1) = false)

theorem plainLoop_progress {fuel : Nat} {out value : Bytes} (reads : s.Reads text)
    (starts : s.StartsPlain text) (ok : plainLoop (fuel + 1) out s = .ok value s') :
    s.pos < s'.pos := by
  have run : Moves text (unmarked text) noEscape s _ := plainRun_moves reads
  by_cases none : plainRun s.rest = 0
  · have isSame : s.advanceCols (plainRun s.rest) = s := by
      rw [none]
      rfl
    rw [plainLoop, get_bind_eq] at ok
    dsimp only at ok
    obtain ⟨_, q, stored, rest⟩ := bind_eq_ok ok
    cases stored
    rw [isSame] at rest
    have notEnd : s.atEnd = false :=
      Bool.eq_false_iff.mpr fun ended => Nat.not_le.mpr starts.inside (reads.atEnd_iff.mp ended)
    have one (plain : isBreak s.peek = false) {out : Bytes}
        (ok : (do set (s.advance 1); plainLoop fuel out) s = .ok value s') : s.pos < s'.pos := by
      have next : Moves text (unmarked text) noEscape s (s.advance 1) := .advance reads plain
      have loop : Moves text (unmarked text) noEscape (s.advance 1) s' :=
        plainLoop_moves next.reads ok
      rw [← Nat.add_one_le_iff, ← Moves.advance_pos reads starts.inside]
      exact loop.pos_le
    have notGap := starts.notGap
    rw [isBlankOrBreak, Bool.or_eq_false_iff] at notGap
    rw [if_neg (by rw [notEnd]; exact Bool.false_ne_true)] at rest
    split at rest
    · rename_i isColon
      obtain ⟨notBlank, notNul, notFlow⟩ := starts.notValue (beq_iff_eq.mp isColon)
      rw [if_pos (by simpa [notBlank, notNul, or_iff_not_imp_left, Nat.pos_iff_ne_zero] using
        notFlow)] at rest
      exact one notGap.2 rest
    rw [if_neg (by simpa using starts.notHash),
      if_neg (by simpa using starts.notFlow),
      if_neg (by rw [notGap.1]; exact Bool.false_ne_true),
      if_neg (by rw [notGap.2]; exact Bool.false_ne_true)] at rest
    split at rest
    · exact (scanError_ok rest).elim
    · exact one notGap.2 rest
  · have loop : Moves text (unmarked text) noEscape _ s' :=
      plainLoop_step plainLoop_moves run.reads ok
    have further : s.pos + plainRun s.rest ≤ s'.pos := loop.pos_le
    omega

theorem scanPlainScalar_progress {tok : Token} (reads : s.Reads text)
    (starts : s.StartsPlain text) (ok : scanPlainScalar s = .ok tok s') : s.pos < s'.pos := by
  rw [scanPlainScalar, get_bind_eq, get_bind_eq] at ok
  obtain ⟨out, q, looped, rest⟩ := bind_eq_ok ok
  have further := plainLoop_progress reads starts looped
  cases rest
  exact further

/-- At a `:` before a flow indicator the scalar is empty. -/
theorem scanPlainScalar_stall {tok : Token} (inFlow : s.flowLevel > 0) (isColon : s.peek = colon)
    (inside : s.pos < s.len) (notFlow : isFlow (s.peekAt 1) = true)
    (ok : scanPlainScalar s = .ok tok s') : s'.pos = s.pos := by
  have first : s.byte s.pos = colon := by
    rw [← isColon, Scanner.peek, Scanner.peekAt, Nat.add_zero, if_pos inside]
  have none : plainRun s.rest = 0 := by
    by_contra some
    have isRun := runLength_all _ s.rest (Nat.pos_of_ne_zero some)
    rw [show s.rest.getD 0 0 = colon by simpa [Scanner.rest, Scanner.byte] using first] at isRun
    cases isRun
  have isSame : s.advanceCols (plainRun s.rest) = s := by
    rw [none]
    rfl
  have notEnd : s.atEnd = false := by simpa [Scanner.atEnd] using inside
  rw [scanPlainScalar, get_bind_eq, get_bind_eq] at ok
  obtain ⟨out, q, looped, rest⟩ := bind_eq_ok ok
  rw [plainLoop, get_bind_eq] at looped
  dsimp only at looped
  obtain ⟨_, _, stored, looped⟩ := bind_eq_ok looped
  cases stored
  rw [isSame, if_neg (by rw [notEnd]; exact Bool.false_ne_true), isColon,
    if_pos (by decide), if_neg (by simp [inFlow, notFlow])] at looped
  cases looped
  cases rest
  rfl

/-! ### Quoted scalars -/

theorem finishQuoted_spans {style : ScalarStyle} {start : Mark} {value : Bytes} {tok : Token}
    (reads : s.Reads text) (ok : finishQuoted style start value s = .ok tok s') :
    Spans text escapes start s tok s' := by
  cases ok
  exact ⟨rfl, rfl, rfl, .keep reads rfl rfl rfl rfl⟩

variable (escapes) in
theorem quotedBreak_moves {closer : UInt8} {marker : String} {count : Nat} (reads : s.Reads text)
    (ok : quotedBreak closer marker s = .ok count s') :
    Moves text (unmarked text) escapes s s' ∧ s' = (s.skipBreakLines s.remaining 0).1 := by
  rw [quotedBreak, get_bind_eq] at ok
  have lines (clear : (s.skipBreakLines s.remaining 0).1.col = 1 →
      unmarked text (s.skipBreakLines s.remaining 0).1.pos) :
      Moves text (unmarked text) escapes s (s.skipBreakLines s.remaining 0).1 :=
    skipBreakLines_moves reads clear
  have reads' := (skipBreakLines_loop escapes s.remaining reads 0).reads
  generalize s.skipBreakLines s.remaining 0 = found at lines reads' ok ⊢
  obtain ⟨next, breakCount⟩ := found
  dsimp only at lines reads' ok ⊢
  obtain ⟨_, q, stored, rest⟩ := bind_eq_ok ok
  cases stored
  rw [reads'.isDocIndicatorAt_eq] at rest
  have clear : next.col = 1 → unmarked text next.pos := by
    intro atStart
    rw [atStart] at rest
    cases marked : markerAt text next.pos with
    | false => exact marked
    | true =>
        rw [marked] at rest
        cases rest
  split at rest
  · obtain ⟨_, _, failed, _⟩ := bind_eq_ok rest
    exact (scanError_ok failed).elim
  split at rest
  · obtain ⟨_, _, failed, _⟩ := bind_eq_ok rest
    exact (scanError_ok failed).elim
  · cases rest
    exact ⟨lines clear, rfl⟩

variable (escapes) in
theorem singleRun_moves (reads : s.Reads text) :
    Moves text (unmarked text) escapes s
      (s.advanceCols (findAny4 squote lf cr squote s.rest)) :=
  .run reads fun c plain => by
    simp only [Bool.not_eq_true', Bool.or_eq_false_iff] at plain
    rw [isBreak, plain.1.1.2, plain.1.2]
    rfl

/-- The buffered loop of `scan_single_quoted`. -/
theorem singleQuotedLoop_moves {fuel : Nat} {out value : Bytes} (reads : s.Reads text)
    (ok : singleQuotedLoop fuel out s = .ok value s') :
    Moves text (unmarked text) escapes s s' := by
  induction fuel generalizing s out with
  | zero =>
      cases ok
      exact .refl reads
  | succ fuel ih =>
      rw [singleQuotedLoop, get_bind_eq] at ok
      split at ok
      · cases ok
        exact .refl reads
      split at ok
      · rename_i isQuote
        split at ok
        · rename_i doubled
          obtain ⟨_, q, stored, rest⟩ := bind_eq_ok ok
          cases stored
          have two : Moves text (unmarked text) escapes s (s.advance 2) := by
            apply Moves.advanceBy reads
            intro i below
            rw [reads.peek_eq, beq_iff_eq] at isQuote
            simp only [Bool.and_eq_true, beq_iff_eq, reads.byte_eq] at doubled
            obtain rfl | rfl : i = 0 ∨ i = 1 := by omega
            · rw [Nat.add_zero, isQuote]
              rfl
            · rw [doubled.2]
              rfl
          exact two.trans (ih two.reads rest)
        · cases ok
          exact .refl reads
      split at ok
      · obtain ⟨count, q, crossed, rest⟩ := bind_eq_ok ok
        have lines := (quotedBreak_moves escapes reads crossed).1
        exact lines.trans (ih lines.reads rest)
      · obtain ⟨_, q, stored, rest⟩ := bind_eq_ok ok
        cases stored
        have passed := singleRun_moves escapes reads
        exact passed.trans (ih passed.reads rest)

theorem scanSingleQuoted_spans {tok : Token} (reads : s.Reads text) (isQuote : s.peek = squote)
    (ok : scanSingleQuoted s = .ok tok s') :
    Spans text escapes s.mark s tok s' ∧ s.pos < s'.pos := by
  rw [scanSingleQuoted, get_bind_eq] at ok
  have notBreak : isBreak s.peek = false := isQuote ▸ rfl
  apply Spans.after_first reads notBreak (by rw [isQuote]; decide)
  have first : Moves text (unmarked text) escapes s (s.advance 1) := .advance reads notBreak
  have reads1 := first.reads
  obtain ⟨_, q, advanced, rest⟩ := bind_eq_ok ok
  have isNext : q = s.advance 1 := by
    cases advanced
    rfl
  rw [← isNext] at reads1 ⊢
  rw [get_bind_eq] at rest
  have run := singleRun_moves escapes reads1
  split at rest
  · rename_i closed
    obtain ⟨_, q', stored, last⟩ := bind_eq_ok rest
    cases stored
    simp only [Bool.and_eq_true, decide_eq_true_eq, beq_iff_eq, reads1.byte_eq,
      reads1.len] at closed
    have close : Moves text (unmarked text) escapes
        (q.advanceCols (findAny4 squote lf cr squote q.rest))
        (q.advanceCols (findAny4 squote lf cr squote q.rest + 1)) := by
      refine .byte run.reads closed.1.1 ?_
      rw [Scanner.advanceCols, closed.1.2]
      rfl
    have whole := run.trans close
    exact (finishQuoted_spans whole.reads last).after whole
  · obtain ⟨out, q', looped, more⟩ := bind_eq_ok rest
    have loop : Moves text (unmarked text) escapes q q' := singleQuotedLoop_moves reads1 looped
    rw [get_bind_eq] at more
    split at more
    · obtain ⟨_, _, failed, _⟩ := bind_eq_ok more
      exact (scanError_ok failed).elim
    · rename_i isClose
      obtain ⟨_, q2, advanced, last⟩ := bind_eq_ok more
      cases advanced
      have close : Moves text (unmarked text) escapes q' (q'.advance 1) :=
        .advance loop.reads (by
          simp only [bne_iff_ne, ne_eq, Decidable.not_not] at isClose
          rw [isClose]
          rfl)
      have whole := loop.trans close
      exact (finishQuoted_spans whole.reads last).after whole

end

end Oyl
