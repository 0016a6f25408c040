import Oyl.Tokens.Scalars

/-!
# Escaped breaks of double-quoted scalars

The path of a double-quoted scalar.  A break after a backslash is escaped: the
scanner neither counts it as a line if it is a lone carriage return nor looks
for a document marker after it.
-/

namespace Oyl

open StateError

/-- The offsets of the escaped breaks in what follows the opening quote of a
double-quoted scalar, up to its closing quote. -/
def escapedBreaks (offset : Nat) : Bytes → List Nat
  | [] => []
  | c :: rest =>
      if c == dquote then []
      else if c == backslash then
        match rest with
        | [] => []
        | d :: rest =>
            if isBreak d then (offset + 1) :: escapedBreaks (offset + 2) rest
            else escapedBreaks (offset + 2) rest
      else escapedBreaks (offset + 1) rest

/-- Where the breaks are escaped in a double-quoted scalar that opens at an offset. -/
def quotedEscapes (text : Bytes) (offset : Nat) (e : Nat) : Prop :=
  e ∈ escapedBreaks (offset + 1) (text.drop (offset + 1))

/-- The escaped breaks that are still ahead at an offset are in `escapes`. -/
def Covers (text : Bytes) (escapes : Nat → Prop) (offset : Nat) : Prop :=
  ∀ e ∈ escapedBreaks offset (text.drop offset), escapes e

theorem escapedBreaks_cons (offset : Nat) (c : UInt8) (rest : Bytes) :
    escapedBreaks offset (c :: rest) =
      if c == dquote then []
      else if c == backslash then
        match rest with
        | [] => []
        | d :: rest =>
            if isBreak d then (offset + 1) :: escapedBreaks (offset + 2) rest
            else escapedBreaks (offset + 2) rest
      else escapedBreaks (offset + 1) rest := by
  rw [escapedBreaks.eq_def]
  rfl

section

variable {text : Bytes} {escapes : Nat → Prop} {offset : Nat}

theorem Covers.outside (outside : text.length ≤ offset) : Covers text escapes offset := by
  intro e member
  rw [List.drop_eq_nil_of_le outside] at member
  cases member

theorem Covers.skip (covers : Covers text escapes offset)
    (notQuote : byteAt text offset ≠ dquote) (notEscape : byteAt text offset ≠ backslash) :
    Covers text escapes (offset + 1) := by
  by_cases inside : offset < text.length
  · intro e member
    apply covers
    rw [drop_eq_cons inside, escapedBreaks_cons, beq_false_of_ne notQuote,
      beq_false_of_ne notEscape]
    exact member
  · exact .outside (by omega)

theorem Covers.range {n : Nat} (covers : Covers text escapes offset)
    (plain : ∀ i < n, byteAt text (offset + i) ≠ dquote ∧ byteAt text (offset + i) ≠ backslash) :
    Covers text escapes (offset + n) := by
  induction n with
  | zero => exact covers
  | succ n ih =>
      have last := plain n (Nat.lt_succ_self n)
      exact (ih fun i below => plain i (Nat.lt_succ_of_lt below)).skip last.1 last.2

/-- A backslash and the byte after it. -/
theorem Covers.escaped (covers : Covers text escapes offset)
    (isEscape : byteAt text offset = backslash) :
    Covers text escapes (offset + 2) ∧
      (isBreak (byteAt text (offset + 1)) = true → escapes (offset + 1)) := by
  by_cases inside : offset + 1 < text.length
  · rw [Covers, drop_eq_cons (by omega), drop_eq_cons inside, isEscape,
      escapedBreaks_cons] at covers
    simp only [show (backslash == dquote) = false from rfl, Bool.false_eq_true, if_false,
      beq_self_eq_true, if_true] at covers
    split at covers
    · rename_i isBr
      exact ⟨fun e member => covers e (List.mem_cons_of_mem _ member),
        fun _ => covers _ List.mem_cons_self⟩
    · rename_i notBr
      exact ⟨covers, fun isBr => absurd isBr notBr⟩
  · refine ⟨.outside (by omega), fun isBr => ?_⟩
    exact absurd (lt_length_of_isBreak isBr) inside

end

/-! ### The decoding loop -/

section

variable {text : Bytes} {escapes : Nat → Prop} {s s' : Scanner}

theorem blanks_bytes (reads : s.Reads text) {o : Nat} (later : s.pos ≤ o)
    (before : o < s.pos + skipBlanks s.rest) : isBlank (byteAt text o) = true := by
  have blank := runLength_all isBlank s.rest (i := o - s.pos) (by
    have : skipBlanks s.rest = runLength isBlank s.rest := rfl
    omega)
  rwa [reads.rest_eq, getD_drop, Nat.add_sub_cancel' later] at blank

theorem breakStop_bytes {offset o : Nat} (isBr : isBreak (byteAt text offset) = true)
    (later : offset ≤ o) (before : o < breakStop text offset) :
    isBreak (byteAt text o) = true := by
  unfold breakStop at before
  split at before
  · rename_i both
    simp only [Bool.and_eq_true, beq_iff_eq] at both
    obtain rfl | rfl : o = offset ∨ o = offset + 1 := by omega
    · exact isBr
    · rw [both.2]
      rfl
  · obtain rfl : o = offset := by omega
    exact isBr

/-- Between the lines of a scalar there are only blanks and breaks. -/
theorem skipBreakLines_bytes (fuel : Nat) (reads : s.Reads text) (count : Nat) {o : Nat}
    (later : s.pos ≤ o) (before : o < (s.skipBreakLines fuel count).1.pos) :
    isBlankOrBreak (byteAt text o) = true := by
  induction fuel generalizing s count with
  | zero => exact absurd before (Nat.not_lt.mpr later)
  | succ fuel ih =>
      rw [Scanner.skipBreakLines] at before
      split at before
      · exact absurd before (Nat.not_lt.mpr later)
      rename_i isBr
      simp only [Bool.or_eq_true, Bool.not_eq_true', not_or, Bool.not_eq_false] at isBr
      have isBr' : isBreak (byteAt text s.pos) = true := reads.peek_eq ▸ isBr.2
      have crossed : Moves text anyLine noEscape s s.skipBreak := .skipBreak reads isBr.2 trivial
      have landing : s.skipBreak.pos = breakStop text s.pos := by
        rw [Moves.skipBreak_eq reads isBr']
      have blanks : Moves text anyLine noEscape s.skipBreak
          (s.skipBreak.advanceCols (skipBlanks s.skipBreak.rest)) :=
        skipBlanks_moves crossed.reads
      have here (short : o < s.skipBreak.pos + skipBlanks s.skipBreak.rest) :
          isBlankOrBreak (byteAt text o) = true := by
        rw [isBlankOrBreak, Bool.or_eq_true]
        by_cases early : o < s.skipBreak.pos
        · right
          exact breakStop_bytes isBr' later (landing ▸ early)
        · left
          exact blanks_bytes crossed.reads (Nat.not_lt.mp early) short
      dsimp only at before
      split at before
      · exact here before
      · by_cases short : o < s.skipBreak.pos + skipBlanks s.skipBreak.rest
        · exact here short
        · exact ih blanks.reads (count + 1) (Nat.not_lt.mp short) before

/-- An escaped break is passed byte by byte. -/
theorem escapedBreak_moves {lands : Nat → Prop} (reads : s.Reads text)
    (isBr : isBreak (byteAt text s.pos) = true) (escaped : escapes s.pos) {q : Scanner}
    (passed : q = if byteAt text s.pos == cr && (s.advance 1).peek == lf
      then (s.advance 1).advance 1 else s.advance 1) :
    Moves text lands escapes s q ∧ q.pos = breakStop text s.pos := by
  have inside := lt_length_of_isBreak isBr
  have move : Move text lands escapes s.mark (s.mark.escape text) := .escape isBr escaped
  have finish {q : Scanner} (buf : q.buf = s.buf) (len : q.len = s.len)
      (settings : q.settings = s.settings) (mark : q.mark = s.mark.escape text) :
      Moves text lands escapes s q ∧ q.pos = breakStop text s.pos := by
    have pos : q.pos = breakStop text s.pos := by
      have stop := Mark.escape_offset (m := s.mark) isBr
      rw [← mark] at stop
      exact stop
    exact ⟨⟨reads.of_same buf len (pos ▸ breakStop_le isBr), settings, mark ▸ .single move⟩, pos⟩
  simp only [isBreak, Bool.or_eq_true, beq_iff_eq] at isBr
  rcases isBr with isLf | isCr
  · have one : s.advance 1 = { s with pos := s.pos + 1, line := s.line + 1, col := 1 } := by
      simp only [Scanner.advance, reads.len, if_pos inside, reads.byte_eq, isLf]
      rfl
    rw [isLf] at passed
    obtain rfl : q = _ := passed.trans one
    refine finish rfl rfl rfl ?_
    have stop : breakStop text s.pos = s.pos + 1 := by
      rw [breakStop, isLf]
      rfl
    have notLone : loneCr text s.mark.offset = false := by
      change loneCr text s.pos = false
      rw [loneCr, isLf]
      rfl
    rw [Mark.escape, notLone]
    change _ = (⟨breakStop text s.pos, s.line + 1, 1⟩ : Mark)
    rw [stop]
    rfl
  · have one : s.advance 1 = { s with pos := s.pos + 1, col := s.col + 1 } := by
      simp only [Scanner.advance, reads.len, if_pos inside, reads.byte_eq, isCr]
      rfl
    have peeked : (s.advance 1).peek = byteAt text (s.pos + 1) := by
      rw [one]
      exact Scanner.Reads.peek_eq ⟨reads.buf, reads.len, inside⟩
    rw [isCr, peeked] at passed
    by_cases followed : byteAt text (s.pos + 1) = lf
    · have inside' : s.pos + 1 < text.length := by
        apply lt_length_of_isBreak
        rw [followed]
        rfl
      have two : (s.advance 1).advance 1 =
          { s with pos := s.pos + 2, line := s.line + 1, col := 1 } := by
        rw [one]
        simp only [Scanner.advance, reads.len, if_pos inside', Scanner.byte, reads.buf]
        rw [← byteAt, followed]
        rfl
      rw [followed] at passed
      obtain rfl : q = _ := passed.trans two
      refine finish rfl rfl rfl ?_
      have stop : breakStop text s.pos = s.pos + 2 := by
        rw [breakStop, isCr, followed]
        rfl
      have notLone : loneCr text s.mark.offset = false := by
        change loneCr text s.pos = false
        rw [loneCr, isCr, followed]
        rfl
      rw [Mark.escape, notLone]
      change _ = (⟨breakStop text s.pos, s.line + 1, 1⟩ : Mark)
      rw [stop]
      rfl
    · rw [beq_false_of_ne followed, Bool.and_false, one] at passed
      subst passed
      refine finish rfl rfl rfl ?_
      have lone : loneCr text s.mark.offset = true := by
        change loneCr text s.pos = true
        simp [loneCr, isCr, followed]
      rw [Mark.escape, lone]
      rfl

theorem isHex_plain {c : UInt8} (hex : isHex c = true) :
    isBreak c = false ∧ c ≠ dquote ∧ c ≠ backslash := by
  have apart (d : UInt8) (notHex : isHex d = false) : c ≠ d := by
    rintro rfl
    rw [notHex] at hex
    cases hex
  refine ⟨?_, apart _ (by decide), apart _ (by decide)⟩
  rw [isBreak, beq_false_of_ne (apart _ (by decide)), beq_false_of_ne (apart _ (by decide))]
  rfl

/-- The cursor advances over hexadecimal digits. -/
theorem hexDigits_moves {lands : Nat → Prop} {n : Nat} (reads : s.Reads text)
    (covers : Covers text escapes s.pos)
    (digits : ∀ i < n, isHex (byteAt text (s.pos + i)) = true) :
    Moves text lands escapes s (s.advance n) ∧ Covers text escapes (s.advance n).pos := by
  have moves : Moves text lands escapes s (s.advance n) :=
    .advanceBy reads fun i below => (isHex_plain (digits i below)).1
  have pos : (s.advance n).pos = s.pos + n := by
    clear moves covers
    induction n generalizing s with
    | zero => rfl
    | succ n ih =>
        have first := isHex_plain (digits 0 (Nat.succ_pos n))
        rw [Nat.add_zero] at first
        have inside : s.pos < text.length := by
          by_contra outside
          have zero := digits 0 (Nat.succ_pos n)
          rw [Nat.add_zero, byteAt_outside (by omega)] at zero
          cases zero
        have one := Moves.advance_pos reads inside
        have next : Moves text anyLine escapes s (s.advance 1) :=
          .advance reads (by rw [reads.peek_eq]; exact first.1)
        rw [Moves.advance_succ, ih next.reads, one]
        · omega
        · intro i below
          rw [one, Nat.add_assoc, Nat.add_comm 1]
          exact digits (i + 1) (Nat.succ_lt_succ below)
  refine ⟨moves, pos ▸ covers.range fun i below => ?_⟩
  exact (isHex_plain (digits i below)).2

theorem unicodeEscape_moves {lands : Nat → Prop} {n : Nat} {bytes : Bytes} (reads : s.Reads text)
    (covers : Covers text escapes s.pos) (ok : unicodeEscape n s = .ok bytes s') :
    Moves text lands escapes s s' ∧ Covers text escapes s'.pos := by
  rw [unicodeEscape, get_bind_eq] at ok
  split at ok
  · obtain ⟨_, _, failed, _⟩ := bind_eq_ok ok
    exact (scanError_ok failed).elim
  rename_i enough
  have narrowed := asInt_le s.remaining
  replace enough : ¬s.remaining < n := by omega
  dsimp only at ok
  split at ok
  · obtain ⟨_, _, failed, _⟩ := bind_eq_ok ok
    exact (scanError_ok failed).elim
  rename_i digits
  obtain ⟨_, q, stored, rest⟩ := bind_eq_ok ok
  have isNext : q = s.advance n := by
    cases stored
    rfl
  split at rest
  · obtain ⟨_, _, failed, _⟩ := bind_eq_ok rest
    exact (scanError_ok failed).elim
  split at rest
  · obtain ⟨_, _, failed, _⟩ := bind_eq_ok rest
    exact (scanError_ok failed).elim
  cases rest
  subst isNext
  apply hexDigits_moves reads covers
  intro i below
  simp only [Bool.not_eq_true', Bool.not_eq_false, List.all_eq_true, reads.rest_eq] at digits
  rw [Scanner.remaining, reads.len] at enough
  apply digits
  rw [byteAt, List.getD_eq_getElem?_getD, List.getElem?_eq_getElem (by omega), Option.getD_some]
  refine List.mem_iff_getElem.mpr ⟨i, by rw [List.length_take, List.length_drop]; omega, ?_⟩
  rw [List.getElem_take, List.getElem_drop]

/-- The decoding loop of `scan_double_quoted`. -/
theorem doubleQuotedLoop_moves {fuel : Nat} {out value : Bytes} {contentEnd : Nat}
    (reads : s.Reads text) (covers : Covers text escapes s.pos)
    (ok : doubleQuotedLoop fuel out contentEnd s = .ok value s') :
    Moves text (unmarked text) escapes s s' := by
  induction fuel generalizing s out contentEnd with
  | zero =>
      cases ok
      exact .refl reads
  | succ fuel ih =>
      rw [doubleQuotedLoop, get_bind_eq] at ok
      split at ok
      · cases ok
        exact .refl reads
      rename_i open'
      simp only [Bool.or_eq_true, not_or, Bool.not_eq_true, beq_eq_false_iff_ne, reads.peek_eq]
        at open'
      split at ok
      · -- an escape
        rename_i isEscape
        rw [reads.peek_eq, beq_iff_eq] at isEscape
        obtain ⟨after', escaped⟩ := covers.escaped isEscape
        dsimp only at ok
        obtain ⟨_, q, stored, rest⟩ := bind_eq_ok ok
        have isNext : q = s.advance 1 := by
          cases stored
          rfl
        have first : Moves text (unmarked text) escapes s q :=
          isNext ▸ .advance reads (by rw [reads.peek_eq, isEscape]; rfl)
        have inside : s.pos < text.length := by
          by_contra outside
          rw [byteAt_outside (by omega)] at isEscape
          cases isEscape
        have pos : q.pos = s.pos + 1 := by
          rw [isNext, Moves.advance_pos reads inside]
        rw [← isNext] at rest
        split at rest
        · obtain ⟨_, _, failed, _⟩ := bind_eq_ok rest
          exact (scanError_ok failed).elim
        rename_i more
        rw [← pos] at escaped
        rw [first.reads.peek_eq] at rest
        obtain ⟨_, q', stored', rest⟩ := bind_eq_ok rest
        have isNext' : q' = q.advance 1 := by
          cases stored'
          rfl
        split at rest
        · -- an escaped break, and the blanks after it
          rename_i isBr
          generalize passed : (if (byteAt text q.pos == cr && (q.advance 1).peek == lf) = true
            then (q.advance 1).advance 1 else q.advance 1) = q3 at rest
          have crossing : Moves text (unmarked text) escapes q q3 ∧ q3.pos = breakStop text q.pos :=
            escapedBreak_moves first.reads isBr (escaped isBr) passed.symm
          obtain ⟨crossed, stop⟩ := crossing
          have blanks : Moves text (unmarked text) escapes q3
              (q3.advanceCols (skipBlanks q3.rest)) := skipBlanks_moves crossed.reads
          have covers' : Covers text escapes (q3.advanceCols (skipBlanks q3.rest)).pos := by
            have ahead : s.pos + 2 ≤ q3.pos := by
              rcases breakStop_cases isBr with ⟨one, _⟩ | ⟨two, _⟩ <;> omega
            obtain ⟨n, far⟩ := Nat.exists_eq_add_of_le (Nat.le_trans ahead blanks.pos_le)
            rw [far]
            apply after'.range
            intro i below
            have gap : isBlankOrBreak (byteAt text (s.pos + 2 + i)) = true := by
              rw [isBlankOrBreak, Bool.or_eq_true]
              by_cases early : s.pos + 2 + i < q3.pos
              · exact .inr (breakStop_bytes isBr (by omega) (stop ▸ early))
              · refine .inl (blanks_bytes crossed.reads (Nat.not_lt.mp early) ?_)
                have reach : (q3.advanceCols (skipBlanks q3.rest)).pos =
                  q3.pos + skipBlanks q3.rest := rfl
                omega
            constructor <;> intro same <;> rw [same] at gap <;> cases gap
          have whole := (first.trans crossed).trans blanks
          obtain ⟨_, q4, stored4, rest⟩ := bind_eq_ok rest
          have isNext4 : q4 = q3.advanceCols (skipBlanks q3.rest) := by
            cases stored4
            rfl
          subst isNext4
          split at rest
          · obtain ⟨_, _, failed, _⟩ := bind_eq_ok rest
            exact (scanError_ok failed).elim
          · exact whole.trans (ih whole.reads covers' rest)
        · rename_i notBr
          have second : Moves text (unmarked text) escapes q (q.advance 1) :=
            .advance first.reads (by rw [first.reads.peek_eq]; exact Bool.eq_false_iff.mpr notBr)
          have whole := first.trans second
          have inside' : q.pos < text.length := by
            by_contra outside
            exact more (first.reads.atEnd_iff.mpr (Nat.not_lt.mp outside))
          have next : (q.advance 1).pos = s.pos + 2 := by
            rw [Moves.advance_pos first.reads inside', pos]
          have covers' : Covers text escapes q'.pos := by
            rw [isNext', next]
            exact after'
          rw [← isNext'] at rest whole
          have finish {q4 : Scanner} {out : Bytes} {contentEnd : Nat}
              (decoded : Moves text (unmarked text) escapes q' q4 ∧ Covers text escapes q4.pos)
              (ok : doubleQuotedLoop fuel out contentEnd q4 = .ok value s') :
              Moves text (unmarked text) escapes s s' :=
            whole.trans (decoded.1.trans (ih decoded.1.reads decoded.2 ok))
          cases simple : simpleEscape (byteAt text q.pos) with
          | some bytes =>
              rw [simple] at rest
              exact finish ⟨.refl whole.reads, covers'⟩ rest
          | none =>
              rw [simple] at rest
              dsimp only at rest
              split at rest
              · split at rest
                · obtain ⟨_, _, failed, _⟩ := bind_eq_ok rest
                  exact (scanError_ok failed).elim
                split at rest
                · obtain ⟨_, _, failed, _⟩ := bind_eq_ok rest
                  exact (scanError_ok failed).elim
                rename_i digits
                obtain ⟨_, q4, stored4, last⟩ := bind_eq_ok rest
                have isNext4 : q4 = q'.advance 2 := by
                  cases stored4
                  rfl
                subst isNext4
                refine finish (hexDigits_moves whole.reads covers' fun i below => ?_) last
                simp only [Bool.or_eq_true, Bool.not_eq_true', not_or, Bool.not_eq_false,
                  whole.reads.peek_eq, whole.reads.peekAt_eq] at digits
                obtain rfl | rfl : i = 0 ∨ i = 1 := by omega
                · exact digits.1
                · exact digits.2
              split at rest
              · obtain ⟨bytes, q4, decoded, last⟩ := bind_eq_ok rest
                exact finish (unicodeEscape_moves whole.reads covers' decoded) last
              split at rest
              · obtain ⟨bytes, q4, decoded, last⟩ := bind_eq_ok rest
                exact finish (unicodeEscape_moves whole.reads covers' decoded) last
              · obtain ⟨_, _, failed, _⟩ := bind_eq_ok rest
                exact (scanError_ok failed).elim
      split at ok
      · -- a break
        obtain ⟨count, q, crossed, rest⟩ := bind_eq_ok ok
        obtain ⟨lines, isNext⟩ := quotedBreak_moves escapes reads crossed
        have covers' : Covers text escapes q.pos := by
          obtain ⟨n, far⟩ := Nat.exists_eq_add_of_le lines.pos_le
          rw [far]
          apply covers.range
          intro i below
          have gap := skipBreakLines_bytes s.remaining reads 0 (o := s.pos + i)
            (Nat.le_add_right _ _) (by rw [← isNext]; omega)
          constructor <;> intro same <;> rw [same] at gap <;> cases gap
        exact lines.trans (ih lines.reads covers' rest)
      · dsimp only at ok
        obtain ⟨_, q, stored, rest⟩ := bind_eq_ok ok
        cases stored
        have plain (c : UInt8)
            (inRun : (!(c == dquote || c == backslash || c == lf || c == cr)) = true) :
            isBreak c = false ∧ c ≠ dquote ∧ c ≠ backslash := by
          simp only [Bool.not_eq_true', Bool.or_eq_false_iff, beq_eq_false_iff_ne] at inRun
          refine ⟨?_, inRun.1.1.1, inRun.1.1.2⟩
          rw [isBreak, beq_false_of_ne inRun.1.2, beq_false_of_ne inRun.2]
          rfl
        have passed : Moves text (unmarked text) escapes s
            (s.advanceCols (findAny4 dquote backslash lf cr s.rest)) :=
          .run reads fun c inRun => (plain c inRun).1
        have covers' : Covers text escapes
            (s.advanceCols (findAny4 dquote backslash lf cr s.rest)).pos := by
          apply covers.range
          intro i below
          rw [← getD_drop, ← reads.rest_eq]
          exact (plain _ (runLength_all _ s.rest below)).2
        exact passed.trans (ih passed.reads covers' rest)

variable (escapes) in
/-- The closing quote is passed. -/
theorem closeQuote_moves {lands : Nat → Prop} (reads : s.Reads text) (isQuote : s.peek = dquote) :
    Moves text lands escapes s (s.advance 1) ∧ byteAt text ((s.advance 1).pos - 1) = dquote := by
  have isQuote' := isQuote
  rw [reads.peek_eq] at isQuote'
  have inside : s.pos < text.length := by
    by_contra outside
    rw [byteAt_outside (Nat.not_lt.mp outside)] at isQuote'
    cases isQuote'
  refine ⟨.advance reads (isQuote ▸ rfl), ?_⟩
  rw [Moves.advance_pos reads inside]
  exact isQuote'

/-- `scan_double_quoted` -/
theorem scanDoubleQuoted_spans {tok : Token} (reads : s.Reads text) (isQuote : s.peek = dquote)
    (ok : scanDoubleQuoted s = .ok tok s') :
    (Spans text (quotedEscapes text s.pos) s.mark s tok s' ∧ s.pos < s'.pos) ∧
      byteAt text (s'.pos - 1) = dquote := by
  rw [scanDoubleQuoted, get_bind_eq] at ok
  have notBreak : isBreak s.peek = false := isQuote ▸ rfl
  have notNul : s.peek ≠ 0 := by rw [isQuote]; decide
  obtain ⟨_, q, advanced, rest⟩ := bind_eq_ok ok
  have isNext : q = s.advance 1 := by
    cases advanced
    rfl
  have first : Moves text (unmarked text) (quotedEscapes text s.pos) s q :=
    isNext ▸ (closeQuote_moves _ reads isQuote).1
  have reads1 := first.reads
  have pos : q.pos = s.pos + 1 := by
    rw [isNext, Moves.advance_pos reads]
    by_contra outside
    rw [reads.peek_eq, byteAt_outside (Nat.not_lt.mp outside)] at isQuote
    cases isQuote
  have finish {q' : Scanner} {value : Bytes} (whole : Moves text (unmarked text)
      (quotedEscapes text s.pos) q q') (closed : byteAt text (q'.pos - 1) = dquote)
      (ok : finishQuoted .doubleQuoted s.mark value q' = .ok tok s') :
      (Spans text (quotedEscapes text s.pos) s.mark s tok s' ∧ s.pos < s'.pos) ∧
        byteAt text (s'.pos - 1) = dquote := by
    refine ⟨Spans.after_first reads notBreak notNul
      (isNext ▸ (finishQuoted_spans whole.reads ok).after whole), ?_⟩
    cases ok
    exact closed
  rw [get_bind_eq] at rest
  split at rest
  · rename_i closed
    obtain ⟨_, q', stored, last⟩ := bind_eq_ok rest
    have isNext' : q' = q.advanceCols (findAny4 dquote backslash lf cr q.rest + 1) := by
      cases stored
      rfl
    have run : Moves text (unmarked text) (quotedEscapes text s.pos) q
        (q.advanceCols (findAny4 dquote backslash lf cr q.rest)) :=
      .run reads1 fun c plain => by
        simp only [Bool.not_eq_true', Bool.or_eq_false_iff] at plain
        rw [isBreak, plain.1.2, plain.2]
        rfl
    simp only [Bool.and_eq_true, decide_eq_true_eq, beq_iff_eq, reads1.byte_eq,
      reads1.len] at closed
    have close : Moves text (unmarked text) (quotedEscapes text s.pos)
        (q.advanceCols (findAny4 dquote backslash lf cr q.rest)) q' := by
      rw [isNext']
      refine .byte run.reads closed.1 ?_
      rw [Scanner.advanceCols, closed.2]
      rfl
    refine finish (run.trans close) ?_ last
    rw [isNext']
    exact closed.2
  · obtain ⟨out, q', looped, more⟩ := bind_eq_ok rest
    have loop : Moves text (unmarked text) (quotedEscapes text s.pos) q q' := by
      apply doubleQuotedLoop_moves reads1 _ looped
      rw [pos]
      exact fun e member => member
    rw [get_bind_eq] at more
    split at more
    · obtain ⟨_, _, failed, _⟩ := bind_eq_ok more
      exact (scanError_ok failed).elim
    · rename_i isClose
      obtain ⟨_, q2, advanced, last⟩ := bind_eq_ok more
      have isNext2 : q2 = q'.advance 1 := by
        cases advanced
        rfl
      simp only [bne_iff_ne, ne_eq, Decidable.not_not] at isClose
      obtain ⟨close, closed⟩ := closeQuote_moves (quotedEscapes text s.pos)
        loop.reads isClose
      subst isNext2
      exact finish (loop.trans close) closed last

end

end Oyl
