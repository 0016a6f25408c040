import Oyl.Tokens.Escapes

/-!
# The paths of names and block scalars

Tags, anchors and aliases stay on their line.  A block scalar runs over whole
lines, up to the end that the measuring pass finds, which may be a document
marker.
-/

namespace Oyl

open StateError

section

variable {text : Bytes} {escapes : Nat → Prop} {s s' : Scanner}

theorem isBreak_of_isControl {c : UInt8} (plain : ¬ isControl c = true) : isBreak c = false := by
  cases isBr : isBreak c with
  | false => rfl
  | true =>
      simp only [isBreak, Bool.or_eq_true, beq_iff_eq] at isBr
      rcases isBr with rfl | rfl <;> exact absurd rfl plain

theorem scanNameLoop_moves {stops : UInt8 → Bool} {msg : String} {fuel : Nat} {a : Unit}
    (reads : s.Reads text) (ok : scanNameLoop stops msg fuel s = .ok a s') :
    Moves text (unmarked text) escapes s s' := by
  induction fuel generalizing s with
  | zero =>
      cases ok
      exact .refl reads
  | succ fuel ih =>
      rw [scanNameLoop, get_bind_eq] at ok
      split at ok
      · cases ok
        exact .refl reads
      split at ok
      · obtain ⟨_, _, failed, _⟩ := bind_eq_ok ok
        exact (scanError_ok failed).elim
      rename_i plain
      obtain ⟨_, q, stored, rest⟩ := bind_eq_ok ok
      cases stored
      have next : Moves text (unmarked text) escapes s (s.advance 1) :=
        .advance reads (isBreak_of_isControl plain)
      exact next.trans (ih next.reads rest)

variable (escapes) in
theorem finishName_spans {type : TokenType} {start : Mark} {valueStart : Nat} {tok : Token}
    (reads : s.Reads text) (inside : type.inside = true)
    (ok : finishName type start valueStart s = .ok tok s') :
    Spans text escapes start s tok s' := by
  rw [finishName, get_bind_eq] at ok
  obtain ⟨_, q, stored, last⟩ := bind_eq_ok ok
  cases last
  cases stored
  refine ⟨inside, rfl, ?_, ?_⟩
  · split <;> rfl
  · split <;> exact .keep reads rfl rfl rfl rfl

theorem scanTag_spans {tok : Token} (reads : s.Reads text) (isTag : s.peek = bang)
    (ok : scanTag s = .ok tok s') :
    Spans text escapes s.mark s tok s' ∧ s.pos < s'.pos := by
  rw [scanTag, get_bind_eq] at ok
  have notBreak : isBreak s.peek = false := isTag ▸ rfl
  have notNul : s.peek ≠ 0 := by rw [isTag]; decide
  have reads1 : (s.advance 1).Reads text :=
    (Moves.advance reads notBreak : Moves text anyLine escapes s _).reads
  obtain ⟨_, q, advanced, rest⟩ := bind_eq_ok ok
  have isNext : q = s.advance 1 := by
    cases advanced
    rfl
  rw [← isNext] at reads1
  have named {q' q2 : Scanner} {stops : UInt8 → Bool} {msg : String} {a : Unit} {fuel : Nat}
      (before : Moves text (unmarked text) escapes q q')
      (ok : scanNameLoop stops msg fuel q' = .ok a q2) :
      Moves text (unmarked text) escapes q q2 :=
    before.trans (scanNameLoop_moves before.reads ok)
  have finish {q2 : Scanner} (before : Moves text (unmarked text) escapes q q2)
      (ok : finishName .tag s.mark s.mark.offset q2 = .ok tok s') :
      Spans text escapes s.mark s tok s' ∧ s.pos < s'.pos := by
    have spans := finishName_spans escapes before.reads rfl ok
    exact Spans.after_first reads notBreak notNul (isNext ▸ spans.after before)
  rw [get_bind_eq] at rest
  split at rest
  · rename_i isLess
    obtain ⟨_, q', stored, rest⟩ := bind_eq_ok rest
    have second : Moves text (unmarked text) escapes q q' := by
      cases stored
      exact .advance reads1 (by rw [beq_iff_eq.mp isLess]; rfl)
    obtain ⟨_, q2, looped, rest⟩ := bind_eq_ok rest
    have loop := named second looped
    rw [get_bind_eq] at rest
    split at rest
    · obtain ⟨_, _, failed, _⟩ := bind_eq_ok rest
      exact (scanError_ok failed).elim
    rename_i closed
    simp only [Bool.or_eq_true, bne_iff_ne, ne_eq, not_or, Decidable.not_not] at closed
    obtain ⟨_, q3, stored', last⟩ := bind_eq_ok rest
    have close : Moves text (unmarked text) escapes q2 q3 := by
      cases stored'
      exact .advance loop.reads (closed.1 ▸ rfl)
    exact finish (loop.trans close) last
  · split at rest
    · rename_i isBang
      obtain ⟨_, q', stored, rest⟩ := bind_eq_ok rest
      have second : Moves text (unmarked text) escapes q q' := by
        cases stored
        exact .advance reads1 (by rw [beq_iff_eq.mp isBang]; rfl)
      obtain ⟨_, q2, looped, last⟩ := bind_eq_ok rest
      have loop := named second looped
      exact finish loop last
    · obtain ⟨_, q2, looped, last⟩ := bind_eq_ok rest
      have loop := named (.refl reads1) looped
      exact finish loop last

theorem scanAnchorOrAlias_spans {tok : Token} (reads : s.Reads text)
    (notBreak : isBreak s.peek = false) (notNul : s.peek ≠ 0)
    (ok : scanAnchorOrAlias s = .ok tok s') :
    Spans text escapes s.mark s tok s' ∧ s.pos < s'.pos := by
  rw [scanAnchorOrAlias, get_bind_eq, get_bind_eq] at ok
  have reads1 : (s.advance 1).Reads text :=
    (Moves.advance reads notBreak : Moves text anyLine escapes s _).reads
  obtain ⟨_, q, advanced, rest⟩ := bind_eq_ok ok
  have isNext : q = s.advance 1 := by
    cases advanced
    rfl
  rw [← isNext] at reads1
  rw [get_bind_eq, get_bind_eq] at rest
  obtain ⟨_, q2, looped, rest⟩ := bind_eq_ok rest
  have loop : Moves text (unmarked text) escapes q q2 := scanNameLoop_moves reads1 looped
  rw [get_bind_eq] at rest
  split at rest
  · obtain ⟨_, _, failed, _⟩ := bind_eq_ok rest
    exact (scanError_ok failed).elim
  · have spans := finishName_spans escapes loop.reads (by split <;> rfl) rest
    exact Spans.after_first reads notBreak notNul (isNext ▸ spans.after loop)

/-! ### Block scalars -/

theorem spacesAt_bytes (reads : s.Reads text) (pos : Nat) {i : Nat} (below : i < s.spacesAt pos) :
    byteAt text (pos + i) = space := by
  have run := runLength_all (· == space) (s.buf.drop pos) below
  rw [reads.buf, getD_drop] at run
  exact beq_iff_eq.mp run

theorem spacesAt_le (reads : s.Reads text) {pos : Nat} (inside : pos ≤ text.length) :
    pos + s.spacesAt pos ≤ text.length := by
  have short := runLength_le (· == space) (s.buf.drop pos)
  rw [reads.buf, List.length_drop] at short
  rw [Scanner.spacesAt, reads.buf]
  omega

/-- The probing passes step over a break as the cursor does. -/
theorem pastBreak_eq (reads : s.Reads text) {pos : Nat}
    (isBr : isBreak (byteAt text pos) = true) : s.pastBreak pos = breakStop text pos := by
  have inside := lt_length_of_isBreak isBr
  simp only [Scanner.pastBreak, reads.byte_eq, reads.len, breakStop]
  by_cases isCr : byteAt text pos = cr
  · rw [isCr]
    by_cases followed : byteAt text (pos + 1) = lf
    · have inside' : pos + 1 < text.length := by
        apply lt_length_of_isBreak
        rw [followed]
        rfl
      simp [inside, followed, inside']
    · simp [inside, followed]
  · simp only [isBreak, Bool.or_eq_true, beq_iff_eq, isCr, or_false] at isBr
    simp [inside, isBr, show ¬ lf = cr by decide]

theorem pastBreak_end (reads : s.Reads text) {pos : Nat} (outside : text.length ≤ pos) :
    s.pastBreak pos = pos := by
  simp [Scanner.pastBreak, reads.len, Nat.not_lt.mpr outside]

theorem le_pastBreak (s : Scanner) (pos : Nat) : pos ≤ s.pastBreak pos := by
  simp only [Scanner.pastBreak]
  split <;> split <;> omega

theorem le_measureBlock {base fuel pos needed endPos n : Nat}
    (measured : s.measureBlock base fuel pos needed = some (endPos, n)) : pos ≤ endPos := by
  induction fuel generalizing pos needed with
  | zero =>
      cases measured
      exact Nat.le_refl _
  | succ fuel ih =>
      rw [Scanner.measureBlock] at measured
      split at measured
      · cases measured
        exact Nat.le_refl _
      dsimp only at measured
      split at measured
      · cases measured
        exact Nat.le_add_right _ _
      split at measured
      · have next := ih measured
        have past := le_pastBreak s (pos + s.spacesAt pos)
        omega
      split at measured
      · cases measured
        exact Nat.le_refl _
      split at measured
      · split at measured
        · split at measured <;> cases measured
          exact Nat.le_refl _
        · cases measured
          exact Nat.le_refl _
      · have next := ih measured
        have past := le_pastBreak s (pos + base + scanToBreak (s.buf.drop (pos + base)))
        omega

/-- Where the measuring pass goes on, no document marker is. -/
theorem measureBlock_unmarked (reads : s.Reads text) {base fuel pos needed endPos n : Nat}
    (measured : s.measureBlock base fuel pos needed = some (endPos, n)) (goesOn : pos ≠ endPos) :
    unmarked text pos := by
  cases fuel with
  | zero =>
      cases measured
      exact absurd rfl goesOn
  | succ fuel =>
      rw [Scanner.measureBlock] at measured
      split at measured
      · cases measured
        exact absurd rfl goesOn
      dsimp only at measured
      -- spaces start the line, or its first byte decides
      by_cases spaces : s.spacesAt pos = 0
      · rw [spaces, Nat.add_zero] at measured
        split at measured
        · rename_i outside
          rw [reads.len] at outside
          exact unmarked_outside outside
        split at measured
        · rename_i isBr
          rw [reads.byte_eq] at isBr
          exact unmarked_of_blankOrBreak (Bool.or_eq_true_iff.mpr (.inr isBr))
        split at measured
        · cases measured
          exact absurd rfl goesOn
        · rename_i notMarker
          rw [reads.isDocIndicatorAt_eq] at notMarker
          simpa [unmarked] using notMarker
      · have isSpace := spacesAt_bytes reads pos (i := 0) (Nat.pos_of_ne_zero spaces)
        apply unmarked_of_blankOrBreak
        rw [Nat.add_zero] at isSpace
        rw [isSpace]
        rfl

theorem copyBlock_stop {base endPos fuel : Nat} {out : Bytes} {lines : List BlockLine}
    (stop : endPos ≤ s.pos) : (Scanner.copyBlock base endPos fuel s out lines).1 = s := by
  cases fuel with
  | zero => rfl
  | succ fuel => rw [Scanner.copyBlock, if_pos stop]

/-- A run of spaces. -/
theorem spaces_moves {lands : Nat → Prop} {n : Nat} (reads : s.Reads text)
    (run : n ≤ s.spacesAt s.pos) : Moves text lands escapes s (s.advanceCols n) := by
  apply Moves.advanceCols reads
  · intro i below
    rw [spacesAt_bytes reads s.pos (Nat.lt_of_lt_of_le below run)]
    rfl
  · have short := spacesAt_le reads reads.inside
    omega

theorem runLength_add (p : UInt8 → Bool) (bytes : Bytes) {k : Nat}
    (run : ∀ i < k, p (bytes.getD i 0) = true) (inside : k ≤ bytes.length) :
    runLength p bytes = k + runLength p (bytes.drop k) := by
  induction k generalizing bytes with
  | zero => simp
  | succ k ih =>
      cases bytes with
      | nil => cases inside
      | cons c rest =>
          have first : p c = true := run 0 (Nat.succ_pos k)
          have more := ih rest (fun i below => run (i + 1) (Nat.succ_lt_succ below))
            (Nat.le_of_succ_le_succ inside)
          rw [runLength, if_pos first, more, List.drop_succ_cons]
          omega

theorem advanceCols_twice {base n : Nat} (deep : base ≤ n) :
    (s.advanceCols base).advanceCols (n - base) = s.advanceCols n := by
  have pos : s.pos + base + (n - base) = s.pos + n := by omega
  have col : s.col + base + (n - base) = s.col + n := by omega
  simp only [Scanner.advanceCols, pos, col]

/-- A line's spaces and its content. -/
def Scanner.pastContent (s : Scanner) (base : Nat) : Scanner :=
  let s' := (s.advanceCols base).advanceCols (s.spacesAt s.pos - base)
  s'.advanceCols (scanToBreak s'.rest)

theorem contentLine_moves {lands : Nat → Prop} {base : Nat} (reads : s.Reads text)
    (deep : base ≤ s.spacesAt s.pos) : Moves text lands escapes s (s.pastContent base) := by
  rw [Scanner.pastContent, advanceCols_twice deep]
  have spaces : Moves text lands escapes s (s.advanceCols (s.spacesAt s.pos)) :=
    spaces_moves reads (Nat.le_refl _)
  exact spaces.trans (.run spaces.reads fun c plain => by simpa using plain)

theorem spaces_run (reads : s.Reads text) (base : Nat) (deep : base ≤ s.spacesAt s.pos) :
    s.pos + base + scanToBreak (text.drop (s.pos + base)) =
      s.pos + s.spacesAt s.pos + scanToBreak (text.drop (s.pos + s.spacesAt s.pos)) := by
  have short := spacesAt_le reads reads.inside
  have split := runLength_add (fun c => !isBreak c) (text.drop (s.pos + base))
    (k := s.spacesAt s.pos - base) (fun i below => by
      rw [getD_drop, Nat.add_assoc, spacesAt_bytes reads s.pos (by omega)]
      rfl) (by rw [List.length_drop]; omega)
  rw [List.drop_drop, show s.pos + base + (s.spacesAt s.pos - base) = s.pos + s.spacesAt s.pos by
    omega] at split
  unfold scanToBreak
  omega

theorem contentLine_pos {base : Nat} (reads : s.Reads text) (deep : base ≤ s.spacesAt s.pos) :
    (s.pastContent base).pos = s.pos + base + scanToBreak (text.drop (s.pos + base)) := by
  have spaces : Moves text anyLine noEscape s (s.advanceCols (s.spacesAt s.pos)) :=
    spaces_moves reads (Nat.le_refl _)
  rw [Scanner.pastContent, advanceCols_twice deep, spaces_run reads base deep]
  change s.pos + s.spacesAt s.pos + scanToBreak (s.advanceCols (s.spacesAt s.pos)).rest = _
  rw [spaces.reads.rest_eq]
  rfl

variable (escapes) in
/-- A round of the copying pass over a line of spaces. -/
theorem copyBlock_spaces {base endPos fuel : Nat} {out : Bytes} {lines : List BlockLine}
    (reads : s.Reads text) (goesOn : ¬ endPos ≤ s.pos)
    (ends : isBreak (byteAt text (s.pos + s.spacesAt s.pos)) = true ∨
      endPos ≤ s.pos + s.spacesAt s.pos ∧ text.length ≤ s.pos + s.spacesAt s.pos) :
    ∃ q out' lines', (∀ lands : Nat → Prop, Moves text lands escapes s q) ∧
      q.pos = s.pos + s.spacesAt s.pos ∧
      Scanner.copyBlock base endPos (fuel + 1) s out lines = Scanner.copyBlock base endPos fuel
        (if !q.atEnd && isBreak q.peek then q.skipBreak else q) out' lines' := by
  have isLine : (decide (endPos ≤ s.pos + s.spacesAt s.pos) ||
      decide (s.pos + s.spacesAt s.pos < s.len) &&
        isBreak (s.byte (s.pos + s.spacesAt s.pos))) = true := by
    rw [reads.byte_eq, reads.len]
    rcases ends with isBr | ⟨ended, _⟩
    · rw [isBr, decide_eq_true (lt_length_of_isBreak isBr)]
      simp
    · simp [ended]
  rw [Scanner.copyBlock, if_neg goesOn]
  dsimp only
  rw [isLine]
  by_cases shallow : s.spacesAt s.pos ≤ base
  · rw [if_pos (by simp [shallow])]
    exact ⟨s.advanceCols (s.spacesAt s.pos), _, _, fun lands => spaces_moves reads (Nat.le_refl _),
      rfl, rfl⟩
  · have deep := Nat.le_of_not_le shallow
    have pos := contentLine_pos reads deep
    rw [if_neg (by simp [shallow]), if_neg (by simp)]
    refine ⟨_, _, _, fun lands => contentLine_moves reads deep, pos.trans ?_, rfl⟩
    -- nothing follows the spaces
    rw [spaces_run reads base deep]
    rcases ends with isBr | ⟨_, outside⟩
    · unfold scanToBreak
      rw [drop_eq_cons (lt_length_of_isBreak isBr), runLength, isBr]
      rfl
    · rw [List.drop_eq_nil_of_le outside]
      rfl

variable (escapes) in
/-- A round of the copying pass over a line with content. -/
theorem copyBlock_content {base endPos fuel : Nat} {out : Bytes} {lines : List BlockLine}
    (reads : s.Reads text) (goesOn : ¬ endPos ≤ s.pos) (deep : base ≤ s.spacesAt s.pos)
    (more : s.pos + s.spacesAt s.pos < endPos)
    (notBr : isBreak (byteAt text (s.pos + s.spacesAt s.pos)) = false) :
    ∃ q out' lines', (∀ lands : Nat → Prop, Moves text lands escapes s q) ∧
      q.pos = s.pos + base + scanToBreak (text.drop (s.pos + base)) ∧
      Scanner.copyBlock base endPos (fuel + 1) s out lines = Scanner.copyBlock base endPos fuel
        (if !q.atEnd && isBreak q.peek then q.skipBreak else q) out' lines' := by
  have isLine : (decide (endPos ≤ s.pos + s.spacesAt s.pos) ||
      decide (s.pos + s.spacesAt s.pos < s.len) &&
        isBreak (s.byte (s.pos + s.spacesAt s.pos))) = false := by
    rw [reads.byte_eq, notBr, decide_eq_false (Nat.not_le.mpr more)]
    simp
  rw [Scanner.copyBlock, if_neg goesOn]
  dsimp only
  rw [isLine, if_neg (by simp), if_neg (by simp [Nat.not_lt.mpr deep])]
  exact ⟨_, _, _, fun lands => contentLine_moves reads deep, contentLine_pos reads deep, rfl⟩

/-- The copying pass goes where the measuring pass went. -/
theorem copyBlock_moves {base endPos : Nat} {m : Scanner} (measures : m.Reads text) {fuel : Nat}
    {out : Bytes} {lines : List BlockLine} {mfuel needed n : Nat} (reads : s.Reads text)
    (measured : m.measureBlock base mfuel s.pos needed = some (endPos, n)) :
    Moves text
      (fun o => unmarked text o ∨ o = (Scanner.copyBlock base endPos fuel s out lines).1.pos)
      escapes s (Scanner.copyBlock base endPos fuel s out lines).1 := by
  induction fuel generalizing s out lines mfuel needed with
  | zero => exact .refl reads
  | succ fuel ih =>
      by_cases stop : endPos ≤ s.pos
      · rw [copyBlock_stop stop]
        exact .refl reads
      have goesOn : s.pos ≠ endPos := by omega
      -- past a line's content, its break is crossed to where measuring goes on
      have cross {q : Scanner} {out' : Bytes} {lines' : List BlockLine}
          (content : ∀ lands : Nat → Prop, Moves text lands escapes s q)
          (round : Scanner.copyBlock base endPos (fuel + 1) s out lines =
            Scanner.copyBlock base endPos fuel
              (if !q.atEnd && isBreak q.peek then q.skipBreak else q) out' lines')
          (next : isBreak (byteAt text q.pos) = true ∧ (∃ mfuel needed,
              m.measureBlock base mfuel (m.pastBreak q.pos) needed = some (endPos, n)) ∨
            text.length ≤ q.pos ∧ q.pos = endPos) :
          Moves text
            (fun o => unmarked text o ∨
              o = (Scanner.copyBlock base endPos (fuel + 1) s out lines).1.pos)
            escapes s (Scanner.copyBlock base endPos (fuel + 1) s out lines).1 := by
        have reads' := (content anyLine).reads
        rw [round, reads'.peek_eq]
        rcases next with ⟨isBr, mfuel, needed, goes⟩ | ⟨outside, ended⟩
        · have inside := lt_length_of_isBreak isBr
          have notEnd : q.atEnd = false := by
            rw [Bool.eq_false_iff]
            intro ended
            exact absurd (reads'.atEnd_iff.mp ended) (Nat.not_le.mpr inside)
          rw [notEnd, isBr]
          simp only [Bool.not_false, Bool.and_self, if_true]
          have landing : q.skipBreak.pos = breakStop text q.pos := by
            rw [Moves.skipBreak_eq reads' isBr]
          rw [pastBreak_eq measures isBr, ← landing] at goes
          have crossed : Moves text anyLine escapes q q.skipBreak :=
            .skipBreak reads' (reads'.peek_eq ▸ isBr) trivial
          have rest : Moves text _ escapes q.skipBreak
              (Scanner.copyBlock base endPos fuel q.skipBreak out' lines').1 :=
            ih crossed.reads goes
          refine (content _).trans (Moves.trans ?_ rest)
          refine .skipBreak reads' (reads'.peek_eq ▸ isBr) ?_
          rw [← landing]
          by_cases last : q.skipBreak.pos = endPos
          · right
            rw [copyBlock_stop (Nat.le_of_eq last.symm)]
          · exact .inl (measureBlock_unmarked measures goes last)
        · rw [byteAt_outside outside, show isBreak 0 = false from rfl, Bool.and_false]
          simp only [Bool.false_eq_true, if_false]
          rw [copyBlock_stop (Nat.le_of_eq ended.symm)]
          exact content _
      cases mfuel with
      | zero =>
          cases measured
          exact absurd rfl goesOn
      | succ mfuel =>
          have same : m.spacesAt s.pos = s.spacesAt s.pos := by
            rw [Scanner.spacesAt, Scanner.spacesAt, measures.buf, reads.buf]
          rw [Scanner.measureBlock, measures.len] at measured
          dsimp only at measured
          rw [same, measures.byte_eq, measures.buf] at measured
          split at measured
          · cases measured
            exact absurd rfl goesOn
          split at measured
          · -- the input ends after spaces
            rename_i outside
            cases measured
            obtain ⟨q, out', lines', content, pos, round⟩ :=
              copyBlock_spaces escapes reads stop (.inr ⟨Nat.le_refl _, outside⟩)
            exact cross content round (.inr ⟨pos ▸ outside, pos⟩)
          split at measured
          · rename_i isBr
            obtain ⟨q, out', lines', content, pos, round⟩ :=
              copyBlock_spaces escapes reads stop (.inl isBr)
            exact cross content round (.inl ⟨pos ▸ isBr, _, _, pos ▸ measured⟩)
          split at measured
          · cases measured
            exact absurd rfl goesOn
          split at measured
          · -- a line that is less indented
            split at measured
            · split at measured <;> cases measured
              exact absurd rfl goesOn
            · cases measured
              exact absurd rfl goesOn
          · -- a line with content
            rename_i inside notBr _ shallow
            have deep := Nat.le_of_not_lt shallow
            have long := spaces_run reads base deep
            have reach := le_measureBlock measured
            have past := le_pastBreak m (s.pos + base + scanToBreak (text.drop (s.pos + base)))
            have first : 0 < scanToBreak (text.drop (s.pos + s.spacesAt s.pos)) := by
              unfold scanToBreak
              rw [drop_eq_cons (Nat.not_le.mp inside), runLength, Bool.eq_false_iff.mpr notBr]
              exact Nat.succ_pos _
            obtain ⟨q, out', lines', content, pos, round⟩ :=
              copyBlock_content escapes reads stop deep (by omega)
                (Bool.eq_false_iff.mpr notBr)
            rw [← pos] at measured
            by_cases isBr : isBreak (byteAt text q.pos) = true
            · exact cross content round (.inl ⟨isBr, _, _, measured⟩)
            · have outside : text.length ≤ q.pos := by
                by_contra more
                have next := runLength_next (fun c => !isBreak c) (text.drop (s.pos + base))
                  (by
                    have : scanToBreak (text.drop (s.pos + base)) =
                      runLength (fun c => !isBreak c) (text.drop (s.pos + base)) := rfl
                    rw [List.length_drop]
                    omega)
                rw [getD_drop] at next
                change (!isBreak (byteAt text
                  (s.pos + base + scanToBreak (text.drop (s.pos + base))))) = false at next
                rw [← pos] at next
                simp [isBr] at next
              refine cross content round (.inr ⟨outside, ?_⟩)
              rw [pastBreak_end measures outside] at measured
              cases mfuel with
              | zero =>
                  cases measured
                  rfl
              | succ mfuel =>
                  rw [Scanner.measureBlock, measures.len, if_pos outside] at measured
                  cases measured
                  rfl

theorem blockHeader_moves {lands : Nat → Prop} {n : Nat} {chomp : Chomp} {explicitIndent : Nat}
    (reads : s.Reads text) :
    Moves text lands escapes s (s.blockHeader n chomp explicitIndent).1 := by
  induction n generalizing s chomp explicitIndent with
  | zero => exact .refl reads
  | succ n ih =>
      have one {chomp : Chomp} {explicitIndent : Nat} (plain : isBreak s.peek = false) :
          Moves text lands escapes s
            ((s.advance 1).blockHeader n chomp explicitIndent).1 := by
        have next : Moves text lands escapes s (s.advance 1) := .advance reads plain
        exact next.trans (ih next.reads)
      rw [Scanner.blockHeader]
      split
      · exact .refl reads
      rename_i plain
      simp only [Bool.or_eq_true, not_or, Bool.not_eq_true] at plain
      split
      · exact one plain.2
      split
      · exact one plain.2
      split
      · exact one plain.2
      · exact .refl reads

/-- A token whose last line may be entered at a document marker. -/
structure SpansLines (text : Bytes) (escapes : Nat → Prop) (start : Mark) (s : Scanner)
    (tok : Token) (s' : Scanner) : Prop where
  type : tok.type.inside = true
  start : tok.start = start
  stop : tok.stop = s'.mark
  moves : Moves text (fun o => unmarked text o ∨ o = s'.pos) escapes s s'

theorem Spans.lines {start : Mark} {tok : Token} (spans : Spans text escapes start s tok s') :
    SpansLines text escapes start s tok s' :=
  ⟨spans.type, spans.start, spans.stop, spans.moves.mono (fun _ => .inl) fun _ => id⟩

/-- A block scalar runs from its indicator to the end of its lines. -/
theorem scanBlockScalar_spans {start : Mark} {tok : Token} (reads : s.Reads text)
    (isBlock : isBreak s.peek = false) (notNul : s.peek ≠ 0)
    (ok : scanBlockScalar start s = .ok tok s') :
    SpansLines text escapes start s tok s' ∧ s.pos < s'.pos := by
  rw [scanBlockScalar, get_bind_eq, get_bind_eq] at ok
  have first {lands : Nat → Prop} : Moves text lands escapes s (s.advance 1) :=
    .advance reads isBlock
  have reads1 := (first : Moves text anyLine escapes s _).reads
  have header {lands : Nat → Prop} : Moves text lands escapes (s.advance 1)
      ((s.advance 1).blockHeader 2 .clip 0).1 := blockHeader_moves reads1
  generalize (s.advance 1).blockHeader 2 .clip 0 = found at header ok
  obtain ⟨q, chomp, explicitIndent⟩ := found
  dsimp only at header ok
  have blanks {lands : Nat → Prop} : Moves text lands escapes (s.advance 1)
      (q.advanceCols (skipBlanks q.rest)) :=
    header.trans (skipBlanks_moves (header : Moves text anyLine escapes _ _).reads)
  obtain ⟨_, q1, stored, rest⟩ := bind_eq_ok ok
  have isNext : q1 = q.advanceCols (skipBlanks q.rest) := by
    cases stored
    rfl
  rw [← isNext] at blanks rest
  split at rest
  · obtain ⟨_, _, failed, _⟩ := bind_eq_ok rest
    exact (scanError_ok failed).elim
  have comment {lands : Nat → Prop} : Moves text lands escapes (s.advance 1)
      (if !q1.atEnd && q1.peek == hash then q1.advanceCols (scanToBreak q1.rest) else q1) := by
    split
    · exact blanks.trans (.run (blanks : Moves text anyLine escapes _ _).reads
        fun c plain => by simpa using plain)
    · exact blanks
  generalize (if (!q1.atEnd && q1.peek == hash) = true
    then q1.advanceCols (scanToBreak q1.rest) else q1) = q2 at comment rest
  have reads2 := (comment : Moves text anyLine escapes _ _).reads
  obtain ⟨_, q2', stored2, rest⟩ := bind_eq_ok rest
  cases stored2
  split at rest
  · obtain ⟨_, _, failed, _⟩ := bind_eq_ok rest
    exact (scanError_ok failed).elim
  rename_i lineEnds
  obtain ⟨_, q3, stored3, rest⟩ := bind_eq_ok rest
  have isNext3 : q3 = q2.skipBreak := by
    cases stored3
    rfl
  rw [← isNext3] at rest
  -- the break after the header, or the end of the input
  have body {lands : Nat → Prop} (landed : lands q3.pos) :
      Moves text lands escapes (s.advance 1) q3 := by
    rw [isNext3]
    by_cases ended : q2.atEnd = true
    · have stuck : q2.skipBreak = q2 := by
        rw [Scanner.skipBreak, if_pos (by simpa [Scanner.atEnd] using ended)]
      rw [stuck]
      exact comment
    · have isBr : isBreak q2.peek = true := by simpa [ended] using lineEnds
      have landing : q2.skipBreak.pos = breakStop text q2.pos := by
        rw [Moves.skipBreak_eq reads2 (reads2.peek_eq ▸ isBr)]
      refine comment.trans (.skipBreak reads2 isBr ?_)
      rw [← landing, ← isNext3]
      exact landed
  have reads3 : q3.Reads text := (body trivial : Moves text anyLine escapes _ q3).reads
  have finish {base endPos n : Nat} {value : Bytes} {style : ScalarStyle}
      (measured : q3.measureBlock base (q3.remaining + 1) q3.pos 0 = some (endPos, n))
      (ok : (do
        set (Scanner.copyBlock base endPos (q3.remaining + 1) q3 [] []).1
        pure (tokScalar value style start
          (Scanner.copyBlock base endPos (q3.remaining + 1) q3 [] []).1.mark) : ScanM Token) q3 =
        .ok tok s') :
      SpansLines text escapes start s tok s' ∧ s.pos < s'.pos := by
    obtain ⟨_, q4, stored4, last⟩ := bind_eq_ok ok
    have copied : Moves text _ escapes q3
        (Scanner.copyBlock base endPos (q3.remaining + 1) q3 [] []).1 :=
      copyBlock_moves reads3 reads3 measured
    have isNext4 : s' = (Scanner.copyBlock base endPos (q3.remaining + 1) q3 [] []).1 := by
      cases last
      cases stored4
      rfl
    rw [← isNext4] at copied
    have whole : Moves text _ escapes (s.advance 1) s' := (body ?_).trans copied
    refine ⟨⟨?_, ?_, ?_, first.trans whole⟩, ?_⟩
    · cases last
      rfl
    · cases last
      rfl
    · rw [isNext4]
      cases last
      rfl
    · exact whole.past_first reads notNul
    · by_cases same : q3.pos = endPos
      · right
        rw [isNext4, copyBlock_stop (Nat.le_of_eq same.symm)]
      · exact .inl (measureBlock_unmarked reads3 measured same)
  split at rest
  · obtain ⟨base, q4, isBase, last⟩ := bind_eq_ok rest
    cases isBase
    generalize measured : q3.measureBlock _ (q3.remaining + 1) q3.pos 0 = found at last
    cases found with
    | none => exact (scanError_ok last).elim
    | some found => exact finish measured last
  cases detected : (q3.probeIndent (q3.remaining + 1) q3.pos 0).1 with
  | some li =>
      rw [detected] at rest
      dsimp only at rest
      split at rest
      · obtain ⟨_, _, failed, _⟩ := bind_eq_ok rest
        exact (scanError_ok failed).elim
      · obtain ⟨base, q4, isBase, last⟩ := bind_eq_ok rest
        cases isBase
        generalize measured : q3.measureBlock _ (q3.remaining + 1) q3.pos 0 = found at last
        cases found with
        | none => exact (scanError_ok last).elim
        | some found => exact finish measured last
  | none =>
      rw [detected] at rest
      dsimp only at rest
      obtain ⟨base, q4, isBase, last⟩ := bind_eq_ok rest
      cases isBase
      generalize measured : q3.measureBlock _ (q3.remaining + 1) q3.pos 0 = found at last
      cases found with
      | none => exact (scanError_ok last).elim
      | some found => exact finish measured last

end

end Oyl
