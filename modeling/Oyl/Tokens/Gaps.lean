import Oyl.Tokens.Scan

/-!
# The gaps between tokens

`skip_blanks_and_comments` passes blanks, comments and breaks to the first byte
of a token, or to the end of the text.
-/

namespace Oyl

open StateError

/-- The length of a gap: blanks, breaks and comments. -/
def gapLength (inComment : Bool) : Bytes → Nat
  | [] => 0
  | c :: rest =>
      if isBreak c then gapLength false rest + 1
      else if inComment || c == hash then gapLength true rest + 1
      else if isBlank c then gapLength false rest + 1
      else 0

/-- Where the gap at an offset ends. -/
def gapEnd (text : Bytes) (offset : Nat) : Nat := offset + gapLength false (text.drop offset)

/-- What tells a scanner whether a `:` is a value indicator. -/
def Scanner.flags (s : Scanner) : Nat × Bool := (s.flowLevel, s.lastWasQuoted)

/-- The gap before a token: no document marker starts a line in it. -/
structure Gap (text : Bytes) (s s' : Scanner) : Prop where
  stop : s'.pos = gapEnd text s.pos
  flags : s'.flags = s.flags
  moves : Moves text (fun o => unmarked text o ∨ o = s'.pos) noEscape s s'
  first : s.pos = s'.pos ∨ unmarked text s.pos
  last : text.length ≤ s'.pos ∨ s'.AtToken text

section

variable {text : Bytes} {s s' : Scanner}

/-! ### The length of a gap -/

theorem gapLength_run (inComment : Bool) {p : UInt8 → Bool}
    (passes : ∀ c rest, p c = true → gapLength inComment (c :: rest) = gapLength inComment rest + 1)
    (bytes : Bytes) :
    gapLength inComment bytes =
      runLength p bytes + gapLength inComment (bytes.drop (runLength p bytes)) := by
  induction bytes with
  | nil => rfl
  | cons c rest ih =>
      rw [runLength]
      split
      · rename_i isRun
        rw [passes c rest isRun, ih, List.drop_succ_cons]
        omega
      · rw [List.drop_zero, Nat.zero_add]

theorem gapEnd_eq {offset n : Nat}
    (passed : gapLength false (text.drop offset) =
      n + gapLength false (text.drop (offset + n))) :
    gapEnd text offset = gapEnd text (offset + n) := by
  rw [gapEnd, gapEnd, passed, Nat.add_assoc]

theorem gapEnd_blanks (offset : Nat) :
    gapEnd text offset = gapEnd text (offset + skipBlanks (text.drop offset)) := by
  apply gapEnd_eq
  rw [← List.drop_drop]
  refine gapLength_run false (p := isBlank) (fun c rest blank => ?_) _
  rw [gapLength, isBreak_of_isBlank blank, blank]
  simp only [Bool.false_or, Bool.false_eq_true, if_false, if_true]
  split
  · rename_i isHash
    rw [beq_iff_eq.mp isHash] at blank
    cases blank
  · rfl

/-- A comment ends at a break or at the end of the text. -/
theorem gapLength_ended {bytes : Bytes} (ended : bytes = [] ∨ isBreak (bytes.getD 0 0) = true) :
    gapLength true bytes = gapLength false bytes := by
  cases bytes with
  | nil => rfl
  | cons c rest =>
      have isBr : isBreak c = true := by simpa using ended
      rw [gapLength, if_pos isBr, gapLength, if_pos isBr]

theorem gapEnd_comment {offset : Nat} (isHash : byteAt text offset = hash) :
    gapEnd text offset = gapEnd text (offset + scanToBreak (text.drop offset)) := by
  apply gapEnd_eq
  have inside : offset < text.length := by
    by_contra outside
    rw [byteAt_outside (Nat.not_lt.mp outside)] at isHash
    cases isHash
  have starts : gapLength false (text.drop offset) = gapLength true (text.drop offset) := by
    rw [drop_eq_cons inside, isHash]
    rfl
  have run := gapLength_run true (p := fun c => !isBreak c) (fun c rest plain => by
    rw [Bool.not_eq_true'] at plain
    rw [gapLength, plain]
    rfl) (text.drop offset)
  rw [starts, run, ← List.drop_drop]
  change _ = scanToBreak _ + _
  rw [← gapLength_ended]
  · rfl
  · by_cases more : scanToBreak (text.drop offset) < (text.drop offset).length
    · right
      have next := runLength_next (fun c => !isBreak c) (text.drop offset) more
      change (!isBreak ((text.drop offset).getD (scanToBreak _) 0)) = false at next
      rw [List.drop_drop, getD_drop, Nat.add_zero]
      rw [getD_drop] at next
      exact (Bool.not_eq_false' _).mp next
    · left
      exact List.drop_eq_nil_of_le (Nat.not_lt.mp more)

theorem gapEnd_succ {offset : Nat} (isBr : isBreak (byteAt text offset) = true) :
    gapEnd text offset = gapEnd text (offset + 1) := by
  apply gapEnd_eq
  rw [drop_eq_cons (lt_length_of_isBreak isBr), gapLength, if_pos isBr]
  omega

theorem gapEnd_break {offset : Nat} (isBr : isBreak (byteAt text offset) = true) :
    gapEnd text offset = gapEnd text (breakStop text offset) := by
  rw [gapEnd_succ isBr, breakStop]
  split
  · rename_i both
    simp only [Bool.and_eq_true, beq_iff_eq] at both
    exact gapEnd_succ (by rw [both.2]; rfl)
  · rfl

theorem gapEnd_outside {offset : Nat} (outside : text.length ≤ offset) :
    gapEnd text offset = offset := by
  rw [gapEnd, List.drop_eq_nil_of_le outside]
  rfl

theorem Scanner.AtToken.gapEnd_eq (atToken : s.AtToken text) : gapEnd text s.pos = s.pos := by
  have notGap := atToken.notGap
  have notHash := atToken.notHash
  rw [atToken.reads.peek_eq] at notGap notHash
  rw [isBlankOrBreak, Bool.or_eq_false_iff] at notGap
  rw [gapEnd, drop_eq_cons atToken.inside, gapLength, notGap.1, notGap.2, Bool.false_or,
    beq_false_of_ne notHash]
  rfl

/-! ### Passing a gap -/

/-- The cursor passes a part of a gap, on one line. -/
structure InLine (text : Bytes) (s q : Scanner) : Prop where
  moves : ∀ lands, Moves text lands noEscape s q
  gapEnd : gapEnd text s.pos = gapEnd text q.pos
  flags : q.flags = s.flags
  first : q = s ∨ unmarked text s.pos

theorem InLine.refl (reads : s.Reads text) : InLine text s s :=
  ⟨fun _ => .refl reads, rfl, rfl, .inl rfl⟩

theorem InLine.reads {q : Scanner} (line : InLine text s q) : q.Reads text :=
  (line.moves anyLine).reads

theorem InLine.trans {q : Scanner} (line : InLine text s q) (more : InLine text q s') :
    InLine text s s' := by
  refine ⟨fun lands => (line.moves lands).trans (more.moves lands),
    line.gapEnd.trans more.gapEnd, more.flags.trans line.flags, ?_⟩
  rcases line.first with same | ready
  · exact same ▸ more.first
  · exact .inr ready

/-- The blanks at the cursor, and what is after them. -/
theorem blanks_inLine (reads : s.Reads text) {q : Scanner}
    (isNext : q = s.advanceCols (skipBlanks s.rest)) :
    InLine text s q ∧ isBlank q.peek = false := by
  have moves (lands : Nat → Prop) : Moves text lands noEscape s q := isNext ▸ skipBlanks_moves reads
  have pos : q.pos = s.pos + skipBlanks (text.drop s.pos) := by
    rw [isNext, reads.rest_eq]
    rfl
  refine ⟨⟨moves, ?_, isNext ▸ rfl, ?_⟩, ?_⟩
  · rw [pos, ← gapEnd_blanks]
  · by_cases none : skipBlanks s.rest = 0
    · left
      rw [isNext, none]
      rfl
    · right
      have blank := runLength_all isBlank s.rest (Nat.pos_of_ne_zero none)
      rw [reads.rest_eq, getD_drop] at blank
      exact unmarked_of_blankOrBreak (Bool.or_eq_true_iff.mpr (.inl blank))
  · rw [(moves anyLine).reads.peek_eq]
    by_cases inside : q.pos < text.length
    · have next := runLength_next isBlank (text.drop s.pos) (by
        rw [List.length_drop]
        change skipBlanks _ < _
        omega)
      change isBlank ((text.drop s.pos).getD (skipBlanks (text.drop s.pos)) 0) = false at next
      rw [getD_drop, ← pos] at next
      exact next
    · rw [byteAt_outside (Nat.not_lt.mp inside)]
      rfl

/-- A comment at the cursor, and what is after it. -/
theorem comment_inLine (reads : s.Reads text) {q : Scanner}
    (isNext : q = if s.peek == hash then s.advanceCols (scanToBreak s.rest) else s) :
    InLine text s q ∧ (q = s ∧ s.peek ≠ hash ∨ text.length ≤ q.pos ∨ isBreak q.peek = true) := by
  split at isNext
  · rename_i isHash
    have isHash := beq_iff_eq.mp isHash
    rw [reads.peek_eq] at isHash
    have moves (lands : Nat → Prop) : Moves text lands noEscape s q :=
      isNext ▸ .run reads fun c plain => by simpa using plain
    have pos : q.pos = s.pos + scanToBreak (text.drop s.pos) := by
      rw [isNext, reads.rest_eq]
      rfl
    refine ⟨⟨moves, ?_, isNext ▸ rfl, .inr ?_⟩, .inr ?_⟩
    · rw [pos, ← gapEnd_comment isHash]
    · apply unmarked_of_byte <;> rw [isHash] <;> decide
    · by_cases inside : q.pos < text.length
      · right
        have next := runLength_next (fun c => !isBreak c) (text.drop s.pos) (by
          rw [List.length_drop]
          change scanToBreak _ < _
          omega)
        change (!isBreak ((text.drop s.pos).getD (scanToBreak (text.drop s.pos)) 0)) = false at next
        rw [getD_drop, ← pos] at next
        rw [(moves anyLine).reads.peek_eq]
        exact (Bool.not_eq_false' _).mp next
      · exact .inl (Nat.not_lt.mp inside)
  · rename_i notHash
    subst isNext
    exact ⟨.refl reads, .inl ⟨rfl, by simpa using notHash⟩⟩

theorem skipBlankLines_gap {lineStart a : Option Nat} {fuel : Nat} (reads : s.Reads text)
    (enough : text.length - s.pos < fuel) (ok : skipBlankLines lineStart fuel s = .ok a s') :
    Gap text s s' := by
  induction fuel generalizing s lineStart with
  | zero => cases enough
  | succ fuel ih =>
      rw [skipBlankLines, get_bind_eq] at ok
      dsimp only at ok
      obtain ⟨_, q1, stored, rest⟩ := bind_eq_ok ok
      have isNext1 : q1 = s.advanceCols (skipBlanks s.rest) := by
        cases stored
        rfl
      rw [← isNext1] at rest
      obtain ⟨blanks, notBlank⟩ := blanks_inLine reads isNext1
      split at rest
      · obtain ⟨_, _, failed, _⟩ := bind_eq_ok rest
        exact (scanError_ok failed).elim
      obtain ⟨_, q2, stored2, rest⟩ := bind_eq_ok rest
      have isNext2 : q2 = if q1.peek == hash then q1.advanceCols (scanToBreak q1.rest) else q1 := by
        cases stored2
        rfl
      rw [← isNext2] at rest
      obtain ⟨comment, last⟩ := comment_inLine blanks.reads isNext2
      have line := blanks.trans comment
      split at rest
      · rename_i isBr
        obtain ⟨_, q3, stored3, rest⟩ := bind_eq_ok rest
        have isNext3 : q3 = q2.skipBreak := by
          cases stored3
          rfl
        rw [← isNext3] at rest
        have isBr' := isBr
        rw [line.reads.peek_eq] at isBr'
        have crossed := Moves.skipBreak_eq line.reads isBr'
        have pos : q3.pos = breakStop text q2.pos := by rw [isNext3, crossed]
        have cross {lands : Nat → Prop} (landed : lands q3.pos) :
            Moves text lands noEscape q2 q3 :=
          isNext3 ▸ .skipBreak line.reads isBr (pos ▸ landed)
        have reads3 := (cross trivial : Moves text anyLine noEscape q2 q3).reads
        have further : s.pos < q3.pos := by
          have := (line.moves anyLine).pos_le
          rcases breakStop_cases isBr' with ⟨stop, _⟩ | ⟨stop, _⟩ <;> omega
        have below := reads3.inside
        have after := ih reads3 (by omega) rest
        have flags : q3.flags = q2.flags := by
          rw [isNext3, crossed]
          rfl
        refine ⟨?_, (after.flags.trans flags).trans line.flags,
          ((line.moves _).trans (cross ?_)).trans after.moves, .inr ?_, after.last⟩
        · rw [after.stop, line.gapEnd, gapEnd_break isBr', pos]
        · rcases after.first with same | ready
          · exact .inr same
          · exact .inl ready
        · rcases line.first with same | ready
          · rw [same] at isBr'
            exact unmarked_of_blankOrBreak (Bool.or_eq_true_iff.mpr (.inr isBr'))
          · exact ready
      · rename_i notBreak
        obtain rfl : q2 = s' := by
          cases rest
          rfl
        have ended : text.length ≤ q2.pos ∨ q2.AtToken text := by
          by_cases inside : q2.pos < text.length
          · right
            rcases last with ⟨same, notHash⟩ | outside | isBr
            · subst same
              refine ⟨line.reads, inside, ?_, notHash⟩
              rw [isBlankOrBreak, notBlank, Bool.eq_false_iff.mpr notBreak]
              rfl
            · omega
            · exact absurd isBr notBreak
          · exact .inl (Nat.not_lt.mp inside)
        refine ⟨?_, line.flags, line.moves _, ?_, ended⟩
        · rw [line.gapEnd]
          rcases ended with outside | atToken
          · exact (gapEnd_outside outside).symm
          · exact atToken.gapEnd_eq.symm
        · rcases line.first with same | ready
          · exact .inl (same ▸ rfl)
          · exact .inr ready

/-- `skip_blanks_and_comments` -/
theorem skipBlanksAndComments_gap {a : Unit} (reads : s.Reads text)
    (ok : skipBlanksAndComments s = .ok a s') : Gap text s s' := by
  rw [skipBlanksAndComments, get_bind_eq] at ok
  obtain ⟨lineStart, q, skipped, rest⟩ := bind_eq_ok ok
  have gap : Gap text s q := by
    apply skipBlankLines_gap reads _ skipped
    rw [Scanner.remaining, reads.len]
    exact Nat.lt_succ_self _
  rw [get_bind_eq] at rest
  cases lineStart with
  | none =>
      cases rest
      exact gap
  | some lineStart =>
      dsimp only at rest
      split at rest
      · cases rest
        exact gap
      split at rest
      · obtain ⟨_, _, failed, _⟩ := bind_eq_ok rest
        exact (scanError_ok failed).elim
      split at rest
      · exact (scanError_ok rest).elim
      · cases rest
        exact gap

end

end Oyl
