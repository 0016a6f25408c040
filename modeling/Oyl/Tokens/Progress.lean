import Oyl.Tokens.Stacks

/-!
# Progress of the tokenizer

Every token moves the cursor, except the empty plain scalar that is read at a
`:` right before an opening bracket in a flow collection.
-/

namespace Oyl

open StateError

/-- A token that moves the cursor, with its marks in order. -/
structure Advances (text : Bytes) (toks : List Token) (s : Scanner) (tok : Token)
    (s' : Scanner) : Prop where
  forward : s.pos < s'.pos
  chained : ∀ prev ∈ toks.getLast?, prev.stop.offset ≤ tok.start.offset
  ordered : tok.start.offset ≤ tok.stop.offset
  inside : tok.stop.offset ≤ text.length

section

variable {text : Bytes} {allowed : Scanner → Prop} {s s' q : Scanner} {tok : Token}
  {toks : List Token}

theorem ScanStep.stop_offset (step : ScanStep text s tok s') : tok.stop.offset = s'.pos := by
  cases step with
  | streamStart _ isTok isNext =>
      subst isTok isNext
      rfl
  | atEnd _ _ _ isTok alike =>
      subst isTok
      exact alike.pos.symm
  | token _ _ atToken ok =>
      obtain ⟨at', _⟩ := scanAtToken_at atToken ok
      rw [at'.spans.stop]
      rfl

theorem ScanStep.start_offset (step : ScanStep text s tok s') :
    s.pos ≤ tok.start.offset ∧ tok.start.offset ≤ tok.stop.offset := by
  rw [step.stop_offset]
  cases step with
  | streamStart _ isTok isNext =>
      subst isTok isNext
      exact ⟨Nat.le_refl _, Nat.le_refl _⟩
  | atEnd _ gap _ isTok alike =>
      subst isTok
      exact ⟨gap.moves.pos_le, Nat.le_of_eq alike.pos.symm⟩
  | token _ gap atToken ok =>
      obtain ⟨at', _⟩ := scanAtToken_at atToken ok
      rw [at'.spans.start]
      exact ⟨gap.moves.pos_le, at'.spans.moves.pos_le⟩

/-- The last token of a run ends where its scanner is. -/
theorem Scanned.last_stop (run : Scanned text allowed toks s) :
    ∀ prev ∈ toks.getLast?, prev.stop.offset = s.pos := by
  cases run with
  | new => exact fun _ member => nomatch member
  | token before _ ok =>
      intro prev isLast
      rw [List.getLast?_concat] at isLast
      cases isLast
      exact (scanToken_step before.between ok).stop_offset

/-- A gap that is empty leaves a stall as it is. -/
theorem Gap.stalls (gap : Gap text s q) (reads : s.Reads text) (here : q.pos = s.pos) :
    q.stalls = s.stalls := by
  obtain ⟨flowLevel, lastWasQuoted⟩ := Prod.mk.inj gap.flags
  simp only [Scanner.stalls, flowLevel, lastWasQuoted, gap.moves.reads.peek_eq,
    gap.moves.reads.peekAt_eq, reads.peek_eq, reads.peekAt_eq, here]

/-- There is no gap before a stall. -/
theorem Gap.stop_of_stalls (gap : Gap text s q) (reads : s.Reads text) (stalls : s.stalls = true) :
    q.pos = s.pos := by
  simp only [Scanner.stalls, Bool.and_eq_true, beq_iff_eq] at stalls
  have isColon := stalls.1.2
  rw [reads.peek_eq] at isColon
  have inside : s.pos < text.length := by
    by_contra outside
    rw [byteAt_outside (Nat.not_lt.mp outside)] at isColon
    cases isColon
  rw [gap.stop, gapEnd, drop_eq_cons inside, isColon]
  rfl

/-- A token moves the cursor exactly if it does not stall. -/
theorem ScanStep.forward_iff (step : ScanStep text s tok s') (reads : s.Reads text)
    (inside : tok.type.inside = true) : s.pos < s'.pos ↔ s.stalls = false := by
  cases step with
  | streamStart _ isTok =>
      subst isTok
      cases inside
  | atEnd _ _ _ isTok =>
      subst isTok
      dsimp only [tokSimple] at inside
      split at inside <;> cases inside
  | @token q _ gap atToken ok =>
      obtain ⟨_, ⟨stuck, goes⟩, _⟩ := scanAtToken_at atToken ok
      have before := gap.moves.pos_le
      constructor
      · intro forward
        cases stalls : s.stalls with
        | false => rfl
        | true =>
            have here := gap.stop_of_stalls reads stalls
            have := stuck ((gap.stalls reads here).trans stalls)
            omega
      · intro notStalls
        by_cases here : q.pos = s.pos
        · have := goes ((gap.stalls reads here).trans notStalls)
          omega
        · obtain ⟨at', _⟩ := scanAtToken_at atToken ok
          have := at'.spans.moves.pos_le
          omega

/-- A reachable state advances exactly if it does not stall. -/
theorem Scanned.advances_iff (run : Scanned text allowed toks s) (ok : scanToken s = .ok tok s')
    (inside : tok.type.inside = true) :
    Advances text toks s tok s' ↔ s.stalls = false := by
  have step := scanToken_step run.between ok
  constructor
  · exact fun advances => (step.forward_iff run.between.reads inside).mp advances.forward
  · intro notStalls
    refine ⟨(step.forward_iff run.between.reads inside).mpr notStalls, ?_, step.start_offset.2, ?_⟩
    · intro prev isLast
      rw [run.last_stop prev isLast]
      exact step.start_offset.1
    · rw [step.stop_offset]
      exact (step.between run.between).reads.inside

/-- The tokens that a text has before its end. -/
theorem Scanned.length_le (run : Scanned text (·.stalls = false) toks s) :
    (s.streamEnded = true → ∃ tok ∈ toks, tok.type = .streamEnd) ∧
    ((∀ tok ∈ toks, tok.type ≠ .streamEnd) →
      toks.length ≤ s.pos + if s.streamStarted then 1 else 0) := by
  induction run with
  | new => exact ⟨fun ended => absurd ended Bool.false_ne_true, fun _ => Nat.zero_le _⟩
  | @token toks s s' tok before notStalls ok ih =>
      obtain ⟨ended, short⟩ := ih
      have step := scanToken_step before.between ok
      have earlier (found : ∃ tok ∈ toks, tok.type = .streamEnd) :
          ∃ tok' ∈ toks ++ [tok], tok'.type = .streamEnd := by
        obtain ⟨tok', member, isEnd⟩ := found
        exact ⟨tok', List.mem_append_left _ member, isEnd⟩
      have last : tok ∈ toks ++ [tok] := List.mem_append_right _ (List.mem_singleton.mpr rfl)
      have before' (none : ∀ tok' ∈ toks ++ [tok], tok'.type ≠ .streamEnd) :
          toks.length ≤ s.pos + if s.streamStarted then 1 else 0 :=
        short fun tok' member => none tok' (List.mem_append_left _ member)
      have length : (toks ++ [tok]).length = toks.length + 1 := List.length_append
      cases step with
      | streamStart fresh isTok isNext =>
          subst isNext
          refine ⟨fun isEnded => earlier (ended isEnded), fun none => ?_⟩
          have := before' none
          rw [fresh] at this
          rw [length]
          exact Nat.succ_le_succ this
      | atEnd _ _ _ isTok =>
          by_cases isEnded : s.streamEnded = true
          · exact ⟨fun _ => earlier (ended isEnded), fun none =>
              absurd (earlier (ended isEnded)) fun ⟨tok', member, isEnd⟩ => none tok' member isEnd⟩
          · have isEnd : tok.type = .streamEnd := by
              rw [isTok, if_neg isEnded]
              rfl
            exact ⟨fun _ => ⟨tok, last, isEnd⟩, fun none => absurd isEnd (none tok last)⟩
      | token started gap atToken ok' =>
          obtain ⟨at', _⟩ := scanAtToken_at atToken ok'
          have settings : s'.settings = s.settings :=
            at'.spans.moves.settings.trans gap.moves.settings
          have streamStarted : s'.streamStarted = true :=
            (congrArg (fun settings => settings.2.2.1) settings).trans started
          have streamEnded : s'.streamEnded = s.streamEnded :=
            congrArg (fun settings => settings.2.2.2) settings
          refine ⟨fun isEnded => earlier (ended (streamEnded ▸ isEnded)), fun none => ?_⟩
          have forward := ((scanToken_step before.between ok).forward_iff before.between.reads
            at'.spans.type).mpr notStalls
          have := before' none
          rw [if_pos started] at this
          rw [length, if_pos streamStarted]
          omega

/-- No column of a run is past its offset. -/
theorem Scanned.col_le (run : Scanned text allowed toks s) : s.col ≤ s.pos + 1 := by
  induction run with
  | new => exact Nat.le_add_left 1 _
  | @token toks s s' tok before _ ok ih =>
      have step := scanToken_step before.between ok
      cases step with
      | streamStart _ _ isNext =>
          subst isNext
          exact ih
      | atEnd _ gap _ _ alike =>
          change s'.mark.col ≤ s'.mark.offset + 1
          rw [alike.mark]
          exact gap.moves.path.col_le ih
      | token _ gap atToken ok =>
          obtain ⟨at', _⟩ := scanAtToken_at atToken ok
          exact at'.spans.moves.path.col_le (gap.moves.path.col_le ih)

/-- In a text of this length a column is the same as an `int`, and the indentation is
unrolled to it with levels left on the stack. -/
theorem Scanned.unrolls (run : Scanned text allowed toks s) (short : (text.length : Int) < intMax)
    {a : Unit} (skipped : skipBlanksAndComments s = .ok a q) :
    asInt q.col - 1 = q.column ∧ ∀ col, -1 ≤ col → (q.unrollIndents col).indent ≤ col := by
  have gap := skipBlanksAndComments_gap run.between.reads skipped
  have within : q.col ≤ q.pos + 1 := gap.moves.path.col_le run.col_le
  have inside := gap.moves.reads.inside
  have sound := Triple.ok skipBlanksAndComments_keeps run.sound skipped
  refine ⟨?_, fun col least => sound.unrollIndents_le least⟩
  rw [asInt_of_le (by omega), Scanner.column]

/-- Reading a text advances in every state that does not stall, and ends if none does. -/
theorem scanner_progress (text : Bytes) (short : (text.length : Int) < intMax) :
    (∀ toks s q, Scanned text (fun _ => True) toks s → skipBlanksAndComments s = .ok () q →
      asInt q.col - 1 = q.column ∧ ∀ col, -1 ≤ col → (q.unrollIndents col).indent ≤ col) ∧
    (∀ toks s tok s', Scanned text (fun _ => True) toks s → scanToken s = .ok tok s' →
      tok.type.inside = true → (Advances text toks s tok s' ↔ s.stalls = false)) ∧
    ∀ toks s, Scanned text (·.stalls = false) toks s → (∀ tok ∈ toks, tok.type ≠ .streamEnd) →
      toks.length ≤ text.length + 1 := by
  refine ⟨fun toks s q run skipped => run.unrolls short skipped, ?_, ?_⟩
  · intro toks s tok s' run ok inside
    exact run.advances_iff ok inside
  · intro toks s run none
    have short := run.length_le.2 none
    have inside := run.between.reads.inside
    split at short <;> omega

end

/-- `[a: b]` -/
def flowPair : Bytes := [lbracket, 0x61, colon, space, 0x62, rbracket]

theorem scanner_progress_flowPair :
    ∃ toks s, Scanned flowPair (·.stalls = false) toks s ∧ toks.length = 6 ∧
      toks.length ≤ flowPair.length + 1 := by
  obtain ⟨toks, s, run, length, none⟩ := exists_scanned flowPair (·.stalls = false) 6
    (fun toks => toks.length = 6 ∧ ∀ tok ∈ toks, tok.type ≠ .streamEnd) (by decide +kernel)
  exact ⟨toks, s, run, length, (scanner_progress flowPair (by decide)).2.2 toks s run none⟩

/-- `[:[` -/
def flowColon : Bytes := [lbracket, colon, lbracket]

/-- The scalar at the `:` is empty, and so is every one after it. -/
theorem scanner_stalls_flowColon :
    ∃ toks s tok s', Scanned flowColon (fun _ => True) toks s ∧ scanToken s = .ok tok s' ∧
      tok.type.inside = true ∧ s'.pos = s.pos ∧ ¬Advances flowColon toks s tok s' := by
  have first : Scanned flowColon (fun _ => True) [] (Scanner.new flowColon) := .new
  have run := (first.token trivial rfl).token trivial rfl
  refine ⟨_, _, _, _, run, rfl, rfl, rfl, fun advances => ?_⟩
  exact absurd advances.forward (Nat.lt_irrefl 1)

end Oyl
