import Oyl.Events.StepFrame
import Oyl.Fallback.Signature

/-!
# The queue of the incremental parser

A step queues its events in a buffer of eight.  Every step starts with the buffer
empty and queues at most three, so that none is dropped for want of room: the flag that
an event without room sets is never set.
-/

namespace Oyl

open StateError

/-- The parser stays incremental, accounts for what was delivered, and drops no event. -/
structure Parser.Onward (p q : Parser) : Prop where
  returns : p.Returns → q.Returns
  kept : q.dropped = p.dropped
  incremental : q.incremental = p.incremental
  accounts : ∀ delivered, p.Accounts delivered → q.Accounts delivered

theorem Parser.Onward.of_audit {p q : Parser} (returns : p.Returns → q.Returns)
    (same : q.audit = p.audit) (kept : q.dropped = p.dropped := by rfl) : p.Onward q :=
  ⟨returns, kept, congrArg Audit.incremental same, fun _ => .congr same⟩

theorem Parser.Onward.trans {p q r : Parser} (first : p.Onward q) (second : q.Onward r) :
    p.Onward r :=
  ⟨fun returns => second.returns (first.returns returns), second.kept.trans first.kept,
    second.incremental.trans first.incremental,
    fun delivered accounts => second.accounts delivered (first.accounts delivered accounts)⟩

/-- `x` queues at most `n` events, and drops none where there is room for them. -/
def Queues (n : Nat) {α : Type} (x : ParseM α) : Prop :=
  ∀ p, p.Returns → p.outBuf.length + n ≤ 8 →
    (after x p).outBuf.length ≤ p.outBuf.length + n ∧ p.Onward (after x p)

/-- The queue, and whether an event was dropped from it. -/
def Parser.queue (p : Parser) : List Event × Bool := (p.outBuf, p.dropped)

/-- Nothing is queued, and the parser returns where it would have. -/
def Parser.Unqueued (p q : Parser) : Prop :=
  q.queue = p.queue ∧ (p.Returns → q.Returns) ∧ q.audit = p.audit

namespace Parser.Unqueued

variable {p q : Parser}

theorem outBuf (unqueued : p.Unqueued q) : q.outBuf = p.outBuf :=
  congrArg Prod.fst unqueued.1

theorem onward (unqueued : p.Unqueued q) : p.Onward q :=
  .of_audit unqueued.2.1 unqueued.2.2 (congrArg Prod.snd unqueued.1)

end Parser.Unqueued

theorem Parser.unqueued_preorder : Preorder Parser.Unqueued where
  refl _ := ⟨rfl, id, rfl⟩
  trans first second := ⟨second.1.trans first.1,
    fun returns => second.2.1 (first.2.1 returns), second.2.2.trans first.2.2⟩

namespace Queues

variable {α β : Type} {m n : Nat}

theorem weaken {x : ParseM α} (le : m ≤ n) (queues : Queues m x) : Queues n x := by
  intro p returns room
  obtain ⟨length, onward⟩ := queues p returns (by omega)
  exact ⟨by omega, onward⟩

/-- A computation that queues nothing, from any state. -/
theorem quiet {x : ParseM α} (unqueued : Respects Parser.Unqueued x) : Queues 0 x := by
  intro p _ _
  refine ⟨?_, (unqueued p).onward⟩
  rw [(unqueued p).outBuf]
  exact Nat.le_refl _

theorem bind {x : ParseM α} {f : α → ParseM β} (first : Queues m x)
    (rest : ∀ a, Queues n (f a)) : Queues (m + n) (x >>= f) := by
  intro p returns room
  obtain ⟨length, onward⟩ := first p returns (by omega)
  cases result : x p with
  | ok a p' =>
      rw [after_ok result] at length onward
      obtain ⟨last, onward'⟩ := rest a p' (onward.returns returns) (by omega)
      have same : after (x >>= f) p = after (f a) p' := by
        rw [after, run_bind, result, after]
      rw [same]
      exact ⟨by omega, onward.trans onward'⟩
  | error e p' =>
      rw [after_error result] at length onward
      rw [after_error (run_bind_error result)]
      exact ⟨by omega, onward⟩

theorem read {f : Parser → ParseM α} (queues : ∀ p, Queues n (f p)) :
    Queues n (get >>= f) := by
  intro p
  exact queues p p

theorem pure (a : α) : Queues 0 (Pure.pure a : ParseM α) :=
  .quiet fun p => Parser.unqueued_preorder.refl p

theorem error (msg : String) : Queues 0 (parseError msg : ParseM α) :=
  .quiet fun _ => ⟨rfl, id, rfl⟩

theorem update {u : Parser → Parser} (neutral : Neutral u) : Queues 0 (modify u) := by
  refine .quiet fun p => ⟨?_, neutral.returns p, (neutral.counts p).2⟩
  change (u p).queue = p.queue
  rw [neutral.output p]
  rfl

theorem peek_unqueued : Respects Parser.Unqueued peekToken := by
  intro p
  rw [after, peekToken, get_bind_eq]
  by_cases held : p.haveToken = true
  · rw [if_pos held]
    exact Parser.unqueued_preorder.refl p
  · rw [if_neg held]
    cases scanToken p.scanner with
    | ok tok scanner => exact ⟨rfl, id, rfl⟩
    | error st scanner =>
        let reported : Parser := if scanner.errorMsg == "" then { p with scanner := scanner }
          else { p with
            scanner := scanner, errorMsg := scanner.errorMsg, errorMark := scanner.errorMark }
        have kept : Parser.Unqueued p reported := by
          dsimp only [reported]
          split <;> exact ⟨rfl, id, rfl⟩
        exact ⟨kept.1, kept.2.1, kept.2.2⟩

theorem peekQuiet : Queues 0 Oyl.peekQuiet := by
  refine .quiet fun p => ?_
  have same : after Oyl.peekQuiet p = after peekToken p := by
    rw [after, after, Oyl.peekQuiet]
    cases peekToken p with
    | ok a q => rfl
    | error e q => cases e <;> rfl
  rw [same]
  exact peek_unqueued p

theorem attach_unqueued (evt : Event) : Respects Parser.Unqueued (attachProps evt) :=
  fun _ => ⟨rfl, id, rfl⟩

theorem props_logic : PropsLogic (Respects Parser.Unqueued) where
  toCompositional := Respects.compositional Parser.unqueued_preorder
  error _ _ := fun _ => ⟨rfl, id, rfl⟩
  read _ _ rest := .getBind fun p => rest p p
  peek := peek_unqueued
  hold u update := by
    refine .modify fun p => ?_
    rw [update.props p]
    exact ⟨rfl, id, rfl⟩

theorem stopWith_unqueued (p : Parser) (st : Status) (msg : String) :
    p.Unqueued (p.stopWith st msg) := by
  rw [Parser.stopWith]
  split <;> exact ⟨rfl, id, rfl⟩

/-- The event limit stops the parser before anything is queued. -/
theorem hitLimit_onward (p : Parser) (msg : String) :
    (p.hitLimit msg).outBuf.length ≤ p.outBuf.length + 1 ∧ p.Onward (p.hitLimit msg) := by
  have unqueued := stopWith_unqueued p .limit msg
  rw [Parser.hitLimit, unqueued.outBuf]
  exact ⟨Nat.le_succ _, unqueued.onward⟩

theorem emit (evt : Event) : Queues 1 (incEmit evt) := by
  intro p _ room
  have same : after (incEmit evt) p =
      if p.incOverLimit then p.hitLimit "event limit exceeded"
      else if p.outBuf.length < 8 then { p with outBuf := p.outBuf ++ [evt] }
      else { p with dropped := true } := rfl
  rw [same]
  split
  · exact hitLimit_onward p _
  · rw [if_pos (by omega)]
    exact ⟨Nat.le_of_eq List.length_append, .of_audit id rfl⟩

theorem scalarToken : Queues 1 incEmitScalarToken := by
  intro p _ room
  cases limited : p.incOverLimit with
  | true =>
      have run : incEmitScalarToken p = .ok () (p.hitLimit "event limit exceeded") := by
        rw [incEmitScalarToken, get_bind_eq, if_pos limited]
        rfl
      rw [after_ok run]
      exact hitLimit_onward p _
  | false =>
      obtain ⟨evt, p', attached⟩ : ∃ evt p', attachProps (p.nodeEvent .scalar) p = .ok evt p' :=
        ⟨_, _, rfl⟩
      have unqueued := attach_unqueued (p.nodeEvent .scalar) p
      rw [after_ok attached] at unqueued
      have run : incEmitScalarToken p =
          .ok () { p' with outBuf := p'.outBuf ++ [evt], haveToken := false } := by
        rw [incEmitScalarToken, get_bind_eq, limited, if_neg Bool.noConfusion,
          if_pos (by omega), run_bind_ok attached]
        rfl
      rw [after_ok run]
      refine ⟨?_, .of_audit unqueued.2.1 unqueued.2.2 (congrArg Prod.snd unqueued.1)⟩
      rw [List.length_append, unqueued.outBuf]
      exact Nat.le_refl _

/-- Withholding a collection's start makes the queue shorter. -/
theorem withholdStart_onward (p : Parser) :
    p.withholdStart.outBuf.length ≤ p.outBuf.length ∧ p.Onward p.withholdStart := by
  rw [Parser.withholdStart]
  dsimp only
  split
  · split
    · exact ⟨List.length_take_le' _ _, .of_audit id rfl⟩
    · exact ⟨Nat.le_refl _, .of_audit id rfl⟩
  · exact ⟨Nat.le_refl _, .of_audit id rfl⟩

theorem pushFrame (type : CtxType) (indent : Int) {returnState : PState}
    (stays : returnState ≠ .eagerDrain) : Queues 0 (incPushFrame type indent returnState) := by
  intro p _ _
  rw [incPushFrame, after, run_modify]
  dsimp only
  split
  · have stopped := stopWith_unqueued p .parse "block collection cannot start on the '---' line"
    rw [stopped.outBuf]
    exact ⟨Nat.le_refl _, stopped.onward⟩
  split
  · obtain ⟨shorter, onward⟩ := withholdStart_onward p
    have stopped := stopWith_unqueued p.withholdStart .limit "nesting depth limit exceeded"
    rw [Parser.hitLimit, stopped.outBuf]
    exact ⟨shorter, onward.trans stopped.onward⟩
  · refine ⟨Nat.le_refl _, .of_audit (fun returns => ⟨returns.1, returns.2.1, ?_⟩) rfl⟩
    intro frame member
    rcases List.mem_cons.mp member with rfl | older
    · exact stays
    · exact returns.2.2 frame older

theorem popFrame {f : Frame → ParseM Unit}
    (rest : ∀ frame, frame.returnState ≠ .eagerDrain → Queues n (f frame)) :
    Queues n (incPopFrame >>= f) := by
  intro p returns room
  have popped : ∃ frame frames, incPopFrame p = .ok frame { p with frames := frames } ∧
      frame.returnState ≠ .eagerDrain ∧ ({ p with frames := frames } : Parser).Returns := by
    obtain ⟨node, unroll, inner⟩ := returns
    rcases opened : p.frames with _ | ⟨frame, frames⟩
    · refine ⟨⟨.blockMap, -1, .done⟩, p.frames, ?_, PState.noConfusion, node, unroll, inner⟩
      rw [incPopFrame, get_bind_eq]
      simp only [opened]
      rw [← opened]
      rfl
    · rw [opened] at inner
      refine ⟨frame, frames, ?_, inner frame List.mem_cons_self, node, unroll,
        fun other member => inner other (List.mem_cons_of_mem _ member)⟩
      rw [incPopFrame, get_bind_eq]
      simp only [opened]
      rfl
  obtain ⟨frame, frames, pop, stays, kept⟩ := popped
  have same : after (incPopFrame >>= f) p = after (f frame) { p with frames := frames } := by
    rw [after, run_bind, pop, after]
  obtain ⟨length, onward⟩ := rest frame stays { p with frames := frames } kept room
  rw [same]
  exact ⟨length, .trans (.of_audit (fun _ => kept) rfl) onward⟩

theorem checkOom : Queues 0 Oyl.checkOom := by
  refine .quiet fun p => ?_
  rw [Oyl.checkOom, after, get_bind_eq]
  cases p.oom <;> exact Parser.unqueued_preorder.refl p

theorem checkpoint : Queues 0 incCheckpoint := by
  have saved (p : Parser) : (after incCheckpoint p).queue = p.queue ∧
      (p.Returns → (after incCheckpoint p).Returns) ∧
      (after incCheckpoint p).incremental = p.incremental := by
    rw [incCheckpoint, after, run_modify]
    dsimp only
    split
    · exact ⟨rfl, id, rfl⟩
    split <;> exact ⟨rfl, id, rfl⟩
  intro p _ _
  obtain ⟨queue, returns, incremental⟩ := saved p
  refine ⟨Nat.le_of_eq (congrArg (·.1.length) queue), returns, congrArg Prod.snd queue,
    incremental, fun delivered accounts => ?_⟩
  · obtain ⟨before, since, whole, has⟩ := accounts
    have done : incCheckpoint p = .ok () (after incCheckpoint p) := rfl
    rcases has.checkpoint done with same | moved
    · exact ⟨before, since, whole, same⟩
    · exact ⟨before ++ since, [], by rw [List.append_nil, whole], moved⟩

/-- A first part that queues nothing. -/
theorem andThen {x : ParseM α} {f : α → ParseM β} (first : Queues 0 x)
    (rest : ∀ a, Queues n (f a)) : Queues n (x >>= f) :=
  weaken (Nat.le_of_eq (Nat.zero_add n)) (bind first rest)

/-! ### The steps with rules of their own -/

theorem setState (state : PState) : Queues 0 (setState state) :=
  .quiet fun _ => ⟨rfl, id, rfl⟩

theorem consume : Queues 0 consumeToken :=
  .quiet fun _ => ⟨rfl, id, rfl⟩

theorem returnNode : Queues 0 Oyl.returnNode :=
  .quiet fun _ => ⟨rfl, id, rfl⟩

theorem peekType : Queues 0 Oyl.peekType :=
  andThen (.quiet peek_unqueued) fun _ => read fun _ => pure _

theorem flowSep (inSeq : Bool) : Queues 0 (incFlowSep inSeq) :=
  andThen peekType fun _ => StepLogic.ite (J := Queues) (andThen consume fun _ => setState _)
    (StepLogic.ite (J := Queues) (setState _) (setState _))

theorem flowMapValue : Queues 1 incFlowMapValue := by
  refine andThen peekType fun tt => ?_
  split
  · exact bind (m := 1) (n := 0) scalarToken fun _ => flowSep false
  split
  · exact bind (m := 1) (n := 0) (read fun _ => emit _) fun _ => setState _
  · refine weaken (Nat.zero_le 1) (.quiet fun p => ⟨rfl, fun returns => ?_, rfl⟩)
    exact ⟨(PState.noConfusion : PState.flowMapSep ≠ .eagerDrain), returns.2⟩

theorem flowMapKey : Queues 2 (do
    incEmitScalarToken
    Oyl.setState .flowMapValue
    if (← Oyl.peekType) == .blockMapValue then
      consumeToken
      incFlowMapValue) := by
  refine bind (m := 1) (n := 1) scalarToken fun _ => andThen (setState _) fun _ =>
    andThen peekType fun tt => ?_
  split
  · exact andThen consume fun _ => flowMapValue
  · exact weaken (Nat.zero_le 1) (pure _)

/-- What is read tells where the node returns to. -/
theorem readReturn {f : Parser → ParseM α}
    (queues : ∀ p, p.nodeReturn ≠ .eagerDrain → Queues n (f p)) : Queues n (get >>= f) := by
  intro p returns
  exact queues p returns.1 p returns

theorem openFlow (isMap : Bool) : Queues 1 (incOpenFlow isMap) :=
  readReturn fun _ node => andThen (.quiet (attach_unqueued _)) fun evt =>
    andThen consume fun _ => bind (m := 1) (n := 0) (emit evt) fun _ =>
      andThen (pushFrame _ _ node) fun _ => setState _

theorem openBlock (type : CtxType) (next : PState) : Queues 1 (incOpenBlock type next) :=
  andThen peekQuiet fun _ => readReturn fun _ node =>
    bind (m := 1) (n := 0) (emit _) fun _ => andThen (pushFrame _ _ node) fun _ => setState _

theorem blockNodeKey : Queues 2 stepBlockNodeKey :=
  readReturn fun _ node => bind (m := 1) (n := 1) (emit _) fun _ =>
    bind (m := 1) (n := 0) (emit _) fun _ =>
      andThen (.quiet (.modify fun _ => ⟨rfl, id, rfl⟩)) fun _ =>
        andThen (pushFrame _ _ node) fun _ => setState _

theorem logic : StepLogic Queues (Queues 3) where
  pure := pure
  bind := bind
  weaken := weaken
  error msg _ := error msg
  read _ _ := read
  update _ := update
  peek := .quiet peek_unqueued
  peekQuiet := peekQuiet
  attach evt := .quiet (attach_unqueued evt)
  props := .quiet props_logic.consumeProps
  emit := emit
  popFrame _ := popFrame
  queue := id
  after := andThen
  look _ _ := read
  live step := andThen checkOom fun _ => step
  drain := weaken (Nat.zero_le 3) (setState _)
  checkpoint step := andThen checkpoint fun _ => step
  scalarNode := weaken (Nat.le_of_ble_eq_true rfl)
    (bind (m := 1) (n := 0) scalarToken fun _ => returnNode)
  flowMapValue := weaken (Nat.le_of_ble_eq_true rfl) flowMapValue
  flowMapKey := weaken (Nat.le_of_ble_eq_true rfl) flowMapKey
  openFlow isMap := weaken (Nat.le_of_ble_eq_true rfl) (openFlow isMap)
  blockNodeKey := weaken (Nat.le_of_ble_eq_true rfl) blockNodeKey
  openBlock type next _ := weaken (Nat.le_of_ble_eq_true rfl) (openBlock type next)

/-- A step queues at most three events. -/
theorem parserStep : Queues 3 parserStep := by
  obtain ⟨step, eq, steps⟩ := logic.dispatch
  rw [eq]
  refine andThen checkOom fun _ => read fun p => ?_
  by_cases bareValue : p.state = .blockNodeBareValue
  · rw [(steps p).1 bareValue]
    exact weaken (Nat.le_of_ble_eq_true rfl)
      (bind (m := 1) (n := 1) (openBlock _ _) fun _ => read fun _ => emit _)
  · exact (steps p).2 bareValue

end Queues

end Oyl
