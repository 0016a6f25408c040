import Oyl.Events.DocumentFrame
import Oyl.Parser.Incremental

/-!
# What the incremental parser's steps touch

A judgement that the elementary steps of the incremental parser satisfy is satisfied
by the steps of its states.  Computations that continue after an event was queued are
judged by how many events they queue, whole steps by a judgement of their own.
-/

namespace Oyl

open StateError

/-- A judgement `J n` on computations that queue at most `n` events and stay in the
incremental parser, and a judgement `K` on what a step does from an empty queue.  What
follows a scalar token, opens a collection or saves a checkpoint has rules of its own. -/
structure StepLogic (J : Nat → {α : Type} → ParseM α → Prop) (K : ParseM Unit → Prop) :
    Prop where
  pure : ∀ {α : Type} (a : α), J 0 (Pure.pure a : ParseM α)
  bind : ∀ {α β : Type} {m n : Nat} {x : ParseM α} {f : α → ParseM β},
    J m x → (∀ a, J n (f a)) → J (m + n) (x >>= f)
  weaken : ∀ {α : Type} {m n : Nat} {x : ParseM α}, m ≤ n → J m x → J n x
  error : ∀ {α : Type} (msg : String), msg ≠ "" → J 0 (parseError msg : ParseM α)
  read : ∀ {α : Type} {n : Nat} (f : Parser → ParseM α), (∀ p, f p.core = f p) →
    (∀ p, J n (f p)) → J n (get >>= f)
  update : ∀ u, Neutral u → J 0 (modify u)
  peek : J 0 peekToken
  peekQuiet : J 0 peekQuiet
  attach : ∀ evt, J 0 (attachProps evt)
  props : J 0 consumeProps
  emit : ∀ evt, J 1 (incEmit evt)
  popFrame : ∀ {n : Nat} (f : Frame → ParseM Unit),
    (∀ frame, frame.returnState ≠ .eagerDrain → J n (f frame)) → J n (incPopFrame >>= f)
  queue : ∀ {x : ParseM Unit}, J 3 x → K x
  after : ∀ {α : Type} {x : ParseM α} {f : α → ParseM Unit},
    J 0 x → (∀ a, K (f a)) → K (x >>= f)
  look : ∀ f : Parser → ParseM Unit, (∀ p, f p.core = f p) → (∀ p, K (f p)) → K (get >>= f)
  live : ∀ {x : ParseM Unit}, K x → K (do checkOom; x)
  drain : K (setState .eagerDrain)
  checkpoint : ∀ {x : ParseM Unit}, K x → K (do incCheckpoint; x)
  scalarNode : K (do incEmitScalarToken; returnNode)
  flowMapValue : K incFlowMapValue
  flowMapKey : K (do
    incEmitScalarToken
    setState .flowMapValue
    if (← peekType) == .blockMapValue then
      consumeToken
      incFlowMapValue)
  openFlow : ∀ isMap, K (incOpenFlow isMap)
  blockNodeKey : K stepBlockNodeKey
  openBlock : ∀ type next, next ≠ .eagerDrain → K (incOpenBlock type next)

theorem Parser.core_covering (p : Parser) (offset : Nat) :
    (p.fkCovering offset).core = p.core.fkCovering offset :=
  apply_ite Parser.core _ _ _

theorem Parser.core_isBlockKey (p : Parser) (offset : Nat) :
    (p.core.flowIsBlockKey offset).1 = (p.flowIsBlockKey offset).1 := by
  change ((p.core.fkCovering offset).fkAmbiguous ||
    (p.core.fkCovering offset).fkKeys.contains offset) = _
  rw [← p.core_covering]
  rfl

/-- What the lookahead knows about a flow collection is no output. -/
theorem neutral_covering : Neutral fun p => (p.flowIsBlockKey p.current.start.offset).2 where
  output p := by
    have output (offset : Nat) :
        p.fkCovering offset = (p.fkCovering offset).core.withOutput p := by
      unfold Parser.fkCovering
      split <;> rfl
    exact (output _).trans (congrArg (·.withOutput p) (p.core_covering _))
  mode p := by
    change (p.fkCovering _).mode = _
    unfold Parser.fkCovering
    split <;> rfl
  counts p := by
    change (p.fkCovering _).evtBase = _ ∧ (p.fkCovering _).audit = _
    unfold Parser.fkCovering
    split <;> exact ⟨rfl, rfl⟩
  source p := by
    change (p.fkCovering _).source = _
    unfold Parser.fkCovering
    split <;> rfl
  returns p returns := by
    change (p.fkCovering _).Returns
    unfold Parser.fkCovering
    split <;> exact returns
  stays p _ same := by
    change (p.fkCovering _).state = _ at same
    unfold Parser.fkCovering at same
    split at same <;> exact same

namespace StepLogic

variable {J : Nat → {α : Type} → ParseM α → Prop} {K : ParseM Unit → Prop}
  (logic : StepLogic J K)

include logic

/-- A first part that queues nothing. -/
theorem quiet {α β : Type} {n : Nat} {x : ParseM α} {f : α → ParseM β} (first : J 0 x)
    (rest : ∀ a, J n (f a)) : J n (x >>= f) :=
  logic.weaken (Nat.le_of_eq (Nat.zero_add n)) (logic.bind first rest)

theorem any {α : Type} {n : Nat} {x : ParseM α} (none : J 0 x) : J n x :=
  logic.weaken (Nat.zero_le n) none

theorem few {n : Nat} {x : ParseM Unit} (bound : n.ble 3 = true) (queues : J n x) : K x :=
  logic.queue (logic.weaken (Nat.le_of_ble_eq_true bound) queues)

omit logic in
theorem ite {α : Type} {n : Nat} {c : Prop} [Decidable c] {x y : ParseM α} (left : J n x)
    (right : J n y) : J n (if c then x else y) := by
  split
  · exact left
  · exact right

omit logic in
theorem iteStep {c : Prop} [Decidable c] {x y : ParseM Unit} (left : K x) (right : K y) :
    K (if c then x else y) := by
  split
  · exact left
  · exact right

/-- Two steps that are taken in a case only, and what follows. -/
theorem optional {c : Prop} [Decidable c] {x y z : ParseM Unit} (first : J 0 x)
    (second : J 0 y) (rest : K z) :
    K (if c then x >>= fun _ => y >>= fun _ => z else z) := by
  split
  · exact logic.after first fun _ => logic.after second fun _ => rest
  · exact rest

theorem consume : J 0 consumeToken := logic.update _ (.still fun _ => ⟨rfl, ⟨rfl, rfl⟩, rfl⟩)

theorem setState {state : PState} (stays : state ≠ .eagerDrain) :
    J 0 (setState state) :=
  logic.update _ (.turns fun _ => ⟨rfl, ⟨rfl, rfl⟩, stays⟩)

theorem returnNode : J 0 returnNode :=
  logic.update _ (.keeps (fun _ => rfl) (fun _ => ⟨rfl, rfl⟩) fun _ returns same => absurd same returns.1)

theorem peekType : J 0 peekType :=
  logic.quiet logic.peek fun _ => logic.read _ (fun _ => rfl) fun _ => logic.pure _

theorem peekTypeQuiet : J 0 peekTypeQuiet :=
  logic.quiet logic.peekQuiet fun _ => logic.read _ (fun _ => rfl) fun _ => logic.pure _

theorem emitEmpty : J 1 incEmitEmpty :=
  logic.read _ (fun _ => rfl) fun _ => logic.emit _

/-- Queue an event and pick the next state. -/
theorem emitThen {x : ParseM Unit} (evt : Event) (next : J 0 x) :
    J 1 (do incEmit evt; x) :=
  logic.bind (logic.emit evt) fun _ => next

theorem emitEmptyThen {x : ParseM Unit} (next : J 0 x) : J 1 (do incEmitEmpty; x) :=
  logic.bind logic.emitEmpty fun _ => next

/-! ### Flow states -/

theorem flowSep (inSeq : Bool) : J 0 (incFlowSep inSeq) := by
  refine logic.quiet logic.peekType fun tt => ?_
  cases inSeq
  · exact ite (logic.quiet logic.consume fun _ => logic.setState PState.noConfusion)
      (ite (logic.setState PState.noConfusion) (logic.setState PState.noConfusion))
  · exact ite (logic.quiet logic.consume fun _ => logic.setState PState.noConfusion)
      (ite (logic.setState PState.noConfusion) (logic.setState PState.noConfusion))

theorem incFlowNode {next : PState} (stays : next ≠ .eagerDrain) : J 0 (incFlowNode next) :=
  logic.update _ ⟨fun _ => rfl, fun _ => rfl, fun _ => ⟨rfl, rfl⟩, fun _ => rfl,
    fun _ returns => ⟨stays, returns.2⟩,
    fun _ _ same => PState.noConfusion same⟩

theorem flowNodeOrEmpty (ends : List TokenType) {next : PState}
    (stays : next ≠ .eagerDrain) : J 1 (incFlowNodeOrEmpty ends next) := by
  refine logic.quiet logic.peekTypeQuiet fun tt => ?_
  split
  · exact logic.emitEmptyThen (logic.setState stays)
  · exact logic.any (logic.incFlowNode stays)

theorem endDocument : J 1 incEndDocument := by
  refine logic.quiet logic.peekType fun tt => ?_
  have rest : J 1 (do
      let p ← get
      incEmit (if tt == .docEnd then p.tokenEvent .docEnd else p.implicitDocEnd)
      modify fun p => { p with docOpen := false, state := .streamDocLoop } : ParseM Unit) := by
    refine logic.read _ (fun _ => rfl) fun p => logic.emitThen _ ?_
    exact logic.update _ (.turns fun _ => ⟨rfl, ⟨rfl, rfl⟩, PState.noConfusion⟩)
  exact ite (logic.any (logic.error _ (by decide)))
    (ite (logic.quiet logic.consume fun _ => rest) rest)

theorem closeFlow (type : EventType) : J 1 (incCloseFlow type) := by
  refine logic.read _ (fun _ => rfl) fun p => logic.quiet logic.consume fun _ =>
    logic.emitThen _ (logic.popFrame _ fun frame stays => ?_)
  refine logic.quiet (logic.setState stays) fun _ => ?_
  split
  · exact logic.flowSep _
  split
  · exact logic.flowSep _
  · exact logic.pure _

theorem stepFlowNode : K stepFlowNode := by
  refine logic.after logic.peekTypeQuiet fun tt =>
    logic.optional logic.props logic.peekQuiet ?_
  refine logic.look _ (fun _ => rfl) fun p => ?_
  split
  · exact logic.scalarNode
  · exact logic.few rfl (logic.read _ (fun _ => rfl) fun _ => logic.quiet (logic.attach _)
      fun evt => logic.quiet logic.consume fun _ => logic.emitThen evt logic.returnNode)
  · exact logic.openFlow _
  · exact logic.openFlow _
  · exact logic.few rfl (logic.read _ (fun _ => rfl) fun _ => logic.quiet (logic.attach _)
      fun evt => logic.emitThen evt logic.returnNode)

theorem stepFlowMapLoop : K stepFlowMapLoop := by
  refine logic.live (logic.after logic.peekTypeQuiet fun tt => ?_)
  split
  · exact logic.few rfl (logic.setState PState.noConfusion)
  · exact logic.few rfl (logic.error _ (by decide))
  · exact logic.few rfl
      (logic.quiet logic.consume fun _ => logic.flowNodeOrEmpty _ PState.noConfusion)
  · exact logic.flowMapKey
  · exact logic.few rfl (logic.incFlowNode PState.noConfusion)

theorem stepFlowMapValue : K stepFlowMapValue := by
  refine logic.after logic.peekTypeQuiet fun tt => ?_
  split
  · exact logic.after logic.consume fun _ => logic.flowMapValue
  · exact logic.few rfl (logic.emitEmptyThen (logic.setState PState.noConfusion))

theorem stepFlowSep (close : TokenType) {loop : PState} {msg : String} (known : msg ≠ "")
    (stays : loop ≠ .eagerDrain) : J 0 (stepFlowSep close loop msg) := by
  refine logic.quiet logic.peekTypeQuiet fun tt => ?_
  split
  · exact logic.quiet logic.consume fun _ => logic.setState stays
  split
  · exact logic.setState stays
  · exact logic.error _ known

theorem stepFlowSeqEntry : J 1 stepFlowSeqEntry := by
  refine logic.quiet logic.peekQuiet fun _ => logic.read _ (fun _ => rfl) fun p => ?_
  refine logic.quiet (logic.attach _) fun evt => logic.quiet logic.consume fun _ =>
    logic.quiet logic.peekTypeQuiet fun tt => ?_
  split
  · exact logic.any (logic.update _ (.turns fun _ => ⟨rfl, ⟨rfl, rfl⟩, PState.noConfusion⟩))
  · exact logic.emitThen _ (logic.flowSep _)

theorem pairKey (key : Event) : J 2 (incPairKey key) :=
  logic.bind (m := 1) (n := 1) (logic.emit _) fun _ => logic.emit _

theorem stepFlowSeqProps : J 1 stepFlowSeqProps := by
  refine logic.quiet logic.props fun _ => logic.quiet logic.peekType fun tt => ?_
  split
  · exact logic.read _ (fun _ => rfl) fun p => logic.quiet (logic.attach _) fun evt =>
      logic.emitThen _ (logic.flowSep _)
  split
  · exact logic.any (logic.error _ (by decide))
  · exact logic.any (logic.pure _)

/-- Ask whether the flow collection at the current token is a key. -/
theorem isBlockKey (next : Bool → ParseM Unit) (ofNext : ∀ isKey, K (next isKey)) :
    K (do
      let p ← get
      let (isKey, p) := p.flowIsBlockKey p.current.start.offset
      set p
      next isKey) := by
  refine of_get_set (J := K) (fun p => (p.flowIsBlockKey p.current.start.offset).2)
    (fun p => next (p.flowIsBlockKey p.current.start.offset).1) ?_
  refine logic.look _ (fun p => ?_) fun p =>
    logic.after (logic.update _ neutral_covering) fun _ => ofNext _
  rw [show p.core.current = p.current from rfl, p.core_isBlockKey]

theorem stepFlowSeqLoop : K stepFlowSeqLoop := by
  have entry : K (do Oyl.setState .flowSeqEntry; Oyl.stepFlowSeqEntry) :=
    logic.few rfl (logic.quiet (logic.setState PState.noConfusion) fun _ => logic.stepFlowSeqEntry)
  have flow := logic.isBlockKey
    (fun isKey => if isKey then Oyl.setState .eagerDrain else Oyl.incFlowNode .flowSeqSep)
    fun isKey => iteStep logic.drain (logic.few rfl (logic.incFlowNode PState.noConfusion))
  refine logic.live (logic.after logic.peekTypeQuiet fun tt => ?_)
  split
  · exact logic.few rfl (logic.setState PState.noConfusion)
  · exact logic.few rfl (logic.read _ (fun _ => rfl) fun p => ite (logic.error _ (by decide))
      (logic.setState PState.noConfusion))
  · exact entry
  · exact entry
  · exact flow
  · exact flow
  · exact logic.few rfl (logic.read _ (fun _ => rfl) fun p => logic.quiet (logic.attach _)
      fun key => logic.bind (m := 2) (n := 1) (logic.pairKey _) fun _ =>
        logic.quiet logic.consume fun _ => logic.flowNodeOrEmpty _ PState.noConfusion)
  · exact logic.few rfl logic.stepFlowSeqProps
  · exact logic.few rfl logic.stepFlowSeqProps
  · exact logic.few rfl (logic.error _ (by decide))
  · exact logic.few rfl (logic.error _ (by decide))

theorem stepFlowSeqEntryKey : J 3 stepFlowSeqEntryKey :=
  logic.read _ (fun _ => rfl) fun _ => logic.bind (m := 2) (n := 1) (logic.pairKey _) fun _ =>
    logic.quiet (logic.update _ (.still fun _ => ⟨rfl, ⟨rfl, rfl⟩, rfl⟩)) fun _ =>
      logic.flowNodeOrEmpty _ PState.noConfusion

theorem stepFlowPairEnd : J 1 stepFlowPairEnd :=
  logic.quiet logic.peekQuiet fun _ =>
    logic.read _ (fun _ => rfl) fun _ => logic.emitThen _ (logic.setState PState.noConfusion)

theorem stepFlowSeqExplicitKey : J 2 stepFlowSeqExplicitKey :=
  logic.read _ (fun _ => rfl) fun _ => logic.bind (m := 1) (n := 1) (logic.emit _) fun _ =>
    logic.quiet logic.consume fun _ => logic.flowNodeOrEmpty _ PState.noConfusion

theorem stepFlowSeqExplicitValue : J 1 stepFlowSeqExplicitValue := by
  refine logic.quiet logic.peekTypeQuiet fun tt => ?_
  split
  · exact logic.quiet logic.consume fun _ => logic.flowNodeOrEmpty _ PState.noConfusion
  · exact logic.emitEmptyThen (logic.setState PState.noConfusion)

theorem stepFlowSeqCheckColon : K stepFlowSeqCheckColon :=
  logic.after logic.peekTypeQuiet fun _ => iteStep logic.drain
    (logic.few rfl (logic.setState PState.noConfusion))

/-! ### Stream and document states -/

theorem stepStreamStart : J 1 stepStreamStart :=
  logic.quiet logic.peekQuiet fun _ => logic.read _ (fun _ => rfl) fun _ =>
    logic.quiet logic.consume fun _ => logic.emitThen _ (logic.setState PState.noConfusion)

theorem stepStreamDocLoop : J 0 stepStreamDocLoop :=
  logic.quiet logic.peekTypeQuiet fun _ => ite (logic.setState PState.noConfusion)
    (logic.setState PState.noConfusion)

theorem stepStreamEnd : J 1 stepStreamEnd :=
  logic.quiet logic.peekQuiet fun _ => logic.read _ (fun _ => rfl) fun _ =>
    logic.quiet logic.consume fun _ => logic.emitThen _
      (logic.update _ (.turns fun _ => ⟨rfl, ⟨rfl, rfl⟩, PState.noConfusion⟩))

theorem stepDocDirectives : K stepDocDirectives := by
  refine logic.after logic.peekTypeQuiet fun tt => logic.checkpoint ?_
  split
  · exact logic.drain
  · exact logic.few rfl (logic.setState PState.noConfusion)
  · exact logic.few rfl (logic.quiet logic.consume fun _ => logic.setState PState.noConfusion)
  · exact logic.few rfl (logic.setState PState.noConfusion)
  · exact logic.few rfl (logic.setState PState.noConfusion)

theorem stepDocStart {self : PState} (explicit : Bool)
    (stays : self ≠ .eagerDrain) : J 2 (stepDocStart self explicit) := by
  have content : J 0 (modify fun p =>
      { p with docOpen := true, state := .docContent } : ParseM Unit) :=
    logic.update _ (.turns fun _ => ⟨rfl, ⟨rfl, rfl⟩, PState.noConfusion⟩)
  have start : J 1 (do
      Oyl.peekQuiet
      let p ← get
      if explicit then
        set { p with docStartLine := p.current.start.line, haveToken := false }
        incEmit (p.tokenEvent .docStart)
      else
        set { p with docStartLine := 0 }
        incEmit { p.pointEvent .docStart with implicit := true }
      modify fun p => { p with docOpen := true, state := .docContent } : ParseM Unit) := by
    refine logic.quiet logic.peekQuiet fun _ => ?_
    cases explicit with
    | true =>
        refine of_get_set (J := J 1) (fun p : Parser =>
          { p with docStartLine := p.current.start.line, haveToken := false }) _ ?_
        exact logic.read _ (fun _ => rfl) fun p =>
          logic.quiet (logic.update _ (.still fun _ => ⟨rfl, ⟨rfl, rfl⟩, rfl⟩)) fun _ =>
          logic.emitThen _ content
    | false =>
        refine of_get_set (J := J 1) (fun p : Parser => { p with docStartLine := 0 }) _ ?_
        exact logic.read _ (fun _ => rfl) fun p =>
          logic.quiet (logic.update _ (.still fun _ => ⟨rfl, ⟨rfl, rfl⟩, rfl⟩)) fun _ =>
          logic.emitThen _ content
  refine of_get_congr (J := J 2) (fun p =>
    if p.docOpen && !p.frames.isEmpty then
      modify fun p => { p with unrollReturn := self, state := .unroll }
    else do
      if p.docOpen then
        Oyl.peekQuiet
        incEmit (← get).implicitDocEnd
        modify fun p => { p with docOpen := false }
      Oyl.peekQuiet
      let p ← get
      if explicit then
        set { p with docStartLine := p.current.start.line, haveToken := false }
        incEmit (p.tokenEvent .docStart)
      else
        set { p with docStartLine := 0 }
        incEmit { p.pointEvent .docStart with implicit := true }
      modify fun p => { p with docOpen := true, state := .docContent }) ?_ ?_
  · intro p
    split <;> rfl
  refine logic.read _ (fun _ => rfl) fun p => ite ?_
    (ite ?_ (logic.weaken (Nat.le_of_ble_eq_true rfl) start))
  · exact logic.any (logic.update _ ⟨fun _ => rfl, fun _ => rfl, fun _ => ⟨rfl, rfl⟩, fun _ => rfl,
      fun _ returns => ⟨returns.1, stays, returns.2.2⟩,
      fun _ _ same => PState.noConfusion same⟩)
  · exact logic.quiet logic.peekQuiet fun _ => logic.read _ (fun _ => rfl) fun q =>
      logic.bind (m := 1) (n := 1) (logic.emit _) fun _ =>
        logic.quiet (logic.update _ (.still fun _ => ⟨rfl, ⟨rfl, rfl⟩, rfl⟩)) fun _ => start

theorem emptyDocument {next : PState} (stays : next ≠ .eagerDrain) :
    J 2 (incEmptyDocument next) :=
  logic.bind (m := 1) (n := 1) logic.emitEmpty fun _ => logic.read _ (fun _ => rfl) fun _ =>
    logic.emitThen _ (logic.update _ (.turns fun _ => ⟨rfl, ⟨rfl, rfl⟩, stays⟩))

theorem stepDocContent : J 2 stepDocContent := by
  refine logic.quiet logic.peekTypeQuiet fun tt => ?_
  split
  · exact logic.weaken (Nat.le_of_ble_eq_true rfl)
      (logic.emitEmptyThen (logic.setState PState.noConfusion))
  · exact logic.emptyDocument PState.noConfusion
  · exact logic.emptyDocument PState.noConfusion
  · exact logic.any (logic.update _ ⟨fun _ => rfl, fun _ => rfl, fun _ => ⟨rfl, rfl⟩, fun _ => rfl,
      fun _ returns =>
        ⟨(PState.noConfusion : PState.docEndExplicit ≠ .eagerDrain), returns.2⟩,
      fun _ _ same => PState.noConfusion same⟩)

theorem stepUnroll : J 1 stepUnroll := by
  refine of_get_congr (J := J 1) (fun p =>
    if p.frames.isEmpty then modify fun p => { p with state := p.unrollReturn }
    else do
      let frame ← incPopFrame
      Oyl.peekQuiet
      incEmit ((← get).pointEvent
        (if frame.type == .blockMap || frame.type == .flowMap then .mappingEnd
        else .sequenceEnd))) ?_ ?_
  · intro p
    split <;> rfl
  refine logic.read _ (fun _ => rfl) fun _ => ite ?_ ?_
  · exact logic.any (logic.update _
      (.keeps (fun _ => rfl) (fun _ => ⟨rfl, rfl⟩) fun _ returns same => absurd same returns.2.1))
  · exact logic.popFrame _ fun _ _ => logic.quiet logic.peekQuiet fun _ =>
      logic.read _ (fun _ => rfl) fun _ => logic.emit _

/-! ### Block states -/

theorem stepBlockNodeFlow : K stepBlockNodeFlow := by
  refine of_get_congr (J := K) (fun p =>
    if p.nodeReturn == .blockMapLoop && p.current.start.line == p.valueColonLine &&
        !p.valueColonStartsLine then Oyl.setState .flowNode
    else do
      let p ← get
      let (isKey, p) := p.flowIsBlockKey p.current.start.offset
      set p
      Oyl.setState (if isKey then .eagerDrain else .flowNode)) ?_ ?_
  · intro p
    split <;> rfl
  refine logic.look _ (fun _ => rfl) fun p => iteStep
    (logic.few rfl (logic.setState PState.noConfusion)) ?_
  refine logic.isBlockKey (fun isKey => Oyl.setState (if isKey then .eagerDrain else .flowNode))
    fun isKey => ?_
  split
  · exact logic.drain
  · exact logic.few rfl (logic.setState PState.noConfusion)

theorem stepBlockNode : K stepBlockNode := by
  refine logic.after logic.peekTypeQuiet fun tt => ?_
  split
  · exact logic.drain
  · exact logic.drain
  · exact logic.few rfl (logic.setState PState.noConfusion)
  · exact logic.few rfl (logic.setState PState.noConfusion)
  · exact logic.few rfl (logic.setState PState.noConfusion)
  · exact logic.few rfl (logic.setState PState.noConfusion)
  · exact logic.stepBlockNodeFlow
  · exact logic.stepBlockNodeFlow
  · exact logic.few rfl (logic.setState PState.noConfusion)
  · exact logic.few rfl (logic.error _ (by decide))
  · exact logic.few rfl (logic.error _ (by decide))
  · exact logic.few rfl (logic.error _ (by decide))
  · exact logic.few rfl (logic.error _ (by decide))
  · exact logic.few rfl (logic.setState PState.noConfusion)

theorem stepBlockNodeLeaf (type : EventType) {keyState : PState}
    (stays : keyState ≠ .eagerDrain) : J 1 (stepBlockNodeLeaf type keyState) := by
  refine logic.quiet logic.peekQuiet fun _ => logic.read _ (fun _ => rfl) fun p => ?_
  refine logic.quiet logic.consume fun _ => logic.quiet logic.peekQuiet fun _ => ?_
  refine of_get_congr (J := J 1) (fun q =>
    if q.tokType == .blockMapValue &&
        q.current.start.line == (p.nodeEvent type).start.line then
      modify fun q => { q with
        savedNode := p.nodeEvent type, savedNodeCol := p.tokCol, haveSavedNode := true,
        state := keyState }
    else do
      incEmit (p.nodeEvent type)
      Oyl.returnNode) ?_ ?_
  · intro q
    simp only [run_ite]
    split <;> rfl
  refine logic.read _ (fun _ => rfl) fun q => ite ?_ (logic.emitThen _ logic.returnNode)
  exact logic.any (logic.update _ (.turns fun _ => ⟨rfl, ⟨rfl, rfl⟩, stays⟩))

theorem stepBlockNodeEmpty : J 1 stepBlockNodeEmpty :=
  logic.quiet logic.peekQuiet fun _ =>
    logic.read _ (fun _ => rfl) fun _ => logic.emitThen _ logic.returnNode

theorem incBlockNode {next : PState} (stays : next ≠ .eagerDrain) :
    J 0 (incBlockNode next) :=
  logic.update _ ⟨fun _ => rfl, fun _ => rfl, fun _ => ⟨rfl, rfl⟩, fun _ => rfl,
    fun _ returns => ⟨stays, returns.2⟩,
    fun _ _ same => PState.noConfusion same⟩

theorem stepBlockMapLoop : K stepBlockMapLoop := by
  refine logic.after logic.peekTypeQuiet fun tt => logic.look _ (fun _ => rfl) fun p => ?_
  dsimp only
  split
  · exact logic.few rfl (logic.setState PState.noConfusion)
  split
  · exact logic.few rfl (logic.setState PState.noConfusion)
  split
  · exact logic.few rfl (logic.emitEmptyThen (logic.setState PState.noConfusion))
  split
  · exact logic.drain
  · exact logic.few rfl (logic.setState PState.noConfusion)

theorem stepBlockMapExplicitKey : J 1 stepBlockMapExplicitKey :=
  logic.quiet logic.peekQuiet fun _ => logic.quiet logic.consume fun _ =>
    logic.quiet logic.peekQuiet fun _ => logic.read _ (fun _ => rfl) fun _ =>
      ite (logic.emitEmptyThen (logic.setState PState.noConfusion))
        (logic.any (logic.incBlockNode PState.noConfusion))

theorem stepBlockMapSimpleKey : K stepBlockMapSimpleKey := by
  refine logic.after logic.peekTypeQuiet fun tt => iteStep ?_ logic.drain
  refine logic.look _ (fun _ => rfl) fun p => logic.after logic.consume fun _ =>
    logic.after logic.peekTypeQuiet fun tt => ?_
  exact iteStep (logic.few rfl (logic.emitThen _ (logic.setState PState.noConfusion))) logic.drain

theorem stepBlockMapPostKey : J 1 stepBlockMapPostKey :=
  logic.quiet logic.peekQuiet fun _ => logic.read _ (fun _ => rfl) fun _ =>
    ite (logic.any (logic.setState PState.noConfusion)) (ite (logic.any (logic.error _ (by decide)))
      (logic.emitEmptyThen (logic.setState PState.noConfusion)))

theorem stepBlockMapValue : J 1 stepBlockMapValue := by
  refine logic.quiet logic.peekTypeQuiet fun tt =>
    ite (logic.emitEmptyThen (logic.setState PState.noConfusion)) ?_
  refine logic.read _ (fun _ => rfl) fun p => logic.quiet logic.consume fun _ =>
    logic.quiet logic.peekQuiet fun _ =>
      logic.quiet (logic.update _ (.still fun _ => ⟨rfl, ⟨rfl, rfl⟩, rfl⟩)) fun _ =>
      logic.read _ (fun _ => rfl) fun q => ?_
  exact ite (logic.emitEmptyThen (logic.setState PState.noConfusion))
    (logic.any (logic.incBlockNode PState.noConfusion))

theorem closeBlock (type : EventType) : J 2 (incCloseBlock type) :=
  logic.popFrame _ fun _ stays => logic.quiet logic.peekQuiet fun _ =>
    logic.read _ (fun _ => rfl) fun _ => logic.bind (m := 1) (n := 1) (logic.emit _) fun _ =>
      logic.quiet (logic.setState stays) fun _ =>
        ite logic.endDocument (logic.any (logic.pure _))

theorem stepBlockSeqLoop : J 0 stepBlockSeqLoop :=
  logic.quiet logic.peekQuiet fun _ => logic.read _ (fun _ => rfl) fun _ =>
    ite (logic.setState PState.noConfusion) (logic.setState PState.noConfusion)

theorem stepBlockSeqEntry : J 1 stepBlockSeqEntry :=
  logic.quiet logic.peekQuiet fun _ => logic.quiet logic.consume fun _ =>
    logic.quiet logic.peekQuiet fun _ => logic.read _ (fun _ => rfl) fun _ =>
      ite (logic.emitEmptyThen (logic.setState PState.noConfusion))
        (logic.any (logic.incBlockNode PState.noConfusion))

/-- A step looks at the state it is in; only the one that opens a mapping at a bare `:`
is no step of the logic. -/
theorem dispatch : ∃ step : Parser → ParseM Unit,
    Oyl.parserStep = (do
      checkOom
      let p ← get
      step p) ∧
    ∀ p, (p.state = .blockNodeBareValue → step p = stepBlockNodeBareValue) ∧
      (p.state ≠ .blockNodeBareValue → K (step p)) := by
  refine ⟨_, rfl, fun p => ?_⟩
  generalize p.state = state
  refine ⟨fun bareValue => by rw [bareValue], fun other => ?_⟩
  cases state with
  | streamStart => exact logic.few rfl logic.stepStreamStart
  | streamDocLoop => exact logic.few rfl logic.stepStreamDocLoop
  | streamEnd => exact logic.few rfl logic.stepStreamEnd
  | docDirectives => exact logic.stepDocDirectives
  | docStartExplicit => exact logic.few rfl (logic.stepDocStart true PState.noConfusion)
  | docStartImplicit => exact logic.few rfl (logic.stepDocStart false PState.noConfusion)
  | docEndExplicit => exact logic.few rfl logic.endDocument
  | docContent => exact logic.few rfl logic.stepDocContent
  | blockNode => exact logic.stepBlockNode
  | blockNodeScalar => exact logic.few rfl (logic.stepBlockNodeLeaf .scalar PState.noConfusion)
  | blockNodeScalarKey => exact logic.blockNodeKey
  | blockNodeAlias => exact logic.few rfl (logic.stepBlockNodeLeaf .alias PState.noConfusion)
  | blockNodeAliasKey => exact logic.blockNodeKey
  | blockNodeSeq => exact logic.openBlock .blockSeq .blockSeqLoop PState.noConfusion
  | blockNodeExplicitKey => exact logic.openBlock .blockMap .blockMapLoop PState.noConfusion
  | blockNodeBareValue => exact absurd rfl other
  | blockNodeEmpty => exact logic.few rfl logic.stepBlockNodeEmpty
  | blockMapLoop => exact logic.stepBlockMapLoop
  | blockMapExplicitKey => exact logic.few rfl logic.stepBlockMapExplicitKey
  | blockMapSimpleKey => exact logic.stepBlockMapSimpleKey
  | blockMapPostKey => exact logic.few rfl logic.stepBlockMapPostKey
  | blockMapValue => exact logic.few rfl logic.stepBlockMapValue
  | blockMapValueNode => exact logic.few rfl (logic.setState PState.noConfusion)
  | blockMapEnd => exact logic.few rfl (logic.closeBlock .mappingEnd)
  | blockSeqLoop => exact logic.few rfl logic.stepBlockSeqLoop
  | blockSeqEntry => exact logic.few rfl logic.stepBlockSeqEntry
  | blockSeqEntryNode => exact logic.few rfl (logic.setState PState.noConfusion)
  | blockSeqEnd => exact logic.few rfl (logic.closeBlock .sequenceEnd)
  | unroll => exact logic.few rfl logic.stepUnroll
  | flowSeqLoop => exact logic.stepFlowSeqLoop
  | flowSeqEntry => exact logic.few rfl logic.stepFlowSeqEntry
  | flowSeqEntryKey => exact logic.few rfl logic.stepFlowSeqEntryKey
  | flowSeqImplicitEnd => exact logic.few rfl logic.stepFlowPairEnd
  | flowSeqExplicitKey => exact logic.few rfl logic.stepFlowSeqExplicitKey
  | flowSeqExplicitValue => exact logic.few rfl logic.stepFlowSeqExplicitValue
  | flowSeqExplicitEnd => exact logic.few rfl logic.stepFlowPairEnd
  | flowSeqCheckColon => exact logic.stepFlowSeqCheckColon
  | flowSeqSep => exact logic.few rfl (logic.stepFlowSep .flowSeqEnd (by decide) PState.noConfusion)
  | flowSeqEnd => exact logic.few rfl (logic.closeFlow .sequenceEnd)
  | flowMapLoop => exact logic.stepFlowMapLoop
  | flowMapValue => exact logic.stepFlowMapValue
  | flowMapSep => exact logic.few rfl (logic.stepFlowSep .flowMapEnd (by decide) PState.noConfusion)
  | flowMapEnd => exact logic.few rfl (logic.closeFlow .mappingEnd)
  | flowNode => exact logic.stepFlowNode
  | eagerDrain => exact logic.few rfl (logic.pure ())
  | done => exact logic.few rfl (logic.pure ())

end StepLogic

end Oyl
