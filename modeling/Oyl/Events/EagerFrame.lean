import Oyl.Parser.Document
import Oyl.Logic.StateError

/-!
# What the eager parser's functions touch

A judgement on computations that every elementary step satisfies is satisfied by
the functions of the eager parser.  One such judgement is that a computation
respects a relation between parser states, however it returns.
-/

namespace Oyl

open StateError

/-- The part of the state that is independent of the limits and the schema: without the
events and what says that the parser stopped. -/
def Parser.core (p : Parser) : Parser :=
  { p with
    schema := none
    maxEvents := 0
    maxDepth := 0
    events := []
    outBuf := []
    dropped := false
    scanErrorOut := 0
    errorMsg := ""
    errorMark := ⟨0, 0, 0⟩
    oom := false
    stopStatus := .ok }

/-- The state of `p` with the events, the limits, the schema and the stop of `q`. -/
def Parser.withOutput (p q : Parser) : Parser :=
  { p with
    schema := q.schema
    maxEvents := q.maxEvents
    maxDepth := q.maxDepth
    events := q.events
    outBuf := q.outBuf
    dropped := q.dropped
    scanErrorOut := q.scanErrorOut
    errorMsg := q.errorMsg
    errorMark := q.errorMark
    oom := q.oom
    stopStatus := q.stopStatus }

/-- The pending properties of `q`, where they are, and whether it has a token. -/
def Parser.withProps (p q : Parser) : Parser :=
  { p with
    haveToken := q.haveToken
    pendingAnchor := q.pendingAnchor
    pendingTag := q.pendingTag
    hasAnchor := q.hasAnchor
    hasTag := q.hasTag
    propsLine := q.propsLine
    propsCol := q.propsCol
    propsStart := q.propsStart }

/-- A pending tag is there. -/
def Parser.Tagged (p : Parser) : Prop := p.hasTag = true → p.pendingTag ≠ none

/-- An update of the pending properties, which may consume the token. -/
structure PropsWrite (u : Parser → Parser) : Prop where
  output : ∀ p, u p = (u p.core).withOutput p
  props : ∀ p, u p = p.withProps (u p)
  token : ∀ p, (u p).haveToken = true → p.haveToken = true

/-- Such an update that leaves a tag where it says so. -/
structure PropsUpdate (u : Parser → Parser) : Prop extends PropsWrite u where
  tagged : ∀ p, p.Tagged → (u p).Tagged

/-- The pending properties of `q` and where they start. -/
def Parser.takeBack (p q : Parser) : Parser :=
  { p.withPropsOf q with propsStart := q.propsStart }

/-- The functions that a function of the eager parser may call satisfy `J`. -/
structure Eager.All (J : {α : Type} → ParseM α → Prop) (r : Eager) : Prop where
  flowSequence : J r.flowSequence
  flowMapping : J r.flowMapping
  flowNode : J r.flowNode
  blockMapValue : ∀ indent, J (r.blockMapValue indent)
  blockMapping : ∀ indent, J (r.blockMapping indent)
  blockSequence : ∀ indent, J (r.blockSequence indent)
  blockNode : J r.blockNode

/-- What follows the key of an implicit pair in a flow sequence. -/
def flowPairRest (r : Eager) : ParseM Unit := do
  consumeToken
  flowNodeOrEmpty r [.flowEntry, .flowSeqEnd]
  endFlowPair

/-- A judgement that the steps of `consume_props` satisfy. -/
structure PropsLogic (J : {α : Type} → ParseM α → Prop) : Prop extends
    Compositional (ε := Stop) (σ := Parser) J where
  error : ∀ {α : Type} (msg : String), msg ≠ "" → J (parseError msg : ParseM α)
  read : ∀ {α : Type} (f : Parser → ParseM α), (∀ p, f p.core = f p) → (∀ p, J (f p)) →
    J (get >>= f)
  peek : J peekToken
  hold : ∀ u, PropsUpdate u → J (modify u)

/-- Is this an event of a node? -/
def Event.inNode (evt : Event) : Bool :=
  match evt.type with
  | .scalar | .alias | .sequenceStart | .sequenceEnd | .mappingStart | .mappingEnd => true
  | .none | .streamStart | .streamEnd | .docStart | .docEnd => false

theorem Event.inNode_congr {evt evt' : Event} (same : evt'.type = evt.type) :
    evt'.inNode = evt.inNode := by
  rw [Event.inNode, same, Event.inNode]

/-- A judgement that the steps of the node functions satisfy. -/
structure NodeSteps (J : {α : Type} → ParseM α → Prop) : Prop extends PropsLogic J where
  checkOom : J checkOom
  checkStop : J checkStop
  store : ∀ evt, evt.inNode = true → J (enqueue' evt)
  push : ∀ type indent, J (pushCtx type indent)
  pop : J popCtx

/-- Properties that were read in a state that satisfies `P` may be put back. -/
structure PropsBack (J : {α : Type} → ParseM α → Prop) (P : Parser → Prop) : Prop where
  read : ∀ {α : Type} (f : Parser → ParseM α), (∀ p, f p.core = f p) → (∀ p, P p → J (f p)) →
    J (get >>= f)
  write : ∀ q, P q → ∀ u, PropsWrite u →
    (∀ p, (u p).hasTag = q.hasTag ∧ (u p).pendingTag = q.pendingTag) → J (modify u)

/-- A computation that returns only while the parser is not stopped. -/
def ReturnsLive {α : Type} (x : ParseM α) : Prop :=
  ∀ p a p', x p = .ok a p' → p'.oom = false

/-- A flow collection is closed only while the parser is not stopped. -/
structure Eager.ClosesLive (r : Eager) : Prop where
  flowSequence : ReturnsLive r.flowSequence
  flowMapping : ReturnsLive r.flowMapping

/-- Three functions look at the events that were stored before, or put properties back,
and have rules of their own. -/
structure NodeLogic (J : {α : Type} → ParseM α → Prop) : Prop extends NodeSteps J where
  flowSeqEntry : ∀ n, (eager n).All J → J (flowSeqEntry (eager n))
  innerProps : ∀ n, (eager n).All J → J (innerProps (eager n))
  blockFlow : ∀ n, (eager n).All J → ∀ isMap, J (blockFlow (eager n) isMap)

namespace ReturnsLive

variable {α β : Type}

theorem bind {x : ParseM α} {f : α → ParseM β} (rest : ∀ a, ReturnsLive (f a)) :
    ReturnsLive (x >>= f) := by
  intro p b p' ok
  obtain ⟨a, q, _, ok⟩ := bind_eq_ok ok
  exact rest a q b p' ok

theorem error (msg : String) : ReturnsLive (parseError msg : ParseM α) := by
  intro p a p' ok
  cases ok

theorem flowSeparator {again : ParseM Unit} (loop : ReturnsLive again) (close : TokenType)
    (msg : String) : ReturnsLive (flowSeparator close again msg) := by
  refine .bind fun tt => ?_
  split
  · exact .bind fun _ => loop
  split
  · exact loop
  · exact .error msg

end ReturnsLive

/-- A peek that returns puts a token in front of the parser. -/
theorem peekToken_update {p p' : Parser} {a : Unit} (ok : peekToken p = .ok a p') :
    ∃ scanner tok, p' = { p with scanner := scanner, current := tok, haveToken := true } := by
  rw [peekToken, get_bind_eq] at ok
  cases held : p.haveToken with
  | true =>
      rw [held, if_pos rfl] at ok
      cases ok
      exact ⟨p.scanner, p.current, by rw [← held]⟩
  | false =>
      simp only [held, Bool.false_eq_true, if_false] at ok
      cases scanned : scanToken p.scanner <;> rw [scanned] at ok <;> cases ok
      exact ⟨_, _, rfl⟩

theorem checkStop_live {p p' : Parser} {a : Unit} (ok : checkStop p = .ok a p') :
    p' = p ∧ p.oom = false ∧ p.overLimit = false := by
  obtain ⟨_, q, first, rest⟩ := bind_eq_ok ok
  rw [checkOom, get_bind_eq] at first
  split at first
  · cases first
  rename_i live
  cases first
  rw [get_bind_eq] at rest
  split at rest
  · cases rest
  rename_i within
  cases rest
  exact ⟨rfl, Bool.eq_false_iff.mpr live, Bool.eq_false_iff.mpr within⟩

/-- The bracket that ends a flow collection is stored: the limit was checked before. -/
theorem closeFlow_live {p p' : Parser} {type : EventType} {a : Unit} (live : p.oom = false)
    (within : p.overLimit = false) (ok : closeFlow type p = .ok a p') : p'.oom = false := by
  rw [closeFlow, get_bind_eq] at ok
  obtain ⟨_, q, consumed, ok⟩ := bind_eq_ok ok
  cases consumed
  obtain ⟨_, _, stored, ok⟩ := bind_eq_ok ok
  cases ok
  have apart : ¬({ p with haveToken := false } : Parser).overLimit = true :=
    Bool.eq_false_iff.mp within
  rw [enqueue', run_discard, enqueue, get_bind_eq, if_neg apart] at stored
  cases stored
  exact live

namespace PropsWrite

theorem withPropsOf (q : Parser) : PropsWrite (·.withPropsOf q) :=
  ⟨fun _ => rfl, fun _ => rfl, fun _ held => held⟩

theorem takeBack (q : Parser) : PropsWrite (·.takeBack q) :=
  ⟨fun _ => rfl, fun _ => rfl, fun _ held => held⟩

end PropsWrite

namespace PropsUpdate

theorem consume : PropsUpdate fun p => { p with haveToken := false } :=
  ⟨⟨fun _ => rfl, fun _ => rfl, fun _ held => Bool.noConfusion held⟩, fun _ tagged => tagged⟩

theorem clearProps : PropsUpdate Parser.clearProps :=
  ⟨⟨fun _ => rfl, fun _ => rfl, fun _ held => held⟩, fun _ _ has => Bool.noConfusion has⟩

/-- The start of the properties, if they start with a tag. -/
theorem startProps : PropsUpdate fun p => if p.hasAnchor then p else p.startProps where
  output p := by
    have flag : p.core.hasAnchor = p.hasAnchor := rfl
    rw [flag]
    split <;> rfl
  props p := by split <;> rfl
  token p held := by split at held <;> exact held
  tagged p tagged := by split <;> exact tagged

/-- What `attach_props` leaves pending. -/
theorem attach : PropsUpdate fun p => { p with
    pendingAnchor := if p.hasAnchor then none else p.pendingAnchor
    pendingTag := if p.hasTag then none else p.pendingTag
    hasAnchor := false
    hasTag := false } :=
  ⟨⟨fun _ => rfl, fun _ => rfl, fun _ held => held⟩, fun _ _ has => Bool.noConfusion has⟩

theorem takeAnchor : PropsUpdate Parser.takeAnchor where
  output p := by
    have flag : p.core.hasTag = p.hasTag := rfl
    rw [Parser.takeAnchor, Parser.takeAnchor, flag]
    split <;> rfl
  props p := by
    rw [Parser.takeAnchor]
    split <;> rfl
  token p held := by
    rw [Parser.takeAnchor] at held
    split at held <;> cases held
  tagged p tagged := by
    rw [Parser.takeAnchor]
    split <;> exact tagged

theorem takeTag : PropsUpdate Parser.takeTag where
  output p := by
    have flag : p.core.hasAnchor = p.hasAnchor := rfl
    rw [Parser.takeTag, Parser.takeTag, flag]
    split <;> rfl
  props p := by
    rw [Parser.takeTag]
    split <;> rfl
  token p held := by
    rw [Parser.takeTag] at held
    split at held <;> cases held
  tagged p _ := by
    rw [Parser.takeTag]
    split <;> exact fun _ => Option.some_ne_none _

end PropsUpdate

namespace PropsLogic

variable {J : {α : Type} → ParseM α → Prop} (logic : PropsLogic J)

include logic

theorem consume : J consumeToken := logic.hold _ .consume

theorem attach {α : Type} (evt : Event) (f : Event → ParseM α)
    (rest : ∀ evt', evt'.inNode = evt.inNode → J (f evt')) : J (attachProps evt >>= f) := by
  let attached (p : Parser) : Event := { evt with
    anchor := if p.hasAnchor then p.pendingAnchor else evt.anchor
    tag := if p.hasTag then p.pendingTag else evt.tag
    start := if p.hasProps then p.propsStart else evt.start }
  refine of_get_set (J := J) (fun p : Parser => { p with
    pendingAnchor := if p.hasAnchor then none else p.pendingAnchor
    pendingTag := if p.hasTag then none else p.pendingTag
    hasAnchor := false
    hasTag := false }) (fun p => f (attached p)) ?_
  refine logic.read _ (fun _ => rfl) fun p => logic.bind (logic.hold _ .attach) fun _ => ?_
  exact rest _ (Event.inNode_congr rfl)

theorem takeTag (unknown : Bool) : J (do
    modify fun p => if p.hasAnchor then p else p.startProps
    if unknown then parseError "undefined tag handle"
    else
      modify Parser.takeTag
      return true) := by
  refine logic.bind (logic.hold _ .startProps) fun _ => ?_
  split
  · exact logic.error _ (by decide)
  · exact logic.bind (logic.hold _ .takeTag) fun _ => logic.pure _

theorem consumeProp : J consumeProp := by
  refine logic.bind logic.peek fun _ => of_get_congr (J := J) (fun p =>
    let wanted := (p.tokType == .anchor && !p.hasAnchor) ||
      (p.tokType == .tag && !p.hasTag)
    if wanted && !p.propsContinuationOk then return false
    else if p.tokType == .anchor && !p.hasAnchor then
      if p.propStartsInnerNode p.hasTag then return false
      else do
        modify Parser.takeAnchor
        return true
    else if p.tokType == .tag && !p.hasTag then
      if p.propStartsInnerNode p.hasAnchor then return false
      else do
        modify fun p => if p.hasAnchor then p else p.startProps
        if !tagHandleDeclared p.tagDirectives p.current.value then
          parseError "undefined tag handle"
        else
          modify Parser.takeTag
          return true
    else return false) ?_ ?_
  · intro p
    dsimp only
    split
    · rfl
    split
    · split <;> rfl
    split
    · split
      · rfl
      · have tags : (if p.hasAnchor then p else p.startProps).tagDirectives = p.tagDirectives := by
          split <;> rfl
        have token : (if p.hasAnchor then p else p.startProps).current = p.current := by
          split <;> rfl
        simp only [run_bind, run_set, run_modify, tags, token]
        generalize (if p.hasAnchor = true then p else p.startProps) = placed
        split <;> rfl
    · rfl
  · refine logic.read _ (fun _ => rfl) fun p => ?_
    dsimp only
    split
    · exact logic.pure _
    split
    · split
      · exact logic.pure _
      · exact logic.bind (logic.hold _ .takeAnchor) fun _ => logic.pure _
    split
    · split
      · exact logic.pure _
      · exact logic.takeTag _
    · exact logic.pure _

theorem consumeProps : J consumeProps := by
  have last : J (do
      let p ← get
      if p.hasProps && p.tokType == .alias &&
          (p.current.start.line == p.propsLine || p.inFlow) then
        parseError "an alias cannot have an anchor or tag" : ParseM Unit) := by
    refine logic.read _ (fun _ => rfl) fun p => ?_
    split
    · exact logic.error _ (by decide)
    · exact logic.pure _
  refine logic.bind logic.consumeProp fun first => ?_
  split
  · refine logic.bind logic.consumeProp fun second => ?_
    split
    · exact logic.bind (logic.bind logic.consumeProp fun _ => logic.pure _) fun _ => last
    · exact last
  · exact last

end PropsLogic

namespace NodeSteps

variable {J : {α : Type} → ParseM α → Prop} (logic : NodeSteps J)

include logic

theorem peekType : J peekType :=
  logic.bind logic.peek fun _ => logic.read _ (fun _ => rfl) fun _ => logic.pure _

theorem storeWithProps (evt : Event) (inNode : evt.inNode = true) : J (enqueueWithProps evt) :=
  logic.attach evt _ fun evt' same => logic.store evt' (same.trans inNode)

theorem emitEmpty : J emitEmpty :=
  logic.read _ (fun _ => rfl) fun _ => logic.storeWithProps _ rfl

theorem closeFlow {type : EventType} (inNode : ({ type := type } : Event).inNode = true) :
    J (closeFlow type) :=
  logic.read _ (fun _ => rfl) fun _ => logic.bind logic.consume fun _ =>
    logic.bind (logic.store _ inNode) fun _ => logic.pop

theorem closeBlock {type : EventType} (inNode : ({ type := type } : Event).inNode = true) :
    J (closeBlock type) :=
  logic.read _ (fun _ => rfl) fun _ => logic.bind (logic.store _ inNode) fun _ => logic.pop

theorem endFlowPair : J endFlowPair :=
  logic.bind logic.peek fun _ => logic.read _ (fun _ => rfl) fun _ => logic.store _ rfl

variable {r : Eager} (calls : r.All J)

include calls

theorem flowNodeOrEmpty (ends : List TokenType) : J (flowNodeOrEmpty r ends) := by
  refine logic.bind logic.peekType fun tt => ?_
  split
  · exact logic.emitEmpty
  · exact calls.flowNode

theorem flowValue (close : TokenType) : J (flowValue r close) := by
  refine logic.bind logic.peekType fun tt => ?_
  split
  · exact logic.bind logic.consume fun _ => logic.flowNodeOrEmpty calls _
  · exact logic.emitEmpty

omit calls in
theorem flowSeparator (close : TokenType) {again : ParseM Unit} (loop : J again)
    {msg : String} (known : msg ≠ "") : J (flowSeparator close again msg) := by
  refine logic.bind logic.peekType fun tt => ?_
  split
  · exact logic.bind logic.consume fun _ => loop
  split
  · exact loop
  · exact logic.error _ known

theorem flowSeqExplicitPair : J (flowSeqExplicitPair r) := by
  refine logic.read _ (fun _ => rfl) fun p => ?_
  refine logic.bind (logic.store _ rfl) fun _ => logic.bind logic.consume fun _ => ?_
  refine logic.bind (logic.flowNodeOrEmpty calls _) fun _ => ?_
  exact logic.bind (logic.flowValue calls _) fun _ => logic.endFlowPair

theorem flowPairRest : J (flowPairRest r) :=
  logic.bind logic.consume fun _ =>
    logic.bind (logic.flowNodeOrEmpty calls _) fun _ => logic.endFlowPair

theorem flowMapKey : J (flowMapKey r) := by
  refine logic.bind logic.peekType fun tt => ?_
  split
  · exact logic.bind logic.consume fun _ => logic.flowNodeOrEmpty calls _
  · exact calls.flowNode

theorem parseFlowMapping : J (parseFlowMapping r) := by
  refine logic.bind logic.checkStop fun _ => logic.bind logic.peekType fun tt => ?_
  split
  · exact logic.closeFlow rfl
  · exact logic.error _ (by decide)
  · exact logic.bind (logic.flowMapKey calls) fun _ =>
      logic.bind (logic.flowValue calls _) fun _ =>
        logic.flowSeparator _ calls.flowMapping (by decide)

theorem openFlow (isMap : Bool) : J (openFlow r isMap) := by
  refine logic.read _ (fun _ => rfl) fun p => logic.bind logic.consume fun _ => ?_
  cases isMap with
  | true =>
      exact logic.bind (logic.storeWithProps _ rfl) fun _ =>
        logic.bind (logic.push _ _) fun _ => calls.flowMapping
  | false =>
      exact logic.bind (logic.storeWithProps _ rfl) fun _ =>
        logic.bind (logic.push _ _) fun _ => calls.flowSequence

theorem parseFlowNode : J (parseFlowNode r) := by
  refine logic.bind logic.checkOom fun _ => logic.bind logic.consumeProps fun _ =>
    logic.bind logic.peekType fun tt => ?_
  split
  · exact logic.read _ (fun _ => rfl) fun _ =>
      logic.bind (logic.storeWithProps _ rfl) fun _ => logic.consume
  · exact logic.openFlow calls _
  · exact logic.openFlow calls _
  · exact logic.read _ (fun _ => rfl) fun _ => logic.attach _ _ fun evt same =>
      logic.bind logic.consume fun _ => logic.bind logic.peek fun _ => logic.store evt same
  · exact logic.emitEmpty

theorem parseBlockMapValue (indent : Int) : J (parseBlockMapValue r indent) := by
  refine logic.bind logic.checkOom fun _ => logic.bind logic.peekType fun tt => ?_
  split
  · exact logic.emitEmpty
  · refine logic.bind logic.consume fun _ => logic.bind logic.peek fun _ =>
      logic.read _ (fun _ => rfl) fun p => ?_
    split
    · exact logic.emitEmpty
    · exact calls.blockNode

theorem blockExplicitKey (indent : Int) : J (blockExplicitKey r indent) := by
  refine logic.bind logic.consume fun _ => logic.bind logic.peek fun _ =>
    logic.read _ (fun _ => rfl) fun p => ?_
  split
  · exact logic.emitEmpty
  split
  · refine logic.bind logic.consumeProps fun _ => logic.bind logic.peek fun _ =>
      logic.read _ (fun _ => rfl) fun q => ?_
    split
    · exact logic.emitEmpty
    · exact calls.blockNode
  · exact calls.blockNode

theorem blockExplicitEntry (indent : Int) : J (blockExplicitEntry r indent) := by
  refine logic.bind (logic.blockExplicitKey calls indent) fun _ =>
    logic.bind logic.peek fun _ => logic.read _ (fun _ => rfl) fun p => ?_
  split
  · exact logic.error _ (by decide)
  split
  · exact logic.emitEmpty
  · exact calls.blockMapValue indent

theorem blockSimpleKey (indent : Int) {type : EventType}
    (inNode : ({ type := type } : Event).inNode = true) : J (blockSimpleKey r indent type) := by
  refine logic.read _ (fun _ => rfl) fun p => logic.attach _ _ fun evt same => ?_
  refine logic.bind logic.consume fun _ => logic.bind logic.peekType fun tt => ?_
  split
  · exact logic.bind (logic.store evt (same.trans inNode)) fun _ => calls.blockMapValue indent
  · exact logic.error _ (by decide)

theorem blockFlowKey (indent : Int) : J (blockFlowKey r indent) := by
  refine logic.bind calls.flowNode fun _ => logic.bind logic.peekType fun tt => ?_
  split
  · exact calls.blockMapValue indent
  · exact logic.error _ (by decide)

theorem blockImplicitEntry (indent : Int) : J (blockImplicitEntry r indent) := by
  have done {x : ParseM Unit} (ofPart : J x) : J (do x; return true) :=
    logic.bind ofPart fun _ => logic.pure _
  refine logic.bind logic.consumeProps fun _ => logic.bind logic.peek fun _ =>
    logic.read _ (fun _ => rfl) fun p => ?_
  split
  · exact logic.error _ (by decide)
  split
  · split
    · exact logic.bind logic.emitEmpty fun _ => done (calls.blockMapValue indent)
    · exact logic.pure _
  · exact done (logic.blockSimpleKey calls indent rfl)
  · split
    · exact done (logic.blockSimpleKey calls indent rfl)
    · exact logic.pure _
  · exact done (logic.blockFlowKey calls indent)
  · exact done (logic.blockFlowKey calls indent)
  · exact logic.pure _

theorem parseBlockMapping (indent : Int) : J (parseBlockMapping r indent) := by
  refine logic.bind logic.checkStop fun _ => logic.bind logic.peek fun _ =>
    logic.read _ (fun _ => rfl) fun p => ?_
  split
  · exact logic.pure _
  split
  · exact logic.bind (logic.blockExplicitEntry calls indent) fun _ => calls.blockMapping indent
  · exact logic.bind logic.emitEmpty fun _ =>
      logic.bind (calls.blockMapValue indent) fun _ => calls.blockMapping indent
  · exact logic.pure _
  · exact logic.pure _
  · exact logic.pure _
  · exact logic.pure _
  · refine logic.bind (logic.blockImplicitEntry calls indent) fun again => ?_
    split
    · exact calls.blockMapping indent
    · exact logic.pure _

theorem parseBlockSequence (indent : Int) : J (parseBlockSequence r indent) := by
  refine logic.bind logic.checkStop fun _ => logic.bind logic.peek fun _ =>
    logic.read _ (fun _ => rfl) fun p => ?_
  split
  · exact logic.pure _
  · refine logic.bind logic.consume fun _ => logic.bind logic.peek fun _ =>
      logic.read _ (fun _ => rfl) fun q => ?_
    split
    · exact logic.bind logic.emitEmpty fun _ => calls.blockSequence indent
    split
    · exact logic.emitEmpty
    · exact logic.bind calls.blockNode fun _ => calls.blockSequence indent

theorem blockMappingRest (col : Int) : J (blockMappingRest r col) :=
  logic.bind (calls.blockMapValue col) fun _ =>
    logic.bind (calls.blockMapping col) fun _ => logic.closeBlock rfl

theorem openBlockSequence (inner : Option Parser)
    (write : ∀ q ∈ inner, J (modify fun p => p.withPropsOf q)) :
    J (openBlockSequence r inner) := by
  have rest (col : Int) : J (do
      r.blockSequence col
      Oyl.closeBlock .sequenceEnd) :=
    logic.bind (calls.blockSequence col) fun _ => logic.closeBlock rfl
  refine logic.read _ (fun _ => rfl) fun p => logic.bind (logic.storeWithProps _ rfl) fun _ =>
    logic.bind (logic.push _ _) fun _ => ?_
  cases inner with
  | some inner => exact logic.bind (write inner rfl) fun _ => rest _
  | none => exact rest _

/-- A mapping whose first key is `evt`. -/
theorem openBlockMapping {start evt : Event} (starts : start.inNode = true)
    (inNode : evt.inNode = true) (col : Int) : J (do
    enqueueWithProps start
    pushCtx .blockMap col
    enqueue' evt
    Oyl.blockMappingRest r col) :=
  logic.bind (logic.storeWithProps _ starts) fun _ => logic.bind (logic.push _ _) fun _ =>
    logic.bind (logic.store _ inNode) fun _ => logic.blockMappingRest calls _

theorem innerScalar (inner : Parser) (innerCol : Int) (innerLine : Nat) :
    J (innerScalar r inner innerCol innerLine) := by
  refine logic.read _ (fun _ => rfl) fun p => logic.bind logic.consume fun _ =>
    logic.bind logic.peek fun _ => logic.read _ (fun _ => rfl) fun q => ?_
  split
  · exact logic.openBlockMapping calls rfl rfl _
  split
  · exact logic.error _ (by decide)
  · exact logic.storeWithProps _ rfl

theorem innerEmptyKey (inner : Parser) (innerCol : Int) : J (innerEmptyKey r inner innerCol) :=
  logic.read _ (fun _ => rfl) fun _ => logic.openBlockMapping calls rfl rfl _

theorem blockAlias : J (blockAlias r) := by
  refine logic.read _ (fun _ => rfl) fun p => logic.bind logic.consume fun _ =>
    logic.bind logic.peek fun _ => logic.read _ (fun _ => rfl) fun q => ?_
  split
  · exact logic.openBlockMapping calls rfl rfl _
  split
  · exact logic.error _ (by decide)
  · exact logic.store _ rfl

theorem blockScalar : J (blockScalar r) := by
  refine logic.read _ (fun _ => rfl) fun p => ?_
  split
  · exact logic.emitEmpty
  refine logic.bind logic.consume fun _ => logic.bind logic.peek fun _ =>
    logic.read _ (fun _ => rfl) fun q => ?_
  dsimp only
  split
  · split
    · exact logic.openBlockMapping calls rfl rfl _
    · exact logic.bind (logic.store _ rfl) fun _ => logic.bind (logic.push _ _) fun _ =>
        logic.bind (logic.storeWithProps _ rfl) fun _ => logic.blockMappingRest calls _
  · exact logic.storeWithProps _ rfl

theorem blockExplicitMapping : J (blockExplicitMapping r) :=
  logic.read _ (fun _ => rfl) fun _ => logic.bind (logic.storeWithProps _ rfl) fun _ =>
    logic.bind (logic.push _ _) fun _ =>
      logic.bind (calls.blockMapping _) fun _ => logic.closeBlock rfl

theorem blockBareValue : J (blockBareValue r) := by
  refine logic.read _ (fun _ => rfl) fun p => ?_
  split
  · exact logic.bind (logic.store _ rfl) fun _ => logic.bind (logic.push _ _) fun _ =>
      logic.bind logic.emitEmpty fun _ => logic.blockMappingRest calls _
  · exact logic.bind (logic.storeWithProps _ rfl) fun _ => logic.bind (logic.push _ _) fun _ =>
      logic.bind (calls.blockMapping _) fun _ => logic.closeBlock rfl

/-- Two runs of properties, if they may be put back. -/
theorem innerProps {P : Parser → Prop} (back : PropsBack J P)
    (innerFlow : ∀ outer inner innerCol innerLine isMap, P outer →
      J (innerFlow r outer inner innerCol innerLine isMap)) : J (innerProps r) := by
  refine of_get_set (J := J) Parser.clearProps _ ?_
  refine back.read _ (fun _ => rfl) fun outer ofOuter => logic.bind (logic.hold _ .clearProps)
    fun _ => logic.bind logic.consumeProps fun _ => ?_
  refine of_get_set (J := J) (fun inner : Parser => inner.takeBack outer) _ ?_
  refine back.read _ (fun _ => rfl) fun inner ofInner =>
    logic.bind (back.write outer ofOuter _ (.takeBack outer) fun _ => ⟨rfl, rfl⟩) fun _ =>
      logic.bind logic.peekType fun tt => ?_
  have write : J (modify fun p => p.withPropsOf inner) :=
    back.write inner ofInner _ (.withPropsOf inner) fun _ => ⟨rfl, rfl⟩
  split
  · exact logic.innerScalar calls inner _ _
  · apply logic.openBlockSequence calls
    rintro q ⟨⟩
    exact write
  · exact innerFlow outer inner _ _ _ ofOuter
  · exact innerFlow outer inner _ _ _ ofOuter
  · refine logic.read _ (fun _ => rfl) fun p => ?_
    split
    · exact logic.innerEmptyKey calls inner _
    · exact logic.bind write fun _ => logic.read _ (fun _ => rfl) fun _ =>
        logic.storeWithProps _ rfl

end NodeSteps

namespace NodeLogic

variable {J : {α : Type} → ParseM α → Prop} (logic : NodeLogic J) {n : Nat}
  (calls : (eager n).All J)

include logic calls

theorem parseFlowSequence : J (parseFlowSequence (eager n)) := by
  refine logic.bind logic.checkStop fun _ => logic.bind logic.peekType fun tt => ?_
  split
  · exact logic.closeFlow rfl
  · exact logic.error _ (by decide)
  · exact logic.bind (logic.flowSeqExplicitPair calls) fun _ =>
      logic.flowSeparator _ calls.flowSequence (by decide)
  · exact logic.bind (logic.flowSeqEntry n calls) fun _ =>
      logic.flowSeparator _ calls.flowSequence (by decide)

theorem parseBlockNode : J (parseBlockNode (eager n)) := by
  refine logic.bind logic.checkOom fun _ => logic.bind logic.consumeProps fun _ =>
    logic.bind logic.peek fun _ => logic.read _ (fun _ => rfl) fun p => ?_
  split
  · exact logic.error _ (by decide)
  split
  · exact logic.emitEmpty
  split
  · exact logic.innerProps n calls
  split
  · exact logic.blockAlias calls
  · exact logic.blockFlow n calls _
  · exact logic.blockFlow n calls _
  · split
    · exact logic.emitEmpty
    · exact logic.openBlockSequence calls none fun _ impossible => by cases impossible
  · exact logic.blockScalar calls
  · exact logic.blockExplicitMapping calls
  · split
    · exact logic.emitEmpty
    · exact logic.blockBareValue calls
  · exact logic.emitEmpty

end NodeLogic

/-- Rules for what the node functions do to the events that are stored, whatever the state. -/
structure NodeRules (J : {α : Type} → ParseM α → Prop) : Prop extends NodeSteps J where
  look : ∀ {α : Type} (f : Parser → ParseM α), (∀ p, J (f p)) → J (get >>= f)
  write : ∀ u, PropsWrite u → J (modify u)
  insert : ∀ idx evt, evt.inNode = true → J (insertOrStop idx evt)
  change : ∀ idx (change : Parser → Event → Event), (∀ p evt, (change p evt).type = evt.type) →
    J (modify fun p => { p with events := p.events.modify idx (change p) })

namespace NodeRules

variable {J : {α : Type} → ParseM α → Prop} (logic : NodeRules J)

include logic

theorem back : PropsBack J fun _ => True where
  read _ _ ofParts := logic.look _ fun p => ofParts p trivial
  write _ _ _ write _ := logic.write _ write

theorem movePropsToKeyMap {α : Type} (idx : Nat) (mapEvt : Event) (collStart : Mark)
    (anchor tag : Option Bytes) (f : Event → ParseM α)
    (rest : ∀ evt, evt.inNode = mapEvt.inNode → J (f evt)) :
    J (movePropsToKeyMap idx mapEvt collStart anchor tag >>= f) := by
  rw [Oyl.movePropsToKeyMap, bind_assoc]
  refine logic.bind (logic.change idx _ fun _ _ => rfl) fun _ => ?_
  rw [pure_bind]
  exact rest _ rfl

variable {r : Eager} (calls : r.All J)

include calls

theorem flowSeqEntry : J (flowSeqEntry r) := by
  refine logic.look _ fun p => logic.bind calls.flowNode fun _ =>
    logic.bind logic.peekType fun tt => ?_
  split
  · refine logic.look _ fun last => ?_
    split
    · exact logic.bind (logic.insert _ _ rfl) fun _ => logic.flowPairRest calls
    · exact logic.flowPairRest calls
  · exact logic.pure _

theorem innerFlow (outer inner : Parser) (innerCol : Int) (innerLine : Nat) (isMap : Bool) :
    J (innerFlow r outer inner innerCol innerLine isMap) := by
  have rest (idx : Nat) (keyCol : Int) : J (do
      if (← Oyl.peekType) != .blockMapValue then
        if inner.propsConflict outer then
          parseError "a node cannot have two anchors or two tags"
        else
          modify fun p => { p.clearProps with events := p.events.modify idx outer.giveProps }
      else
        Oyl.insertOrStop idx
          { mapStartAt outer.propsStart with
            anchor := outer.pendingAnchor, tag := outer.pendingTag }
        pushCtx .blockMap keyCol
        Oyl.blockMappingRest r keyCol) := by
    refine logic.bind logic.peekType fun tt => ?_
    split
    · split
      · exact logic.error _ (by decide)
      · exact logic.bind (logic.write _ PropsUpdate.clearProps.toPropsWrite) fun _ =>
          logic.change idx (fun _ => outer.giveProps) fun _ _ => rfl
    · exact logic.bind (logic.insert _ _ rfl) fun _ =>
        logic.bind (logic.push _ _) fun _ => logic.blockMappingRest calls _
  refine of_get_set (J := J) (fun p : Parser => { p.clearProps with haveToken := false }) _ ?_
  have cleared : PropsWrite fun p : Parser => { p.clearProps with haveToken := false } :=
    ⟨fun _ => rfl, fun _ => rfl, fun _ held => by cases held⟩
  refine logic.look _ fun p => logic.bind (logic.write _ cleared) fun _ => ?_
  cases isMap with
  | true =>
      exact logic.bind (logic.store _ rfl) fun _ => logic.bind (logic.push _ _) fun _ =>
        logic.bind calls.flowMapping fun _ => rest _ _
  | false =>
      exact logic.bind (logic.store _ rfl) fun _ => logic.bind (logic.push _ _) fun _ =>
        logic.bind calls.flowSequence fun _ => rest _ _

theorem blockFlow (isMap : Bool) : J (blockFlow r isMap) := by
  refine logic.look _ fun p => logic.bind (logic.openFlow calls isMap) fun _ =>
    logic.bind logic.peek fun _ => logic.look _ fun q => ?_
  have rest (mapEvt : Event) (inNode : mapEvt.inNode = true) (idx : Nat) (col : Int) : J (do
      Oyl.insertOrStop idx mapEvt
      pushCtx .blockMap col
      Oyl.blockMappingRest r col) :=
    logic.bind (logic.insert _ _ inNode) fun _ => logic.bind (logic.push _ _) fun _ =>
      logic.blockMappingRest calls _
  dsimp only
  split
  · split
    · exact logic.movePropsToKeyMap _ _ _ _ _ _ fun mapEvt same => rest mapEvt same _ _
    · exact rest _ rfl _ _
  · exact logic.pure _

omit calls

theorem nodes : NodeLogic J where
  toNodeSteps := logic.toNodeSteps
  flowSeqEntry _ := logic.flowSeqEntry
  innerProps _ calls := logic.toNodeSteps.innerProps calls logic.back fun outer inner _ _ _ _ =>
    logic.innerFlow calls outer inner _ _ _
  blockFlow _ calls := logic.blockFlow calls

end NodeRules

/-! ### Relations between states -/

/-- The functions that a function of the eager parser may call respect `R`. -/
abbrev Eager.Respects (R : Parser → Parser → Prop) (r : Eager) : Prop :=
  r.All (StateError.Respects R)

/-- A relation that the steps of the node functions respect. -/
structure NodeFrame (R : Parser → Parser → Prop) : Prop extends Preorder R where
  peek : Respects R peekToken
  consume : ∀ p, R p { p with haveToken := false }
  enqueue : ∀ evt, evt.inNode = true → Respects R (enqueue evt)
  events : ∀ p events, events.length = p.evtLen →
    (∀ evt ∈ events, ∃ evt' ∈ p.events, evt.type = evt'.type) → R p { p with events := events }
  push : ∀ type indent, Respects R (pushCtx type indent)
  pop : Respects R popCtx
  props : ∀ p anchor tag hasAnchor hasTag line col start,
    R p { p with
      pendingAnchor := anchor, pendingTag := tag, hasAnchor := hasAnchor, hasTag := hasTag,
      propsLine := line, propsCol := col, propsStart := start }
  message : ∀ p msg mark, R p { p with errorMsg := msg, errorMark := mark }
  limit : ∀ p msg, R p (p.hitLimit msg)

namespace NodeFrame

variable {R : Parser → Parser → Prop} (frame : NodeFrame R)

include frame

theorem status {α : Type} (st : Status) : Respects R (throwStatus st : ParseM α) :=
  .throw frame.toPreorder _

theorem error {α : Type} (msg : String) : Respects R (parseError msg : ParseM α) :=
  .bind frame.toPreorder (fun p => frame.message p _ _) fun _ => frame.status _

theorem checkOom : Respects R checkOom := by
  refine .getBind fun p => ?_
  split
  · exact frame.status _ p
  · exact frame.refl p

theorem checkStop : Respects R checkStop := by
  refine .bind frame.toPreorder frame.checkOom fun _ => .getBind fun p => ?_
  split
  · exact Respects.bind frame.toPreorder (.modify fun p => frame.limit p _)
      (fun _ => frame.status _) p
  · exact frame.refl p

theorem enqueue' (evt : Event) (inNode : evt.inNode = true) : Respects R (enqueue' evt) :=
  .discard (frame.enqueue evt inNode)

theorem insertEvent (idx : Nat) (evt : Event) (inNode : evt.inNode = true) :
    Respects R (insertEvent idx evt) := by
  refine .bind frame.toPreorder (frame.enqueue evt inNode) fun stored => ?_
  split
  · exact .pure frame.toPreorder _
  · refine .bind frame.toPreorder (.modify fun p => frame.events p _ ?_ ?_)
      fun _ => .pure frame.toPreorder _
    · have length : p.events.dropLast.length + p.events.getLast?.toList.length = p.evtLen := by
        cases last : p.events.getLast? with
        | none =>
            have empty := List.getLast?_eq_none_iff.mp last
            simp [Parser.evtLen, empty]
        | some e =>
            have := List.length_pos_of_mem (List.mem_of_getLast? last)
            simp [Parser.evtLen]
            omega
      simp only [List.length_append, List.length_take, List.length_drop]
      omega
    · intro e member
      refine ⟨e, ?_, rfl⟩
      rcases List.mem_append.mp member with front | back
      · rcases List.mem_append.mp front with front | last
        · exact (List.dropLast_sublist _).subset (List.mem_of_mem_take front)
        · exact List.mem_of_getLast? (Option.mem_toList.mp last)
      · exact (List.dropLast_sublist _).subset (List.mem_of_mem_drop back)

theorem insertOrStop (idx : Nat) (evt : Event) (inNode : evt.inNode = true) :
    Respects R (insertOrStop idx evt) := by
  refine .bind frame.toPreorder (frame.insertEvent idx evt inNode) fun stored => ?_
  split
  · exact .getBind fun p => frame.status _ p
  · exact .pure frame.toPreorder _

theorem hold {u : Parser → Parser} (update : PropsWrite u) (p : Parser) : R p (u p) := by
  have props (q : Parser) : R q { q with
      pendingAnchor := (u p).pendingAnchor, pendingTag := (u p).pendingTag,
      hasAnchor := (u p).hasAnchor, hasTag := (u p).hasTag, propsLine := (u p).propsLine,
      propsCol := (u p).propsCol, propsStart := (u p).propsStart } :=
    frame.props q _ _ _ _ _ _ _
  rw [update.props p, Parser.withProps]
  cases held : (u p).haveToken with
  | true =>
      have same := props p
      rw [← update.token p held]
      exact same
  | false => exact frame.trans (frame.consume p) (props _)

theorem modifyEvent (idx : Nat) {change : Event → Event}
    (keeps : ∀ evt, (change evt).type = evt.type) (p : Parser) :
    R p { p with events := p.events.modify idx change } := by
  refine frame.events p _ (List.length_modify _ _ _) fun evt member => ?_
  obtain ⟨i, bound, rfl⟩ := List.mem_iff_getElem.mp member
  rw [List.length_modify] at bound
  refine ⟨p.events[i], List.getElem_mem bound, ?_⟩
  rw [List.getElem_modify]
  split
  · exact keeps _
  · rfl

theorem steps : NodeSteps (Respects R) where
  toCompositional := Respects.compositional frame.toPreorder
  error msg _ := frame.error msg
  read _ _ ofParts := .getBind fun p => ofParts p p
  peek := frame.peek
  hold _ update := .modify fun p => frame.hold update.toPropsWrite p
  checkOom := frame.checkOom
  checkStop := frame.checkStop
  store := frame.enqueue'
  push := frame.push
  pop := frame.pop

theorem rules : NodeRules (Respects R) where
  toNodeSteps := frame.steps
  look _ ofParts := .getBind fun p => ofParts p p
  write _ write := .modify fun p => frame.hold write p
  insert := frame.insertOrStop
  change idx _ keeps := .modify fun p => frame.modifyEvent idx (keeps p) p

theorem logic : NodeLogic (Respects R) := frame.rules.nodes

end NodeFrame

end Oyl
