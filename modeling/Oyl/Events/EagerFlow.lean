import Oyl.Events.DocumentFrame
import Oyl.Events.Properties

/-!
# Flow collections of the eager parser

Each function of the eager parser adds the events of whole nodes, with the
data of the tokens that it consumes: the flow nodes.
-/

namespace Oyl

open StateError

/-- Between `p` and `p'` a list of nodes was added. -/
structure AddsNodes (kind : Datum) (count : Nat → Prop) (p p' : Parser) : Prop where
  contexts : p'.contexts = p.contexts
  nodes : ∃ trees, (∀ tree ∈ trees, NodeTree tree) ∧ count trees.length ∧
    Adds kind p p' (Tree.flattenList trees)

/-- Between `p` and `p'` one node was added. -/
structure AddsNode (kind : Datum) (p p' : Parser) : Prop where
  contexts : p'.contexts = p.contexts
  node : ∃ tree, NodeTree tree ∧ Adds kind p p' tree.flatten

/-- Between `p` and `p'` the innermost collection got its last nodes and its end. -/
structure Closes (kind : Datum) (type : EventType) (count : Nat → Prop) (p p' : Parser) :
    Prop where
  contexts : p'.contexts = p.contexts.tail
  nodes : ∃ trees stop, (∀ tree ∈ trees, NodeTree tree) ∧ count trees.length ∧
    stop.type = type ∧ stop.Bare ∧ Adds kind p p' (Tree.flattenList trees ++ [stop])

def even (n : Nat) : Prop := n % 2 = 0

def odd (n : Nat) : Prop := n % 2 = 1

theorem odd_succ (n : Nat) (isEven : even n) : odd (n + 1) := by
  unfold even at isEven
  unfold odd
  omega

theorem even_succ (n : Nat) (isOdd : odd n) : even (n + 1) := by
  unfold odd at isOdd
  unfold even
  omega

def any (_ : Nat) : Prop := True

section

variable {kind : Datum} {p q p' : Parser}

theorem AddsNode.after (first : Onward p q) (second : AddsNode kind q p') :
    AddsNode kind p p' := by
  obtain ⟨tree, node, adds⟩ := second.node
  exact ⟨second.contexts.trans first.contexts, tree, node, (first.adds kind).after adds⟩

theorem AddsNodes.after {count : Nat → Prop} (first : Onward p q)
    (second : AddsNodes kind count q p') : AddsNodes kind count p p' := by
  obtain ⟨trees, nodes, counted, adds⟩ := second.nodes
  exact ⟨second.contexts.trans first.contexts, trees, nodes, counted,
    (first.adds kind).after adds⟩

theorem AddsNodes.none (onward : Onward p p') {count : Nat → Prop} (zero : count 0) :
    AddsNodes kind count p p' :=
  ⟨onward.contexts, [], by simp, zero, onward.adds kind⟩

theorem AddsNode.cons {count : Nat → Prop} (first : AddsNode kind p q)
    {count' : Nat → Prop} (more : ∀ n, count n → count' (n + 1))
    (second : AddsNodes kind count q p') : AddsNodes kind count' p p' := by
  obtain ⟨tree, node, adds⟩ := first.node
  obtain ⟨trees, nodes, counted, adds'⟩ := second.nodes
  refine ⟨second.contexts.trans first.contexts, tree :: trees, ?_, more _ counted, ?_⟩
  · intro t member
    rcases List.mem_cons.mp member with rfl | later
    · exact node
    · exact nodes t later
  · rw [Tree.flattenList]
    exact adds.trans adds'

theorem AddsNode.closes {type : EventType} {count count' : Nat → Prop}
    (first : AddsNode kind p q) (more : ∀ n, count n → count' (n + 1))
    (second : Closes kind type count q p') : Closes kind type count' p p' := by
  obtain ⟨tree, node, adds⟩ := first.node
  obtain ⟨trees, stop, nodes, counted, isStop, bare, adds'⟩ := second.nodes
  refine ⟨second.contexts.trans (congrArg List.tail first.contexts), tree :: trees, stop, ?_,
    more _ counted, isStop, bare, ?_⟩
  · intro t member
    rcases List.mem_cons.mp member with rfl | later
    · exact node
    · exact nodes t later
  · rw [Tree.flattenList, List.append_assoc]
    exact adds.trans adds'

theorem Closes.after {type : EventType} {count : Nat → Prop} (first : Onward p q)
    (second : Closes kind type count q p') : Closes kind type count p p' := by
  obtain ⟨trees, stop, nodes, counted, isStop, bare, adds⟩ := second.nodes
  exact ⟨second.contexts.trans (congrArg List.tail first.contexts), trees, stop, nodes, counted,
    isStop, bare, (first.adds kind).after adds⟩

/-- Consume a token that says nothing. -/
theorem consume_onward (held : p.haveToken = true)
    (silent : ∀ kind, Token.data kind p.tagDirectives p.current = [])
    (plain : p.tokType ≠ .anchor ∧ p.tokType ≠ .tag) :
    Onward p { p with haveToken := false } := by
  refine ⟨fun kind => ⟨rfl, by simp, id, ?_⟩, rfl⟩
  have taken : Conveys kind p { p with haveToken := false } _ :=
    .consume held plain rfl rfl (by cases kind <;> rfl)
  rw [silent kind] at taken
  exact taken

/-- Tokens other than scalars, aliases and properties say nothing. -/
def TokenType.silent : TokenType → Bool
  | .scalar | .alias | .anchor | .tag => false
  | _ => true

theorem consume_silent (held : p.haveToken = true) (silent : p.tokType.silent = true) :
    Onward p { p with haveToken := false } := by
  have type : p.current.type = p.tokType := rfl
  refine consume_onward held (fun kind => ?_) ?_
  · cases here : p.tokType <;> rw [here] at silent type <;>
      first | (cases kind <;> simp [Token.data, type]; done) | cases silent
  · constructor <;> intro same <;> rw [same] at silent <;> cases silent

theorem Peeks.then_silent (peeks : Peeks p q) {type : TokenType} (isType : q.tokType = type)
    (silent : type.silent = true) {a : Unit} (consumed : consumeToken q = .ok a p') :
    Onward p p' := by
  cases consumed
  exact peeks.onward.trans (consume_silent peeks.held (isType ▸ silent))

theorem consumeProps_plain (held : p.haveToken = true)
    (plain : p.tokType ≠ .anchor ∧ p.tokType ≠ .tag) {a : Unit}
    (ok : consumeProps p = .ok a p') : p' = p := by
  have round : consumeProp p = .ok false p := by
    rw [consumeProp, run_bind_ok (peekToken_held held), get_bind_eq]
    simp [plain.1, plain.2]
    rfl
  rw [consumeProps, run_bind_ok round] at ok
  change (if p.hasProps && p.tokType == .alias &&
      (p.current.start.line == p.propsLine || p.inFlow) then
    (parseError "an alias cannot have an anchor or tag" : ParseM Unit) else pure ()) p =
      .ok a p' at ok
  split at ok <;> cases ok
  rfl

/-! ### Nodes that are one event -/

theorem Parser.nodeEvent_bare (p : Parser) (type : EventType) : (p.nodeEvent type).Bare :=
  ⟨rfl, rfl⟩

/-- The event of a scalar or alias token says what the token says. -/
theorem Parser.nodeEvent_data {type : EventType}
    (same : p.tokType = .scalar ∧ type = .scalar ∨ p.tokType = .alias ∧ type = .alias)
    (kind : Datum) : (p.nodeEvent type).data kind = Token.data kind p.tagDirectives p.current := by
  rcases same with ⟨isTok, rfl⟩ | ⟨isTok, rfl⟩ <;>
    cases kind <;> simp [Parser.nodeEvent, Event.data, Token.data, Parser.tokType] at isTok ⊢ <;>
    simp [isTok]

theorem token_conveys (held : q.haveToken = true) {type : EventType}
    (same : q.tokType = .scalar ∧ type = .scalar ∨ q.tokType = .alias ∧ type = .alias) :
    Conveys kind q { q.detached with haveToken := false }
      ((q.attached (q.nodeEvent type)).data kind) := by
  rw [Parser.attached_data (q.nodeEvent_bare type), Parser.nodeEvent_data same]
  refine (q.detached_conveys kind).trans (Conveys.consume (p := q.detached) held ?_ rfl rfl ?_) rfl
  · rcases same with ⟨isTok, _⟩ | ⟨isTok, _⟩ <;> constructor <;>
      (change q.tokType ≠ _; rw [isTok]; decide)
  · cases kind <;> rfl

theorem pointEvent_data (p : Parser) {type : EventType} (notAlias : type ≠ .alias) :
    (p.pointEvent type).data kind = [] := by
  cases kind <;> simp [Parser.pointEvent, Event.data, notAlias]

/-- `emit_empty` -/
theorem emitEmpty_ok {a : Unit} (ok : emitEmpty p = .ok a p') (fine : p'.oom = false) :
    AddsNode kind p p' ∧ p'.Bare := by
  rw [emitEmpty, get_bind_eq] at ok
  obtain rfl := enqueueWithProps_ok ok fine
  refine ⟨⟨rfl, .leaf (p.attached (p.pointEvent .scalar)), ⟨⟨.inl rfl, ?_⟩, trivial⟩, rfl, rfl,
    ?_, ?_⟩, rfl, rfl⟩
  · intro isAlias
    cases isAlias
  · exact Parser.detached_tidy
  · simp only [Tree.flatten, List.flatMap_singleton]
    rw [Parser.attached_data ⟨rfl, rfl⟩, pointEvent_data p (by decide), List.append_nil]
    exact .attach rfl rfl ⟨rfl, rfl⟩

end

section

variable {kind : Datum} {p q p' : Parser} {raw : List Event} {evt : Event}

/-- An event without data is stored. -/
theorem Adds.enqueue (silent : evt.data kind = []) :
    Adds kind p { p with events := p.events ++ [p.tagged evt] } [evt] where
  fixed := rfl
  events := rfl
  tidy := id
  conveys := by
    rw [List.flatMap_singleton, silent]
    exact .stay rfl rfl (by cases kind <;> rfl)

/-- `insert_event` before the events that were added last. -/
theorem insertOrStop_events {more : List Event} {idx : Nat} (added : q.events = p.events ++ more)
    (here : idx = p.evtLen) {a : Unit} (ok : insertOrStop idx evt q = .ok a p')
    (fine : p'.oom = false) : p' = { q with events := p.events ++ q.tagged evt :: more } := by
  obtain ⟨stored, last, inserted, rest⟩ := bind_eq_ok ok
  obtain ⟨kept, mid, enqueued, moved⟩ := bind_eq_ok inserted
  rw [enqueue_run] at enqueued
  split at enqueued
  · -- the event limit is reached
    cases enqueued
    simp only [Bool.not_false, if_true] at moved
    cases moved
    cases rest
  · cases enqueued
    simp only [Bool.not_true, Bool.false_eq_true, if_false] at moved
    cases moved
    simp only [Bool.not_true, Bool.false_eq_true, if_false] at rest
    cases rest
    subst here
    have order : (q.events ++ [q.tagged evt]).dropLast.take p.evtLen ++
        (q.events ++ [q.tagged evt]).getLast?.toList ++
        (q.events ++ [q.tagged evt]).dropLast.drop p.evtLen =
          p.events ++ q.tagged evt :: more := by
      rw [List.dropLast_concat, List.getLast?_concat, added]
      simp [Parser.evtLen]
    rw [order]

theorem insertOrStop_ok (adds : Adds kind p q raw) {idx : Nat} (here : idx = p.evtLen)
    (ok : insertOrStop idx evt q = .ok () p') (fine : p'.oom = false) :
    p' = { q with events := p.events ++ (evt :: raw).map p.tagged } := by
  rw [insertOrStop_events adds.events here ok fine, Parser.fixed_tagged adds.fixed]
  rfl

theorem Conveys.stored {data : List Bytes} (events : List Event)
    (conveys : Conveys kind p q data) : Conveys kind p { q with events := events } data := by
  obtain ⟨toks, log, scans, tokens, carried⟩ := conveys
  refine ⟨toks, log, scans, tokens, ?_⟩
  cases kind <;> exact carried

/-- An event is stored that carries what was consumed before. -/
theorem Adds.store (fixed : q.fixed = p.fixed) (events : q.events = p.events)
    (tidy : p.PropsTidy → q.PropsTidy) (carried : Conveys kind p q (evt.data kind)) :
    Adds kind p { q with events := q.events ++ [q.tagged evt] } [evt] where
  fixed := fixed
  events := by rw [events, Parser.fixed_tagged fixed, List.map_singleton]
  tidy := tidy
  conveys := by
    rw [List.flatMap_singleton]
    exact carried.stored _

/-- An event without data is inserted before the events that were added last. -/
theorem Adds.inserted (adds : Adds kind p q raw) (silent : evt.data kind = []) :
    Adds kind p { q with events := p.events ++ (evt :: raw).map p.tagged } (evt :: raw) where
  fixed := adds.fixed
  events := rfl
  tidy := adds.tidy
  conveys := by
    rw [List.flatMap_cons, silent]
    exact adds.conveys.stored _

/-- A start event and what closes its collection. -/
theorem AddsNode.of_closes {type : EventType} {count : Nat → Prop} {start : Event}
    (adds : Adds kind p q [start]) (pushed : q.contexts.tail = p.contexts)
    (closes : Closes kind type count q p') (opens : start.type.opens = true)
    (closing : type = start.type.closing)
    (pairs : start.type = .mappingStart → ∀ n, count n → n % 2 = 0) : AddsNode kind p p' := by
  obtain ⟨trees, stop, nodes, counted, isStop, bare, adds'⟩ := closes.nodes
  have pair : EventPair start stop := ⟨opens, isStop.trans closing, bare.1⟩
  have whole := adds.trans adds'
  refine ⟨closes.contexts.trans pushed, .node start trees stop,
    ⟨⟨pair, ?_⟩, fun isMap => pairs isMap _ counted, ?_⟩, whole⟩
  · exact Tree.shapedList_iff.mpr fun tree member => (nodes tree member).shaped
  · exact Tree.pairedList_iff.mpr fun tree member => (nodes tree member).paired

/-- A pair in a flow sequence: a mapping of two nodes. -/
theorem AddsNode.pair {first second : Parser} {start stop : Event}
    (adds : Adds kind p q (start :: raw)) {key : Tree Event} (isKey : raw = key.flatten)
    (nodeKey : NodeTree key) (value : AddsNode kind q first) (contexts : q.contexts = p.contexts)
    (onward : Onward first second) (isStart : start.type = .mappingStart)
    (isStop : stop.type = .mappingEnd) (bare : stop.Bare)
    (ended : p' = { second with events := second.events ++ [second.tagged stop] }) :
    AddsNode kind p p' := by
  subst ended isKey
  obtain ⟨tree, node, adds'⟩ := value.node
  have silent : stop.data kind = [] := by
    cases kind <;> simp [Event.data, isStop, bare.1, bare.2]
  have whole := (adds.trans adds').trans ((onward.adds kind).after (Adds.enqueue silent))
  refine ⟨(onward.contexts.trans value.contexts).trans contexts, .node start [key, tree] stop,
    .mapping ⟨by rw [isStart]; rfl, by rw [isStart, isStop]; rfl, bare.1⟩ (by simp) ?_, ?_⟩
  · intro t member
    simp only [List.mem_cons, List.not_mem_nil, or_false] at member
    rcases member with rfl | rfl
    · exact nodeKey
    · exact node
  · simpa [Tree.flatten, Tree.flattenList] using whole

end

/-- The flow functions that a function of the eager parser may call add nodes. -/
structure Eager.WritesFlow (kind : Datum) (r : Eager) : Prop where
  steady : r.Respects Steady
  flowSequence : ∀ {p p' : Parser}, r.flowSequence p = .ok () p' → p'.oom = false →
    p.Flowing → Closes kind .sequenceEnd any p p' ∧ (p.Bare → p'.Bare)
  flowMapping : ∀ {p p' : Parser}, r.flowMapping p = .ok () p' → p'.oom = false →
    p.Flowing → Closes kind .mappingEnd even p p' ∧ (p.Bare → p'.Bare)
  flowNode : ∀ {p p' : Parser}, r.flowNode p = .ok () p' → p'.oom = false →
    (p.Flowing ∨ p.incremental = false ∧ p.haveToken = true ∧
      (p.tokType = .flowSeqStart ∨ p.tokType = .flowMapStart)) →
    AddsNode kind p p' ∧ p'.Bare

/-! ### Flow collections -/

section

variable {kind : Datum} {r : Eager} {p p' : Parser}

theorem endFlowPair_ok {a : Unit} (ok : endFlowPair p = .ok a p') (fine : p'.oom = false) :
    ∃ q, Peeks p q ∧
      p' = { q with events := q.events ++ [q.tagged (q.pointEvent .mappingEnd)] } := by
  obtain ⟨_, q, peeked, rest⟩ := bind_eq_ok ok
  rw [get_bind_eq] at rest
  exact ⟨q, peekToken_ok peeked, enqueue'_ok rest fine⟩

theorem flowSeparator_ok {close : TokenType} {again : ParseM Unit} {msg : String}
    (ok : flowSeparator close again msg p = .ok () p') :
    ∃ q, Onward p q ∧ (p.Bare → q.Bare) ∧ again q = .ok () p' := by
  obtain ⟨tt, q, found, rest⟩ := bind_eq_ok ok
  obtain ⟨rfl, peeks⟩ := peekType_ok found
  split at rest
  · rename_i isEntry
    obtain ⟨_, q', consumed, last⟩ := bind_eq_ok rest
    have onward := peeks.then_silent (beq_iff_eq.mp isEntry) rfl consumed
    cases consumed
    exact ⟨_, onward, peeks.bare, last⟩
  split at rest
  · exact ⟨q, peeks.onward, peeks.bare, rest⟩
  · cases rest

variable (calls : r.WritesFlow kind)

include calls

theorem flowNodeOrEmpty_ok {ends : List TokenType} {a : Unit}
    (ok : flowNodeOrEmpty r ends p = .ok a p') (fine : p'.oom = false)
    (inFlow : p.Flowing) : AddsNode kind p p' ∧ p'.Bare := by
  obtain ⟨tt, q, found, rest⟩ := bind_eq_ok ok
  obtain ⟨rfl, peeks⟩ := peekType_ok found
  have onward := peeks.onward
  split at rest
  · obtain ⟨node, bare⟩ := emitEmpty_ok rest fine
    exact ⟨node.after onward, bare⟩
  · obtain ⟨node, bare⟩ := calls.flowNode rest fine (.inl (onward.flowing inFlow))
    exact ⟨node.after onward, bare⟩

theorem flowValue_ok {close : TokenType} {a : Unit}
    (ok : flowValue r close p = .ok a p') (fine : p'.oom = false) (inFlow : p.Flowing) :
    AddsNode kind p p' ∧ p'.Bare := by
  obtain ⟨tt, q, found, rest⟩ := bind_eq_ok ok
  obtain ⟨rfl, peeks⟩ := peekType_ok found
  split at rest
  · rename_i isColon
    obtain ⟨_, q', consumed, last⟩ := bind_eq_ok rest
    have onward := peeks.then_silent (beq_iff_eq.mp isColon) rfl consumed
    obtain ⟨node, bare⟩ := flowNodeOrEmpty_ok calls last fine (onward.flowing inFlow)
    exact ⟨node.after onward, bare⟩
  · obtain ⟨node, bare⟩ := emitEmpty_ok rest fine
    exact ⟨node.after peeks.onward, bare⟩

/-- `? key : value`, at the `?` -/
theorem flowSeqExplicitPair_ok {a : Unit} (ok : flowSeqExplicitPair r p = .ok a p')
    (fine : p'.oom = false) (inFlow : p.Flowing) (held : p.haveToken = true)
    (isKey : p.tokType = .blockMapKey) : AddsNode kind p p' ∧ p'.Bare := by
  have frame := steady_nodeFrame
  rw [flowSeqExplicitPair, get_bind_eq] at ok
  obtain ⟨_, p1, opened, rest⟩ := bind_eq_ok ok
  obtain ⟨_, p2, consumed, rest⟩ := bind_eq_ok rest
  obtain ⟨_, p3, key, rest⟩ := bind_eq_ok rest
  obtain ⟨_, p4, value, ended⟩ := bind_eq_ok rest
  have fine4 := (frame.steps.endFlowPair.ok ended).2 fine
  have fine3 := ((frame.steps.flowValue calls.steady _).ok value).2 fine4
  have fine2 := ((frame.steps.flowNodeOrEmpty calls.steady _).ok key).2 fine3
  cases consumed
  obtain rfl := enqueue'_ok opened fine2
  generalize isStart : { p.tokenEvent .mappingStart with flow := true } = start at *
  have onward : Onward { p with events := p.events ++ [p.tagged start] }
      { p with events := p.events ++ [p.tagged start], haveToken := false } :=
    consume_silent held (isKey ▸ rfl : p.tokType.silent = true)
  have inFlow2 := onward.flowing (show Parser.Flowing _ from inFlow)
  obtain ⟨nodeKey, _⟩ := flowNodeOrEmpty_ok calls key fine3 inFlow2
  obtain ⟨tree, node, adds⟩ := nodeKey.node
  have inFlow3 := Parser.Flowing.of_fixed adds.fixed nodeKey.contexts inFlow2
  obtain ⟨nodeValue, bare⟩ := flowValue_ok calls value fine4 inFlow3
  obtain ⟨q, peeks, last⟩ := endFlowPair_ok ended fine
  have silent : start.data kind = [] := by
    subst isStart
    cases kind <;> rfl
  have first : Adds kind p p3 (start :: tree.flatten) :=
    (Adds.enqueue silent).trans ((onward.adds kind).after adds)
  refine ⟨.pair first rfl node nodeValue nodeKey.contexts peeks.onward (isStart ▸ rfl) rfl
    ⟨rfl, rfl⟩ last, ?_⟩
  subst last
  exact peeks.bare bare

/-- After an entry of a flow sequence that turned out to be a key. -/
theorem flowPairRest_ok {a : Unit} (ok : flowPairRest r p = .ok a p') (fine : p'.oom = false)
    (inFlow : p.Flowing) (held : p.haveToken = true) (isColon : p.tokType = .blockMapValue) :
    ∃ first second, Onward p { p with haveToken := false } ∧
      AddsNode kind { p with haveToken := false } first ∧ Peeks first second ∧ first.Bare ∧
      p' = { second with
        events := second.events ++ [second.tagged (second.pointEvent .mappingEnd)] } := by
  obtain ⟨_, q, consumed, rest⟩ := bind_eq_ok ok
  obtain ⟨_, q', value, ended⟩ := bind_eq_ok rest
  have fine' := (steady_nodeFrame.steps.endFlowPair.ok ended).2 fine
  cases consumed
  have onward := consume_silent held (isColon ▸ rfl : p.tokType.silent = true)
  obtain ⟨nodeValue, bare⟩ := flowNodeOrEmpty_ok calls value fine' (onward.flowing inFlow)
  obtain ⟨second, peeks, last⟩ := endFlowPair_ok ended fine
  exact ⟨q', second, onward, nodeValue, peeks, bare, last⟩

/-- An entry of a flow sequence. -/
theorem flowSeqEntry_ok {a : Unit} (ok : flowSeqEntry r p = .ok a p') (fine : p'.oom = false)
    (inFlow : p.Flowing) : AddsNode kind p p' ∧ p'.Bare := by
  have frame := steady_nodeFrame
  rw [flowSeqEntry, get_bind_eq] at ok
  obtain ⟨_, p1, key, rest⟩ := bind_eq_ok ok
  obtain ⟨tt, p2, found, rest⟩ := bind_eq_ok rest
  obtain ⟨rfl, peeks⟩ := peekType_ok found
  have ofKey (fine2 : p2.oom = false) : ∃ tree, NodeTree tree ∧ p1.contexts = p.contexts ∧
      p1.Bare ∧ Adds kind p p2 tree.flatten := by
    have fine1 : p1.oom = false := (frame.steps.peekType.ok found).2 fine2
    obtain ⟨node, bare⟩ := calls.flowNode key fine1 (.inl inFlow)
    obtain ⟨tree, nodeTree, adds⟩ := node.node
    exact ⟨tree, nodeTree, node.contexts, bare, adds.before (peeks.onward.adds kind)⟩
  split at rest
  · rename_i isColon
    rw [get_bind_eq] at rest
    split at rest
    · obtain ⟨_, p3, inserted, last⟩ := bind_eq_ok rest
      have fine3 := ((frame.steps.flowPairRest calls.steady).ok last).2 fine
      obtain ⟨tree, nodeTree, contexts, _, adds⟩ :=
        ofKey (((frame.insertOrStop _ _ rfl).ok inserted).2 fine3)
      have moved := insertOrStop_ok adds rfl inserted fine3
      generalize isStart : p2.keyMapStart p.evtLen true = start at moved
      have silent : start.data kind = [] := by
        subst isStart
        cases kind <;> rfl
      have opened : Adds kind p p3 (start :: tree.flatten) := moved ▸ adds.inserted silent
      have held : p3.haveToken = true := by rw [moved]; exact peeks.held
      have isColon' : p3.tokType = .blockMapValue := by
        rw [moved]
        exact beq_iff_eq.mp isColon
      have contexts' : p3.contexts = p.contexts := by
        rw [moved]
        exact peeks.onward.contexts.trans contexts
      have inFlow' := Parser.Flowing.of_fixed opened.fixed contexts' inFlow
      obtain ⟨first, second, onward, value, peeks', bare, ended⟩ :=
        flowPairRest_ok calls last fine inFlow' held isColon'
      refine ⟨.pair opened rfl nodeTree (value.after onward) contexts' peeks'.onward
        (isStart ▸ rfl) rfl ⟨rfl, rfl⟩ ended, ?_⟩
      subst ended
      exact peeks'.bare bare
    · rename_i short
      have fine2 := ((frame.steps.flowPairRest calls.steady).ok rest).2 fine
      obtain ⟨tree, _, _, _, adds⟩ := ofKey fine2
      have longer := tree.flatten_length_pos
      simp only [Parser.evtLen, adds.events, List.length_append, List.length_map] at short
      omega
  · cases rest
    obtain ⟨tree, nodeTree, contexts, bare, adds⟩ := ofKey fine
    exact ⟨⟨peeks.onward.contexts.trans contexts, tree, nodeTree, adds⟩, peeks.bare bare⟩

omit calls in
theorem closeFlow_ok {type : EventType} {count : Nat → Prop} (zero : count 0)
    (isStop : type.closes = true) {a : Unit} (ok : closeFlow type p = .ok a p')
    (fine : p'.oom = false) (held : p.haveToken = true) (silent : p.tokType.silent = true) :
    Closes kind type count p p' ∧ (p.Bare → p'.Bare) := by
  rw [closeFlow, get_bind_eq] at ok
  obtain ⟨_, q, consumed, rest⟩ := bind_eq_ok ok
  obtain ⟨_, q', stored, popped⟩ := bind_eq_ok rest
  cases consumed
  cases popped
  obtain rfl := enqueue'_ok stored fine
  have bare : (p.tokenEvent type).data kind = [] := by
    cases kind <;> cases type <;> first | rfl | cases isStop
  have adds := ((consume_silent held silent).adds kind).after (Adds.enqueue bare)
  exact ⟨⟨rfl, [], p.tokenEvent type, by simp, zero, rfl, ⟨rfl, rfl⟩,
    ⟨adds.fixed, adds.events, adds.tidy, adds.conveys⟩⟩, id⟩

/-- `parse_flow_sequence` -/
theorem parseFlowSequence_ok (ok : parseFlowSequence r p = .ok () p') (fine : p'.oom = false)
    (inFlow : p.Flowing) :
    Closes kind .sequenceEnd any p p' ∧ (p.Bare → p'.Bare) := by
  have frame := steady_nodeFrame
  obtain ⟨_, q, checked, rest⟩ := bind_eq_ok ok
  obtain rfl := checkStop_ok checked
  obtain ⟨tt, q', found, rest⟩ := bind_eq_ok rest
  obtain ⟨isType, peeks⟩ := peekType_ok found
  have inFlow' := peeks.onward.flowing inFlow
  have again {last : Parser}
      (added : last.oom = false → AddsNode kind q' last ∧ last.Bare)
      (ok : flowSeparator .flowSeqEnd r.flowSequence "expected ',' or ']' in flow sequence" last =
        .ok () p') : Closes kind .sequenceEnd any q p' ∧ (q.Bare → p'.Bare) := by
    have fine' := ((frame.steps.flowSeparator _ calls.steady.flowSequence (by decide)).ok ok).2 fine
    obtain ⟨node, bare⟩ := added fine'
    obtain ⟨next, onward, kept, loop⟩ := flowSeparator_ok ok
    obtain ⟨tree, _, adds⟩ := node.node
    have inFlow'' := Parser.Flowing.of_fixed adds.fixed node.contexts inFlow'
    obtain ⟨closes, bare'⟩ := calls.flowSequence loop fine (onward.flowing inFlow'')
    exact ⟨.after peeks.onward (node.closes (fun _ _ => trivial) (closes.after onward)),
      fun _ => bare' (kept bare)⟩
  split at rest
  · have closed : Closes kind .sequenceEnd any q' p' ∧ (q'.Bare → p'.Bare) :=
      closeFlow_ok trivial rfl rest fine peeks.held (isType ▸ rfl)
    exact ⟨closed.1.after peeks.onward, fun begun => closed.2 (peeks.bare begun)⟩
  · cases rest
  · obtain ⟨_, last, pair, loop⟩ := bind_eq_ok rest
    exact again (fun fine' =>
      flowSeqExplicitPair_ok calls pair fine' inFlow' peeks.held isType.symm) loop
  · obtain ⟨_, last, entry, loop⟩ := bind_eq_ok rest
    exact again (fun fine' => flowSeqEntry_ok calls entry fine' inFlow') loop

/-- The key of a flow mapping's entry. -/
theorem flowMapKey_ok {a : Unit} (ok : flowMapKey r p = .ok a p') (fine : p'.oom = false)
    (inFlow : p.Flowing) : AddsNode kind p p' := by
  obtain ⟨tt, q, found, rest⟩ := bind_eq_ok ok
  obtain ⟨rfl, peeks⟩ := peekType_ok found
  split at rest
  · rename_i isKey
    obtain ⟨_, q', consumed, last⟩ := bind_eq_ok rest
    have onward := peeks.then_silent (beq_iff_eq.mp isKey) rfl consumed
    exact (flowNodeOrEmpty_ok calls last fine (onward.flowing inFlow)).1.after onward
  · exact (calls.flowNode rest fine (.inl (peeks.onward.flowing inFlow))).1.after
      peeks.onward

/-- `parse_flow_mapping` -/
theorem parseFlowMapping_ok (ok : parseFlowMapping r p = .ok () p') (fine : p'.oom = false)
    (inFlow : p.Flowing) :
    Closes kind .mappingEnd even p p' ∧ (p.Bare → p'.Bare) := by
  have frame := steady_nodeFrame
  obtain ⟨_, q, checked, rest⟩ := bind_eq_ok ok
  obtain rfl := checkStop_ok checked
  obtain ⟨tt, q', found, rest⟩ := bind_eq_ok rest
  obtain ⟨isType, peeks⟩ := peekType_ok found
  have inFlow' := peeks.onward.flowing inFlow
  split at rest
  · have closed : Closes kind .mappingEnd even q' p' ∧ (q'.Bare → p'.Bare) :=
      closeFlow_ok rfl rfl rest fine peeks.held (isType ▸ rfl)
    exact ⟨closed.1.after peeks.onward, fun begun => closed.2 (peeks.bare begun)⟩
  · cases rest
  · obtain ⟨_, p1, key, rest⟩ := bind_eq_ok rest
    obtain ⟨_, p2, value, loop⟩ := bind_eq_ok rest
    have fine2 := ((frame.steps.flowSeparator _ calls.steady.flowMapping (by decide)).ok loop).2 fine
    have fine1 := ((frame.steps.flowValue calls.steady _).ok value).2 fine2
    have nodeKey := flowMapKey_ok calls key fine1 inFlow'
    obtain ⟨tree, _, adds⟩ := nodeKey.node
    have inFlow1 := Parser.Flowing.of_fixed adds.fixed nodeKey.contexts inFlow'
    obtain ⟨nodeValue, bare⟩ := flowValue_ok calls value fine2 inFlow1
    obtain ⟨tree', _, adds'⟩ := nodeValue.node
    have inFlow2 := Parser.Flowing.of_fixed adds'.fixed nodeValue.contexts inFlow1
    obtain ⟨next, onward, kept, again⟩ := flowSeparator_ok loop
    obtain ⟨closes, bare'⟩ := calls.flowMapping again fine (onward.flowing inFlow2)
    exact ⟨.after peeks.onward (nodeKey.closes even_succ (nodeValue.closes odd_succ
      (closes.after onward))), fun _ => bare' (kept bare)⟩

/-- A flow collection, opened at its bracket. -/
theorem openFlow_ok {isMap : Bool} {a : Unit} (ok : openFlow r isMap p = .ok a p')
    (fine : p'.oom = false) (held : p.haveToken = true) (silent : p.tokType.silent = true)
    (eager : p.incremental = false) :
    p'.contexts = p.contexts ∧ p'.Bare ∧ ∃ start trees stop,
      start = p.attached { p.tokenEvent (if isMap then .mappingStart else .sequenceStart) with
        flow := true } ∧
      NodeTree (.node start trees stop) ∧ Adds kind p p' (Tree.node start trees stop).flatten := by
  have frame := steady_nodeFrame
  rw [openFlow, get_bind_eq] at ok
  obtain ⟨_, p1, consumed, rest⟩ := bind_eq_ok ok
  obtain ⟨_, p2, stored, opening⟩ := bind_eq_ok rest
  cases consumed
  generalize isStart : { p.tokenEvent (if isMap then EventType.mappingStart else .sequenceStart)
    with flow := true } = start at *
  have blank : start.Bare := isStart ▸ ⟨rfl, rfl⟩
  have nothing : start.data .value = [] := by
    subst isStart
    cases isMap <;> rfl
  have opened {events : List Event} (isEvents : events = p.events ++ [p.tagged (p.attached start)])
      {contexts : List CtxEntry} : Adds kind p
      { p.detached with haveToken := false, events := events, contexts := contexts }
      [p.attached start] := by
    refine ⟨rfl, isEvents, Parser.detached_tidy, ?_⟩
    rw [List.flatMap_singleton, Parser.attached_data blank]
    have none : start.data kind = [] := by
      cases kind with
      | value => exact nothing
      | anchor => simp [Event.data, blank.1]
      | tag => simp [Event.data, blank.2]
    rw [none]
    refine Conveys.trans (q := p.detached) (p.detached_conveys kind) ?_ rfl
    have step := (consume_silent (p := p.detached) held silent).adds kind
    exact step.conveys.stored events
  have finish {type : CtxType} {loop : ParseM Unit} {ending : EventType} {count : Nat → Prop}
      (isFlow : type.isFlow = true) (steady : Respects Steady loop)
      (spec : ∀ {q q' : Parser}, loop q = .ok () q' → q'.oom = false → q.Flowing →
        Closes kind ending count q q' ∧ (q.Bare → q'.Bare))
      (opens : start.type.opens = true) (closing : ending = start.type.closing)
      (pairs : start.type = .mappingStart → ∀ n, count n → n % 2 = 0)
      (ok : (do pushCtx type p.tokCol; loop) p2 = .ok a p') :
      p'.contexts = p.contexts ∧ p'.Bare ∧ ∃ start' trees stop, start' = p.attached start ∧
        NodeTree (.node start' trees stop) ∧
        Adds kind p p' (Tree.node start' trees stop).flatten := by
    obtain ⟨_, p3, pushed, looped⟩ := bind_eq_ok ok
    have fine3 := (steady.ok looped).2 fine
    have fine2 := ((frame.push _ _).ok pushed).2 fine3
    obtain rfl := enqueueWithProps_ok stored fine2
    obtain rfl := pushCtx_ok pushed fine3
    obtain ⟨closes, bare⟩ := spec looped fine ⟨eager, by
      simp [Parser.inFlow, Parser.detached, eager, Parser.topCtx, isFlow]⟩
    have whole := AddsNode.of_closes (opened rfl) rfl closes opens closing pairs
    obtain ⟨trees, stop, nodes, counted, isStop, unanchored, adds⟩ := closes.nodes
    have pair : EventPair (p.attached start) stop := ⟨opens, isStop.trans closing, unanchored.1⟩
    refine ⟨whole.contexts, bare ⟨rfl, rfl⟩, p.attached start, trees, stop, rfl,
      ⟨⟨pair, Tree.shapedList_iff.mpr fun tree member => (nodes tree member).shaped⟩,
        fun isMap => pairs isMap _ counted,
        Tree.pairedList_iff.mpr fun tree member => (nodes tree member).paired⟩, ?_⟩
    exact (opened rfl).trans adds
  cases isMap with
  | true =>
      subst isStart
      exact finish (rfl : CtxType.flowMap.isFlow = true) calls.steady.flowMapping
        calls.flowMapping rfl rfl (fun _ _ isEven => isEven) opening
  | false =>
      subst isStart
      exact finish (rfl : CtxType.flowSeq.isFlow = true) calls.steady.flowSequence
        calls.flowSequence rfl rfl (fun isMap => EventType.noConfusion isMap) opening

/-- A flow collection is added behind the events that were there. -/
theorem openFlow_events {isMap : Bool} {a : Unit} (ok : openFlow r isMap p = .ok a p')
    (fine : p'.oom = false) (eager : p.incremental = false) :
    ∃ start more, start.type = (if isMap then .mappingStart else .sequenceStart) ∧
      p'.events = p.events ++ start :: more := by
  have frame := steady_nodeFrame
  rw [openFlow, get_bind_eq] at ok
  obtain ⟨_, p1, consumed, rest⟩ := bind_eq_ok ok
  obtain ⟨_, p2, stored, opening⟩ := bind_eq_ok rest
  cases consumed
  have finish {type : CtxType} {loop : ParseM Unit} {ending : EventType} {count : Nat → Prop}
      (isFlow : type.isFlow = true) (steady : Respects Steady loop)
      (spec : ∀ {q q' : Parser}, loop q = .ok () q' → q'.oom = false → q.Flowing →
        Closes kind ending count q q' ∧ (q.Bare → q'.Bare))
      (ok : (do pushCtx type p.tokCol; loop) p2 = .ok a p') :
      ∃ start more, start.type = (if isMap then .mappingStart else .sequenceStart) ∧
        p'.events = p.events ++ start :: more := by
    obtain ⟨_, p3, pushed, looped⟩ := bind_eq_ok ok
    have fine3 := (steady.ok looped).2 fine
    have fine2 := ((frame.push _ _).ok pushed).2 fine3
    obtain rfl := enqueueWithProps_ok stored fine2
    obtain rfl := pushCtx_ok pushed fine3
    obtain ⟨closes, _⟩ := spec looped fine ⟨eager, by
      simp [Parser.inFlow, Parser.detached, eager, Parser.topCtx, isFlow]⟩
    obtain ⟨trees, stop, _, _, _, _, adds⟩ := closes.nodes
    refine ⟨_, _, ?_, adds.events.trans (List.append_assoc _ _ _)⟩
    rfl
  cases isMap with
  | true =>
      exact finish (rfl : CtxType.flowMap.isFlow = true) calls.steady.flowMapping
        calls.flowMapping opening
  | false =>
      exact finish (rfl : CtxType.flowSeq.isFlow = true) calls.steady.flowSequence
        calls.flowSequence opening

/-- `parse_flow_node` -/
theorem parseFlowNode_ok (ok : parseFlowNode r p = .ok () p') (fine : p'.oom = false)
    (ready : p.Flowing ∨ p.incremental = false ∧ p.haveToken = true ∧
      (p.tokType = .flowSeqStart ∨ p.tokType = .flowMapStart)) :
    AddsNode kind p p' ∧ p'.Bare := by
  have frame := steady_nodeFrame
  obtain ⟨_, q, checked, rest⟩ := bind_eq_ok ok
  obtain rfl := checkOom_ok checked
  obtain ⟨_, q1, props, rest⟩ := bind_eq_ok rest
  obtain ⟨onward, held, unnamed⟩ := consumeProps_ok props
  obtain ⟨tt, q2, found, node⟩ := bind_eq_ok rest
  obtain ⟨isType, rfl⟩ := peekType_held held found
  have eager1 : q1.incremental = false := by
    refine (Parser.fixed_incremental (onward.adds kind).fixed).trans ?_
    rcases ready with flowing | opening
    · exact flowing.1
    · exact opening.1
  have opened {isMap : Bool} (silent : q1.tokType.silent = true)
      (ok : openFlow r isMap q1 = .ok () p') : AddsNode kind q p' ∧ p'.Bare := by
    obtain ⟨contexts, bare, start, trees, stop, _, node, adds⟩ :=
      openFlow_ok calls ok fine held silent eager1
    exact ⟨.after onward ⟨contexts, _, node, adds⟩, bare⟩
  split at node
  · have isAlias := isType.symm
    rw [get_bind_eq] at node
    obtain ⟨_, q3, stored, last⟩ := bind_eq_ok node
    cases last
    obtain rfl := enqueueWithProps_ok stored fine
    -- an alias in a flow collection has no properties
    have bare : q1.Bare := by
      refine Parser.bare_of_hasProps (Bool.eq_false_iff.mpr fun has => ?_)
      have outside := (unnamed has isAlias).2
      rcases ready with inFlow | ⟨_, begun, isFlow⟩
      · rw [onward.inFlow, inFlow.2] at outside
        cases outside
      · have same := consumeProps_plain begun
          (by rcases isFlow with type | type <;> rw [type] <;> decide) props
        subst same
        rw [isAlias] at isFlow
        rcases isFlow with type | type <;> cases type
    refine ⟨.after onward ⟨rfl, .leaf (q1.attached (q1.nodeEvent .alias)),
      ⟨⟨.inr rfl, fun _ => ?_⟩, trivial⟩, rfl, rfl, ?_, ?_⟩, rfl, rfl⟩
    · simp [Parser.attached, bare.1, Parser.nodeEvent]
    · exact Parser.detached_tidy
    · simp only [Tree.flatten, List.flatMap_singleton]
      exact (token_conveys held (.inr ⟨isAlias, rfl⟩)).stored _
  · exact opened (isType ▸ rfl) node
  · exact opened (isType ▸ rfl) node
  · have isScalar := isType.symm
    rw [get_bind_eq] at node
    obtain ⟨evt, q3, attached, more⟩ := bind_eq_ok node
    rw [attachProps_run] at attached
    cases attached
    obtain ⟨_, q4, consumed, last⟩ := bind_eq_ok more
    obtain ⟨_, q5, peeked, stored⟩ := bind_eq_ok last
    cases consumed
    have peeks := peekToken_ok peeked
    obtain rfl := enqueue'_ok stored fine
    have conveys : Conveys kind _ _ _ := token_conveys held (.inl ⟨isScalar, rfl⟩)
    have carried := conveys.trans (peeks.onward.adds kind).conveys rfl
    rw [List.flatMap_nil, List.append_nil] at carried
    have adds := Adds.store (show q5.fixed = q1.fixed from (peeks.onward.adds kind).fixed)
      peeks.onward.events (fun tidy => (peeks.onward.adds kind).tidy
        (Parser.detached_tidy tidy)) carried
    exact ⟨.after onward ⟨peeks.onward.contexts, .leaf _, ⟨⟨.inl rfl,
      fun (isAlias : EventType.scalar = .alias) => EventType.noConfusion isAlias⟩, trivial⟩, adds⟩,
      peeks.bare ⟨rfl, rfl⟩⟩
  · obtain ⟨empty, bare⟩ := emitEmpty_ok node fine
    exact ⟨empty.after onward, bare⟩

end

/-- The flow functions of the eager parser add nodes. -/
theorem eager_writesFlow (kind : Datum) (n : Nat) : (eager n).WritesFlow kind := by
  have steady (n : Nat) : (eager n).Respects Steady :=
    steady_nodeFrame.logic.eager (fun p => steady_nodeFrame.refl p) n
  induction n with
  | zero =>
      refine ⟨steady 0, ?_, ?_, ?_⟩ <;> intro p p' ok <;> cases ok
  | succ n ih =>
      exact ⟨steady (n + 1), parseFlowSequence_ok ih, parseFlowMapping_ok ih, parseFlowNode_ok ih⟩

end Oyl
