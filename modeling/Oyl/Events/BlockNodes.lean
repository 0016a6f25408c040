import Oyl.Events.EagerFlow

/-!
# Block nodes of the eager parser

Each function of the eager parser that returns, and did not stop, has stored the events
of whole nodes: one for a node or a value, an even number for a mapping's entries.
-/

namespace Oyl

open StateError

/-- Between `p` and `p'` these events were stored, in the collections that were open. -/
structure Stored (p p' : Parser) (events : List Event) : Prop where
  fixed : p'.fixed = p.fixed
  contexts : p'.contexts = p.contexts
  events : p'.events = p.events ++ events

/-- Whole nodes were stored. -/
def StoresNodes (count : Nat → Prop) (p p' : Parser) : Prop :=
  ∃ trees, (∀ tree ∈ trees, NodeTree tree) ∧ count trees.length ∧
    Stored p p' (Tree.flattenList trees)

/-- The last nodes of the innermost collection were stored, and its end. -/
def StoresEnd (type : EventType) (count : Nat → Prop) (p p' : Parser) : Prop :=
  ∃ trees stop, (∀ tree ∈ trees, NodeTree tree) ∧ count trees.length ∧ stop.type = type ∧
    stop.anchor = none ∧ p'.fixed = p.fixed ∧ p'.contexts = p.contexts.tail ∧
    p'.events = p.events ++ (Tree.flattenList trees ++ [stop])

/-- A collection was opened, and its nodes and its end were stored. -/
def StoresRest (type : EventType) (count : Nat → Prop) (p p' : Parser) : Prop :=
  ∃ ctx, StoresEnd type count { p with contexts := ctx :: p.contexts } p'

/-- A collection was stored. -/
def StoresCollection (p p' : Parser) : Prop :=
  ∃ start children stop, NodeTree (.node start children stop) ∧
    Stored p p' (Tree.node start children stop).flatten

/-- Where `x` returns and the parser has not stopped, it had not stopped before, and in
the eager parser `R` relates the states. -/
def Does (R : Parser → Parser → Prop) {α : Type} (x : ParseM α) (p : Parser) : Prop :=
  ∀ a p', x p = .ok a p' → p'.oom = false →
    p.oom = false ∧ (p.incremental = false → R p p')

abbrev Nodes (count : Nat → Prop) {α : Type} (x : ParseM α) (p : Parser) : Prop :=
  Does (StoresNodes count) x p

abbrev Ends (type : EventType) (count : Nat → Prop) {α : Type} (x : ParseM α) (p : Parser) :
    Prop :=
  Does (StoresEnd type count) x p

def noNode (n : Nat) : Prop := n = 0

def oneNode (n : Nat) : Prop := n = 1

theorem even_zero : even 0 := rfl

theorem even_add (m n : Nat) (first : even m) (second : even n) : even (m + n) := by
  unfold even at *
  omega

theorem even_pair (m n : Nat) (first : oneNode m) (second : oneNode n) : even (m + n) := by
  unfold oneNode at *
  unfold even
  omega

theorem odd_cons (m n : Nat) (first : oneNode m) (second : even n) : odd (m + n) := by
  rw [first, Nat.add_comm]
  exact odd_succ n second

theorem even_cons (m n : Nat) (first : oneNode m) (second : odd n) : even (m + n) := by
  rw [first, Nat.add_comm]
  exact even_succ n second

theorem even_end (m n : Nat) (first : even m) (second : noNode n) : even (m + n) := by
  rw [second]
  exact first

theorem any_cons (m n : Nat) (_ : oneNode m) (_ : any n) : any (m + n) := trivial

mutual

theorem Tree.Paired.map {change : Event → Event} (keeps : ∀ evt, (change evt).type = evt.type)
    (tree : Tree Event) (paired : tree.Paired) : (tree.map change).Paired := by
  cases tree with
  | leaf evt => trivial
  | node start children stop =>
      refine ⟨fun isMap => ?_, Tree.PairedList.mapList keeps children paired.2⟩
      rw [Tree.mapList_eq_map, List.length_map]
      exact paired.1 ((keeps start).symm.trans isMap)

theorem Tree.PairedList.mapList {change : Event → Event}
    (keeps : ∀ evt, (change evt).type = evt.type) (trees : List (Tree Event))
    (paired : Tree.PairedList trees) : Tree.PairedList (Tree.mapList change trees) := by
  cases trees with
  | nil => trivial
  | cons tree trees =>
      exact ⟨Tree.Paired.map keeps tree paired.1, Tree.PairedList.mapList keeps trees paired.2⟩

end

/-- The tags that a schema fills in do not matter to the shape. -/
theorem NodeTree.tagged (p : Parser) {tree : Tree Event} (node : NodeTree tree) :
    NodeTree (tree.map p.tagged) where
  shaped := Tree.Shaped.map (fun _ leaf => ⟨leaf.type, leaf.bare⟩)
    (fun _ _ pair => ⟨pair.opens, pair.closes, pair.anchor⟩) tree node.shaped
  paired := Tree.Paired.map (fun _ => by rfl) tree node.paired

namespace Stored

variable {p q p' : Parser} {left right : List Event}

theorem refl (p : Parser) : Stored p p [] := ⟨rfl, rfl, (List.append_nil _).symm⟩

theorem trans (first : Stored p q left) (second : Stored q p' right) :
    Stored p p' (left ++ right) where
  fixed := second.fixed.trans first.fixed
  contexts := second.contexts.trans first.contexts
  events := by rw [second.events, first.events, List.append_assoc]

theorem eager (stored : Stored p p' left) : p'.incremental = p.incremental :=
  Parser.fixed_incremental stored.fixed

theorem of_onward (onward : Onward p p') : Stored p p' [] where
  fixed := (onward.adds .value).fixed
  contexts := onward.contexts
  events := by rw [onward.events, List.append_nil]

end Stored

theorem StoresNodes.trans {first second count : Nat → Prop} {p q p' : Parser}
    (before : StoresNodes first p q) (after : StoresNodes second q p')
    (sum : ∀ m n, first m → second n → count (m + n)) : StoresNodes count p p' := by
  obtain ⟨left, nodes, counted, stored⟩ := before
  obtain ⟨right, nodes', counted', stored'⟩ := after
  refine ⟨left ++ right, fun tree member => ?_, ?_, ?_⟩
  · rcases List.mem_append.mp member with here | there
    · exact nodes tree here
    · exact nodes' tree there
  · rw [List.length_append]
    exact sum _ _ counted counted'
  · rw [Tree.flattenList_append]
    exact stored.trans stored'

theorem StoresNodes.eager {count : Nat → Prop} {p p' : Parser} (stores : StoresNodes count p p') :
    p'.incremental = p.incremental := by
  obtain ⟨_, _, _, stored⟩ := stores
  exact stored.eager

theorem StoresNodes.ends {type : EventType} {first second count : Nat → Prop} {p q p' : Parser}
    (before : StoresNodes first p q) (after : StoresEnd type second q p')
    (sum : ∀ m n, first m → second n → count (m + n)) : StoresEnd type count p p' := by
  obtain ⟨left, nodes, counted, stored⟩ := before
  obtain ⟨right, stop, nodes', counted', isStop, bare, fixed, contexts, events⟩ := after
  refine ⟨left ++ right, stop, fun tree member => ?_, ?_, isStop, bare,
    fixed.trans stored.fixed, ?_, ?_⟩
  · rcases List.mem_append.mp member with here | there
    · exact nodes tree here
    · exact nodes' tree there
  · rw [List.length_append]
    exact sum _ _ counted counted'
  · rw [contexts, stored.contexts]
  · rw [events, stored.events, Tree.flattenList_append]
    simp only [List.append_assoc]

/-- One event that is a node. -/
theorem Stored.leaf {p p' : Parser} {evt : Event} (leaf : NodeLeaf evt)
    (stored : Stored p p' [evt]) : StoresNodes oneNode p p' := by
  refine ⟨[.leaf evt], fun tree member => ?_, rfl, stored⟩
  obtain rfl := List.mem_singleton.mp member
  exact ⟨leaf, trivial⟩

theorem AddsNode.stores {kind : Datum} {p p' : Parser} (adds : AddsNode kind p p') :
    StoresNodes oneNode p p' := by
  obtain ⟨tree, node, added⟩ := adds.node
  refine ⟨[tree.map p.tagged], fun t member => ?_, rfl, added.fixed, adds.contexts, ?_⟩
  · obtain rfl := List.mem_singleton.mp member
    exact node.tagged p
  · rw [Tree.flattenList, Tree.flattenList, List.append_nil, Tree.flatten_map]
    exact added.events

/-- A start event, the first nodes, and what closes the collection. -/
theorem Stored.collection {p q p' : Parser} {start : Event} {first : List (Tree Event)}
    {count : Nat → Prop} (opens : start.type.opens = true)
    (pairs : start.type = .mappingStart → ∀ n, count n → (first.length + n) % 2 = 0)
    (nodes : ∀ tree ∈ first, NodeTree tree) (stored : Stored p q (start :: Tree.flattenList first))
    (rest : StoresRest start.type.closing count q p') : StoresCollection p p' := by
  obtain ⟨ctx, trees, stop, nodes', counted, isStop, bare, fixed, contexts, events⟩ := rest
  have all : ∀ tree ∈ first ++ trees, NodeTree tree := by
    intro tree member
    rcases List.mem_append.mp member with here | there
    · exact nodes tree here
    · exact nodes' tree there
  refine ⟨start, first ++ trees, stop, ⟨⟨⟨opens, isStop, bare⟩, ?_⟩, fun isMap => ?_, ?_⟩,
    fixed.trans stored.fixed, contexts.trans stored.contexts, ?_⟩
  · exact Tree.shapedList_iff.mpr fun t among => (all t among).shaped
  · rw [List.length_append]
    exact pairs isMap _ counted
  · exact Tree.pairedList_iff.mpr fun t among => (all t among).paired
  · rw [events]
    change q.events ++ _ = _
    rw [stored.events]
    simp [Tree.flatten, Tree.flattenList_append]

theorem Stored.node {p p' : Parser} {tree : Tree Event} (node : NodeTree tree)
    (stored : Stored p p' tree.flatten) : StoresNodes oneNode p p' := by
  refine ⟨[tree], fun t member => ?_, rfl, ?_⟩
  · obtain rfl := List.mem_singleton.mp member
    exact node
  · rw [Tree.flattenList, Tree.flattenList, List.append_nil]
    exact stored

theorem StoresCollection.node {p p' : Parser} (stores : StoresCollection p p') :
    StoresNodes oneNode p p' := by
  obtain ⟨_, _, _, node, stored⟩ := stores
  exact Stored.node node stored

namespace Does

variable {α β : Type} {R S T : Parser → Parser → Prop} {p : Parser}

theorem bind {x : ParseM α} {f : α → ParseM β} (first : Does R x p)
    (rest : ∀ a q, x p = .ok a q → Does S (f a) q)
    (eager : ∀ q, R p q → q.incremental = p.incremental)
    (both : ∀ q p', R p q → S q p' → T p p') : Does T (x >>= f) p := by
  intro b p' ok fine
  obtain ⟨a, q, before, last⟩ := bind_eq_ok ok
  obtain ⟨live, second⟩ := rest a q before b p' last fine
  obtain ⟨live', first⟩ := first a q before live
  refine ⟨live', fun isEager => ?_⟩
  have related := first isEager
  exact both q p' related (second ((eager q related).trans isEager))

theorem read {f : Parser → ParseM α} (rest : Does R (f p) p) : Does R (get >>= f) p := rest

/-- Steps that store nothing and return only where the parser goes on. -/
theorem quiet {x : ParseM α} (live : Respects Steady x)
    (onward : ∀ a q, x p = .ok a q → Onward p q) : Does (fun p q => Stored p q []) x p :=
  fun a q ok fine => ⟨(live.ok ok).2 fine, fun _ => .of_onward (onward a q ok)⟩

/-- First some steps that store nothing. -/
theorem after {x : ParseM α} {f : α → ParseM β} {count : Nat → Prop}
    (first : Does (fun p q => Stored p q []) x p)
    (rest : ∀ a q, x p = .ok a q → Nodes count (f a) q) : Nodes count (x >>= f) p := by
  refine first.bind rest (fun q stored => stored.eager) fun q p' stored stores => ?_
  obtain ⟨trees, nodes, counted, stored'⟩ := stores
  exact ⟨trees, nodes, counted, stored.trans stored'⟩

/-- Steps that store nothing store no node. -/
theorem nothing {x : ParseM α} (quiet : Does (fun p q => Stored p q []) x p) :
    Nodes noNode x p := by
  intro a p' ok fine
  obtain ⟨live, stored⟩ := quiet a p' ok fine
  exact ⟨live, fun isEager => ⟨[], by simp, rfl, stored isEager⟩⟩

theorem ite {c : Prop} [Decidable c] {x y : ParseM α} (left : Does R x p) (right : Does R y p) :
    Does R (if c then x else y) p := by
  split
  · exact left
  · exact right

/-! ### Steps -/

theorem pure {count : Nat → Prop} (zero : count 0) (a : α) :
    Nodes count (Pure.pure a : ParseM α) p := by
  intro b p' ok fine
  cases ok
  exact ⟨fine, fun _ => ⟨[], by simp, zero, .refl p⟩⟩

theorem error (msg : String) : Does R (parseError msg : ParseM α) p := by
  intro a p' ok
  cases ok

theorem peek : Does (fun p q => Stored p q []) peekToken p :=
  .quiet steady_nodeFrame.peek fun _ _ ok => (peekToken_ok ok).onward

theorem peekType : Does (fun p q => Stored p q []) peekType p :=
  .quiet steady_nodeFrame.steps.peekType fun _ _ ok => (peekType_ok ok).2.onward

theorem consumeProps : Does (fun p q => Stored p q []) consumeProps p :=
  .quiet steady_nodeFrame.steps.consumeProps fun _ _ ok => (consumeProps_ok ok).1

/-- An update of what is neither fixed nor stored. -/
theorem update {u : Parser → Parser}
    (kept : (u p).oom = p.oom ∧ (u p).fixed = p.fixed ∧ (u p).contexts = p.contexts ∧
      (u p).events = p.events) : Does (fun p q => Stored p q []) (modify u) p := by
  intro a p' ok fine
  cases ok
  exact ⟨kept.1 ▸ fine, fun _ => ⟨kept.2.1, kept.2.2.1, by rw [kept.2.2.2, List.append_nil]⟩⟩

theorem put {q : Parser} (kept : q.oom = p.oom ∧ q.fixed = p.fixed ∧ q.contexts = p.contexts ∧
    q.events = p.events) : Does (fun p q => Stored p q []) (set q : ParseM PUnit) p :=
  fun a p' ok fine => Does.update (u := fun _ => q) kept a p' ok fine

theorem consume : Does (fun p q => Stored p q []) consumeToken p :=
  .update ⟨rfl, rfl, rfl, rfl⟩

theorem checkOom : Does (fun p q => Stored p q []) checkOom p :=
  .quiet steady_nodeFrame.checkOom fun _ _ ok => checkOom_ok ok ▸ .refl _

theorem checkStop : Does (fun p q => Stored p q []) checkStop p :=
  .quiet steady_nodeFrame.checkStop fun _ _ ok => checkStop_ok ok ▸ .refl _

theorem store (evt : Event) : Does (fun p q => Stored p q [p.tagged evt]) (enqueue' evt) p := by
  intro a p' ok fine
  obtain rfl := enqueue'_ok ok fine
  exact ⟨fine, fun _ => ⟨rfl, rfl, rfl⟩⟩

theorem storeWithProps (evt : Event) :
    Does (fun p q => Stored p q [p.tagged (p.attached evt)]) (enqueueWithProps evt) p := by
  intro a p' ok fine
  obtain rfl := enqueueWithProps_ok ok fine
  exact ⟨fine, fun _ => ⟨rfl, rfl, rfl⟩⟩

/-- Store a scalar, or an alias without properties. -/
theorem storeNode {evt : Event} (leaf : NodeLeaf evt) : Nodes oneNode (enqueue' evt) p := by
  intro a p' ok fine
  obtain ⟨live, stored⟩ := Does.store evt a p' ok fine
  have leaf' : NodeLeaf (p.tagged evt) := ⟨leaf.type, leaf.bare⟩
  exact ⟨live, fun isEager => Stored.leaf leaf' (stored isEager)⟩

theorem storeScalar {evt : Event} (isScalar : evt.type = .scalar) :
    Nodes oneNode (enqueueWithProps evt) p := by
  intro a p' ok fine
  obtain ⟨live, stored⟩ := Does.storeWithProps evt a p' ok fine
  have leaf : NodeLeaf (p.tagged (p.attached evt)) :=
    ⟨.inl isScalar, fun isAlias => absurd (isScalar.symm.trans isAlias) (by decide)⟩
  exact ⟨live, fun isEager => Stored.leaf leaf (stored isEager)⟩

theorem emitEmpty : Nodes oneNode emitEmpty p := .read (.storeScalar rfl)

theorem closeBlock (type : EventType) : Ends type noNode (closeBlock type) p := by
  intro a p' ok fine
  rw [Oyl.closeBlock, get_bind_eq] at ok
  obtain ⟨_, q, stored, popped⟩ := bind_eq_ok ok
  cases popped
  obtain rfl := enqueue'_ok stored fine
  exact ⟨fine, fun _ => ⟨[], p.tagged (p.pointEvent type), by simp, rfl, rfl, rfl, rfl, rfl, rfl⟩⟩

/-- Nodes and what follows. -/
theorem nodes {x : ParseM α} {f : α → ParseM β} {first second count : Nat → Prop}
    (before : Nodes first x p) (rest : ∀ a q, x p = .ok a q → Nodes second (f a) q)
    (sum : ∀ m n, first m → second n → count (m + n)) : Nodes count (x >>= f) p :=
  before.bind rest (fun _ stores => stores.eager) fun _ _ left right => left.trans right sum

theorem weaken {x : ParseM α} {count count' : Nat → Prop} (nodes : Nodes count x p)
    (weaker : ∀ n, count n → count' n) : Nodes count' x p := by
  intro a p' ok fine
  obtain ⟨live, stores⟩ := nodes a p' ok fine
  refine ⟨live, fun isEager => ?_⟩
  obtain ⟨trees, all, counted, stored⟩ := stores isEager
  exact ⟨trees, all, weaker _ counted, stored⟩

/-- Nodes and what ends the collection. -/
theorem ends {x : ParseM α} {f : α → ParseM β} {type : EventType} {first second count : Nat → Prop}
    (before : Nodes first x p) (rest : ∀ a q, x p = .ok a q → Ends type second (f a) q)
    (sum : ∀ m n, first m → second n → count (m + n)) : Ends type count (x >>= f) p :=
  before.bind rest (fun _ stores => stores.eager) fun _ _ left right => left.ends right sum

/-- Store a start event, open its collection and go on in it. -/
theorem opens {store : ParseM α} {body : ParseM β} {type : CtxType} {col : Int}
    {start : Event} {count : Nat → Prop} (stores : Does (fun p q => Stored p q [start]) store p)
    (isStart : start.type.opens = true)
    (pairs : start.type = .mappingStart → ∀ n, count n → n % 2 = 0)
    (live : ∀ q b p', body q = .ok b p' → p'.oom = false → q.oom = false)
    (rest : ∀ q : Parser, q.topCtx = some ⟨type, col⟩ → Ends start.type.closing count body q) :
    Does StoresCollection (store >>= fun _ => pushCtx type col >>= fun _ => body) p := by
  have noFirst (isMap : start.type = .mappingStart) (n : Nat) (counted : count n) :
      (([] : List (Tree Event)).length + n) % 2 = 0 := by
    rw [List.length_nil, Nat.zero_add]
    exact pairs isMap n counted
  have go (q : Parser) : Does (StoresRest start.type.closing count)
      (pushCtx type col >>= fun _ => body) q := by
    intro b p' ok fine
    obtain ⟨_, q', pushed, last⟩ := bind_eq_ok ok
    have fine' := live q' b p' last fine
    obtain rfl := pushCtx_ok pushed fine'
    exact ⟨fine', fun isEager => ⟨_, (rest _ rfl b p' last fine).2 isEager⟩⟩
  exact stores.bind (fun _ q _ => go q) (fun _ stored => stored.eager)
    fun q p' stored closed => stored.collection isStart noFirst (by simp) closed

/-- A collection is a node. -/
theorem collection {store : ParseM α} {body : ParseM β} {type : CtxType} {col : Int}
    {start : Event} {count : Nat → Prop} (stores : Does (fun p q => Stored p q [start]) store p)
    (isStart : start.type.opens = true)
    (pairs : start.type = .mappingStart → ∀ n, count n → n % 2 = 0)
    (rest : ∀ q, Ends start.type.closing count body q) :
    Nodes oneNode (store >>= fun _ => pushCtx type col >>= fun _ => body) p := by
  intro b p' ok fine
  have live (q : Parser) (b : β) (p' : Parser) (ok : body q = .ok b p') (fine : p'.oom = false) :
      q.oom = false := (rest q b p' ok fine).1
  obtain ⟨fine', stored⟩ := opens stores isStart pairs live (fun q _ => rest q) b p' ok fine
  exact ⟨fine', fun isEager => (stored isEager).node⟩

end Does

/-- The functions that a function of the eager parser may call store whole nodes. -/
structure Eager.WritesBlock (r : Eager) : Prop where
  flow : r.WritesFlow .value
  blockMapValue : ∀ indent p, Nodes oneNode (r.blockMapValue indent) p
  blockMapping : ∀ indent p, Nodes even (r.blockMapping indent) p
  blockSequence : ∀ indent p, Nodes any (r.blockSequence indent) p
  blockNode : ∀ p, Nodes oneNode r.blockNode p

section

variable {r : Eager} (calls : r.WritesBlock)

include calls

theorem blockMapValue_nodes (indent : Int) (p : Parser) :
    Nodes oneNode (parseBlockMapValue r indent) p := by
  refine .after .checkOom fun _ p _ => .after .peekType fun tt p _ => .ite .emitEmpty ?_
  exact .after .consume fun _ p _ => .after .peek fun _ p _ =>
    .read (.ite .emitEmpty (calls.blockNode p))

theorem blockExplicitKey_nodes (indent : Int) (p : Parser) :
    Nodes oneNode (blockExplicitKey r indent) p := by
  refine .after .consume fun _ p _ => .after .peek fun _ p _ =>
    .read (.ite .emitEmpty (.ite ?_ (calls.blockNode p)))
  exact .after .consumeProps fun _ p _ => .after .peek fun _ p _ =>
    .read (.ite .emitEmpty (calls.blockNode p))

theorem blockExplicitEntry_nodes (indent : Int) (p : Parser) :
    Nodes even (blockExplicitEntry r indent) p := by
  refine .nodes (blockExplicitKey_nodes calls indent p) (fun _ p _ => ?_) even_pair
  exact .after .peek fun _ p _ =>
    .read (.ite (.error _) (.ite .emitEmpty (calls.blockMapValue indent p)))

/-- A scalar or an alias without properties, which must be a key. -/
theorem blockSimpleKey_nodes (indent : Int) {type : EventType} {p : Parser}
    (isLeaf : type = .scalar ∨ type = .alias ∧ p.Bare) :
    Nodes even (blockSimpleKey r indent type) p := by
  have given : Does (fun p q => Stored p q []) (attachProps (p.nodeEvent type)) p := by
    intro evt p' ok fine
    cases ok
    exact ⟨fine, fun _ => ⟨rfl, rfl, (List.append_nil _).symm⟩⟩
  refine .read (.after given fun evt p attached => ?_)
  cases attached
  refine .after .consume fun _ q _ => .after .peekType fun tt q _ => .ite ?_ (.error _)
  refine .nodes (.storeNode ⟨?_, ?_⟩) (fun _ q _ => calls.blockMapValue indent q) ?_
  · rcases isLeaf with rfl | ⟨rfl, _⟩
    · exact .inl rfl
    · exact .inr rfl
  · intro isAlias
    rcases isLeaf with rfl | ⟨rfl, bare⟩
    · cases isAlias
    · simp [bare.1, Parser.nodeEvent]
  · exact even_pair

theorem flowNode_nodes {p : Parser} (held : p.haveToken = true)
    (isFlow : p.tokType = .flowSeqStart ∨ p.tokType = .flowMapStart) :
    Nodes oneNode r.flowNode p := by
  intro a p' ok fine
  exact ⟨(calls.flow.steady.flowNode.ok ok).2 fine, fun isEager =>
    (calls.flow.flowNode ok fine (.inr ⟨isEager, held, isFlow⟩)).1.stores⟩

theorem blockFlowKey_nodes (indent : Int) {p : Parser} (held : p.haveToken = true)
    (isFlow : p.tokType = .flowSeqStart ∨ p.tokType = .flowMapStart) :
    Nodes even (blockFlowKey r indent) p := by
  refine .nodes (flowNode_nodes calls held isFlow) (fun _ q _ => ?_) even_pair
  exact .after .peekType fun tt q _ => .ite (calls.blockMapValue indent q) (.error _)

omit calls in
theorem Does.andReturn {x : ParseM Unit} {count : Nat → Prop} {p : Parser}
    (nodes : Nodes count x p) (a : Bool) : Nodes count (do x; return a) p := by
  refine .nodes nodes (fun _ q _ => .pure (rfl : noNode 0) a) ?_
  rintro m n counted rfl
  exact counted

theorem blockImplicitEntry_nodes (indent : Int) (p : Parser) :
    Nodes even (blockImplicitEntry r indent) p := by
  refine .after .consumeProps fun _ p consumed => ?_
  obtain ⟨_, held, unnamed⟩ := consumeProps_ok consumed
  refine .after .peek fun _ q peeked => ?_
  obtain rfl : p = q := by
    rw [peekToken_held held] at peeked
    cases peeked
    rfl
  refine .read ?_
  split
  · exact .error _
  rename_i sameLine
  split
  · refine .ite ?_ (.pure even_zero false)
    exact .nodes .emitEmpty (fun _ q _ => (calls.blockMapValue indent q).andReturn true) even_pair
  · exact (blockSimpleKey_nodes calls indent (.inl rfl)).andReturn true
  · rename_i isAlias
    refine .ite ?_ (.pure even_zero false)
    -- properties on the line of an alias were refused, and those before it just now
    have bare : p.Bare := Parser.bare_of_hasProps <| Bool.eq_false_iff.mpr fun has => by
      have apart := (unnamed has isAlias).1
      simp [has, apart] at sameLine
    exact (blockSimpleKey_nodes calls indent (.inr ⟨rfl, bare⟩)).andReturn true
  · rename_i isFlow
    exact (blockFlowKey_nodes calls indent held (.inl isFlow)).andReturn true
  · rename_i isFlow
    exact (blockFlowKey_nodes calls indent held (.inr isFlow)).andReturn true
  · exact .pure even_zero false

theorem blockMapping_nodes (indent : Int) (p : Parser) :
    Nodes even (parseBlockMapping r indent) p := by
  refine .after .checkStop fun _ p _ => .after .peek fun _ p _ => .read (.ite (.pure even_zero _) ?_)
  split
  · exact .nodes (blockExplicitEntry_nodes calls indent p)
      (fun _ q _ => calls.blockMapping indent q) even_add
  · exact .nodes .emitEmpty (fun _ q _ => .nodes (calls.blockMapValue indent q)
      (fun _ q _ => calls.blockMapping indent q) odd_cons) even_cons
  · exact .pure even_zero _
  · exact .pure even_zero _
  · exact .pure even_zero _
  · exact .pure even_zero _
  · exact .nodes (blockImplicitEntry_nodes calls indent p)
      (fun again q _ => .ite (calls.blockMapping indent q) (.pure even_zero _)) even_add

theorem blockSequence_nodes (indent : Int) (p : Parser) :
    Nodes any (parseBlockSequence r indent) p := by
  have stop (p : Parser) : Nodes any (pure () : ParseM Unit) p := .pure trivial ()
  refine .after .checkStop fun _ p _ => .after .peek fun _ p _ => .read (.ite (stop p) ?_)
  refine .after .consume fun _ p _ => .after .peek fun _ p _ => .read (.ite ?_ (.ite ?_ ?_))
  · exact .nodes .emitEmpty (fun _ q _ => calls.blockSequence indent q) any_cons
  · exact .weaken .emitEmpty fun _ _ => trivial
  · exact .nodes (calls.blockNode p) (fun _ q _ => calls.blockSequence indent q) any_cons

theorem blockMappingRest_ends (col : Int) (p : Parser) :
    Ends .mappingEnd odd (blockMappingRest r col) p :=
  .ends (calls.blockMapValue col p) (fun _ q _ => .ends (calls.blockMapping col q)
    (fun _ _ _ => .closeBlock _) even_end) odd_cons

/-- A mapping whose first key is `evt`. -/
theorem openBlockMapping_nodes {start evt : Event} (isMap : start.type = .mappingStart)
    (leaf : NodeLeaf evt) (col : Int) (p : Parser) : Nodes oneNode (do
      enqueueWithProps start
      pushCtx .blockMap col
      enqueue' evt
      blockMappingRest r col) p := by
  refine .collection (.storeWithProps start) ?_ (fun _ _ isEven => isEven) fun q => ?_
  · change start.type.opens = true
    rw [isMap]
    rfl
  · change Ends start.type.closing even _ q
    rw [isMap]
    exact .ends (.storeNode leaf) (fun _ q _ => blockMappingRest_ends calls col q) even_cons

theorem openBlockSequence_nodes (inner : Option Parser) (p : Parser) :
    Nodes oneNode (openBlockSequence r inner) p := by
  have rest (col : Int) (p : Parser) : Ends .sequenceEnd any (do
      r.blockSequence col
      closeBlock .sequenceEnd) p :=
    .ends (calls.blockSequence col p) (fun _ _ _ => .closeBlock _) fun _ _ _ _ => trivial
  have notMap (isMap : EventType.sequenceStart = .mappingStart) (n : Nat) (_ : any n) :
      n % 2 = 0 := by
    cases isMap
  refine .read (.collection (.storeWithProps _) rfl notMap fun q => ?_)
  cases inner with
  | none => exact rest _ q
  | some inner =>
      exact .ends (.nothing (.update ⟨rfl, rfl, rfl, rfl⟩)) (fun _ q _ => rest _ q)
        fun _ _ _ _ => trivial

theorem innerScalar_nodes (inner : Parser) (innerCol : Int) (innerLine : Nat) (p : Parser) :
    Nodes oneNode (innerScalar r inner innerCol innerLine) p := by
  refine .read (.after .consume fun _ q _ => .after .peek fun _ q _ =>
    .read (.ite ?_ (.ite (.error _) ?_)))
  · exact openBlockMapping_nodes calls rfl ⟨.inl rfl, EventType.noConfusion⟩ _ q
  · exact .storeScalar rfl

theorem innerEmptyKey_nodes (inner : Parser) (innerCol : Int) (p : Parser) :
    Nodes oneNode (innerEmptyKey r inner innerCol) p :=
  .read (openBlockMapping_nodes calls rfl ⟨.inl rfl, EventType.noConfusion⟩ _ _)

theorem blockAlias_nodes (p : Parser) : Nodes oneNode (blockAlias r) p := by
  refine .read (.after .consume fun _ q _ => .after .peek fun _ q _ =>
    .read (.ite ?_ (.ite (.error _) ?_)))
  · exact openBlockMapping_nodes calls rfl ⟨.inr rfl, fun _ => rfl⟩ _ q
  · exact .storeNode ⟨.inr rfl, fun _ => rfl⟩

theorem blockScalar_nodes (p : Parser) : Nodes oneNode (blockScalar r) p := by
  refine .read (.ite .emitEmpty ?_)
  refine .after .consume fun _ _ _ => .after .peek fun _ q _ => .read (.ite (.ite ?_ ?_) ?_)
  · exact openBlockMapping_nodes calls rfl ⟨.inl rfl, EventType.noConfusion⟩ _ q
  · refine .collection (.store _) rfl (fun _ _ isEven => isEven) fun q => ?_
    exact .ends (.storeScalar rfl) (fun _ q _ => blockMappingRest_ends calls _ q) even_cons
  · exact .storeScalar rfl

theorem blockExplicitMapping_nodes (p : Parser) : Nodes oneNode (blockExplicitMapping r) p :=
  .read (.collection (.storeWithProps _) rfl (fun _ _ isEven => isEven) fun q =>
    .ends (calls.blockMapping _ q) (fun _ _ _ => .closeBlock _) even_end)

theorem blockBareValue_nodes (p : Parser) : Nodes oneNode (blockBareValue r) p := by
  refine .read (.ite ?_ ?_)
  · refine .collection (.store _) rfl (fun _ _ isEven => isEven) fun q => ?_
    exact .ends .emitEmpty (fun _ q _ => blockMappingRest_ends calls _ q) even_cons
  · exact .collection (.storeWithProps _) rfl (fun _ _ isEven => isEven) fun q =>
      .ends (calls.blockMapping _ q) (fun _ _ _ => .closeBlock _) even_end

/-! ### Flow collections, perhaps as keys -/

omit calls in
theorem Closes.ends {kind : Datum} {type : EventType} {count : Nat → Prop} {p p' : Parser}
    (closes : Closes kind type count p p') : StoresEnd type count p p' := by
  obtain ⟨trees, stop, nodes, counted, isStop, bare, adds⟩ := closes.nodes
  refine ⟨Tree.mapList p.tagged trees, p.tagged stop, fun tree member => ?_, ?_, isStop, bare.1,
    adds.fixed, closes.contexts, ?_⟩
  · rw [Tree.mapList_eq_map] at member
    obtain ⟨tree', among, rfl⟩ := List.mem_map.mp member
    exact (nodes tree' among).tagged p
  · rw [Tree.mapList_eq_map, List.length_map]
    exact counted
  · rw [adds.events, List.map_append, List.map_singleton, Tree.flattenList_map]

/-- The contents of a flow collection, once its start event is stored. -/
def flowBody (r : Eager) (isMap : Bool) (col : Int) : ParseM Unit :=
  if isMap then do
    pushCtx .flowMap col
    r.flowMapping
  else do
    pushCtx .flowSeq col
    r.flowSequence

theorem flowBody_collection {isMap : Bool} {col : Int} {store : ParseM Unit} {start : Event}
    {p : Parser} (stores : Does (fun p q => Stored p q [start]) store p)
    (isStart : start.type = if isMap then .mappingStart else .sequenceStart) :
    Does StoresCollection (store >>= fun _ => flowBody r isMap col) p := by
  have go {type : CtxType} {ending : EventType} {count : Nat → Prop} {body : ParseM Unit}
      (isFlow : type.isFlow = true) (steady : Respects Steady body)
      (spec : ∀ {q p' : Parser}, body q = .ok () p' → p'.oom = false → q.Flowing →
        Closes .value ending count q p' ∧ (q.Bare → p'.Bare))
      (q : Parser) (top : q.topCtx = some ⟨type, col⟩) : Ends ending count body q := by
    intro b p' ok fine
    refine ⟨(steady.ok ok).2 fine, fun isEager => (spec ok fine ⟨isEager, ?_⟩).1.ends⟩
    simp [Parser.inFlow, isEager, top, isFlow]
  have steady := calls.flow.steady
  cases isMap with
  | true =>
      refine .opens stores (isStart ▸ rfl) (fun _ _ isEven => isEven)
        (fun q b p' ok fine => (steady.flowMapping.ok ok).2 fine) fun q top => ?_
      rw [isStart]
      exact go rfl steady.flowMapping calls.flow.flowMapping q top
  | false =>
      have notMap (isMap : start.type = .mappingStart) (n : Nat) (_ : any n) : n % 2 = 0 := by
        rw [isStart] at isMap
        cases isMap
      refine .opens stores (isStart ▸ rfl) notMap
        (fun q b p' ok fine => (steady.flowSequence.ok ok).2 fine) fun q top => ?_
      rw [isStart]
      exact go rfl steady.flowSequence calls.flow.flowSequence q top

theorem openFlow_collection (isMap : Bool) (p : Parser) :
    Does StoresCollection (openFlow r isMap) p := by
  have rest (start : Event) (isStart : start.type = if isMap then .mappingStart else .sequenceStart)
      (col : Int) (q : Parser) : Does StoresCollection (do
        enqueueWithProps start
        flowBody r isMap col) q :=
    flowBody_collection calls (.storeWithProps start) isStart
  have whole : Does StoresCollection (do
      consumeToken
      enqueueWithProps { p.tokenEvent (if isMap then .mappingStart else .sequenceStart) with
        flow := true }
      flowBody r isMap p.tokCol) p := by
    refine Does.bind .consume (fun _ q _ => rest _ rfl _ q) (fun _ stored => stored.eager) ?_
    rintro q p' stored ⟨start, children, stop, node, stored'⟩
    exact ⟨start, children, stop, node, stored.trans stored'⟩
  exact whole

theorem keyMapping_steady (idx : Nat) (evt : Event) (col : Int) (inNode : evt.inNode = true) :
    Respects Steady (do
      insertOrStop idx evt
      pushCtx .blockMap col
      blockMappingRest r col) := by
  have frame := steady_nodeFrame
  exact .bind frame.toPreorder (frame.insertOrStop _ _ inNode) fun _ =>
    .bind frame.toPreorder (frame.push _ _) fun _ =>
      frame.steps.blockMappingRest calls.flow.steady _

/-- The node that was stored last becomes the first key of a block mapping. -/
theorem Stored.key {p q p' : Parser} {key : Tree Event} {mapEvt : Event} {col : Int} {idx : Nat}
    (stored : Stored p q key.flatten) (node : NodeTree key) (isMap : mapEvt.type = .mappingStart)
    (here : idx = p.evtLen) (isEager : p.incremental = false) {a : Unit}
    (ok : (do
      insertOrStop idx mapEvt
      pushCtx .blockMap col
      blockMappingRest r col) q = .ok a p') (fine : p'.oom = false) : StoresNodes oneNode p p' := by
  have frame := steady_nodeFrame
  obtain ⟨_, q1, inserted, rest⟩ := bind_eq_ok ok
  obtain ⟨_, q2, pushed, last⟩ := bind_eq_ok rest
  obtain ⟨fine2, ends⟩ := blockMappingRest_ends calls col q2 a p' last fine
  have fine1 := ((frame.push _ _).ok pushed).2 fine2
  obtain rfl := pushCtx_ok pushed fine2
  obtain rfl := insertOrStop_events stored.events here inserted fine1
  have opened : Stored p { q with events := p.events ++ q.tagged mapEvt :: key.flatten }
      (q.tagged mapEvt :: Tree.flattenList [key]) := by
    refine ⟨stored.fixed, stored.contexts, ?_⟩
    rw [Tree.flattenList, Tree.flattenList, List.append_nil]
  have isMap' : (q.tagged mapEvt).type = .mappingStart := isMap
  have pairs (_ : (q.tagged mapEvt).type = .mappingStart) (n : Nat) (isOdd : odd n) :
      ([key].length + n) % 2 = 0 := by
    unfold odd at isOdd
    rw [List.length_singleton]
    omega
  have rest : StoresRest (q.tagged mapEvt).type.closing odd
      { q with events := p.events ++ q.tagged mapEvt :: key.flatten } p' := by
    rw [isMap']
    exact ⟨⟨.blockMap, col⟩, ends (stored.eager.trans isEager)⟩
  refine (opened.collection (isMap' ▸ rfl) pairs (fun tree member => ?_) rest).node
  obtain rfl := List.mem_singleton.mp member
  exact node

omit calls in
theorem modify_after {left right : List Event} {evt : Event} {change : Event → Event} {idx : Nat}
    (here : idx = left.length) :
    (left ++ evt :: right).modify idx change = left ++ change evt :: right := by
  subst here
  induction left with
  | nil => rfl
  | cons first left ih => rw [List.cons_append, List.length_cons, List.modify_succ_cons, ih]; rfl

omit calls in
/-- The start event of the collection that was stored last is changed. -/
theorem Stored.changed {p q : Parser} {start stop : Event} {children : List (Tree Event)}
    {change : Event → Event} (stored : Stored p q (Tree.node start children stop).flatten) :
    Stored p { q with events := q.events.modify p.evtLen change }
      (Tree.node (change start) children stop).flatten where
  fixed := stored.fixed
  contexts := stored.contexts
  events := by
    change q.events.modify p.evtLen change = _
    rw [stored.events]
    exact modify_after rfl

omit calls in
theorem NodeTree.changed {start stop : Event} {children : List (Tree Event)}
    {change : Event → Event} (keeps : (change start).type = start.type)
    (node : NodeTree (.node start children stop)) :
    NodeTree (.node (change start) children stop) := by
  obtain ⟨⟨pair, shaped⟩, paired⟩ := node
  refine ⟨⟨⟨?_, ?_, pair.anchor⟩, shaped⟩, fun isMap => ?_, paired.2⟩
  · rw [keeps]
    exact pair.opens
  · rw [keeps]
    exact pair.closes
  · exact paired.1 (keeps.symm.trans isMap)

theorem blockFlow_nodes (isMap : Bool) (p : Parser) : Nodes oneNode (blockFlow r isMap) p := by
  have frame := steady_nodeFrame
  intro a p' ok fine
  refine ⟨((frame.rules.blockFlow calls.flow.steady isMap).ok ok).2 fine, fun isEager => ?_⟩
  rw [blockFlow, get_bind_eq] at ok
  obtain ⟨_, p1, opened, rest⟩ := bind_eq_ok ok
  obtain ⟨_, p2, peeked, rest⟩ := bind_eq_ok rest
  have onward := (peekToken_ok peeked).onward
  have flow (fine2 : p2.oom = false) : ∃ start children stop,
      NodeTree (.node start children stop) ∧
        Stored p p2 (Tree.node start children stop).flatten := by
    have fine1 := (frame.peek.ok peeked).2 fine2
    obtain ⟨start, children, stop, node, stored⟩ :=
      (openFlow_collection calls isMap p _ p1 opened fine1).2 isEager
    refine ⟨start, children, stop, node, ?_⟩
    have whole := stored.trans (.of_onward onward)
    rwa [List.append_nil] at whole
  rw [get_bind_eq] at rest
  generalize (if p.hasProps && p.propsLine == p.current.start.line then p.propsCol
    else p.tokCol) = col at rest
  split at rest
  · dsimp only at rest
    split at rest
    · -- the properties on an earlier line go to the mapping
      obtain ⟨mapEvt, p3, moved, last⟩ := bind_eq_ok rest
      cases moved
      have fine3 := ((keyMapping_steady calls _ _ _ (by rfl)).ok last).2 fine
      obtain ⟨start, children, stop, node, stored⟩ := flow fine3
      exact Stored.key calls stored.changed (node.changed (by rfl)) rfl rfl isEager last fine
    · have fine2 := ((keyMapping_steady calls _ _ _ rfl).ok rest).2 fine
      obtain ⟨start, children, stop, node, stored⟩ := flow fine2
      exact stored.key calls node rfl rfl isEager rest fine
  · cases rest
    obtain ⟨start, children, stop, node, stored⟩ := flow fine
    exact stored.node node

/-- What follows a flow collection with properties of its own. -/
def innerFlowRest (r : Eager) (outer inner : Parser) (idx : Nat) (keyCol : Int) : ParseM Unit := do
  if (← peekType) != .blockMapValue then
    if inner.propsConflict outer then
      parseError "a node cannot have two anchors or two tags"
    else
      modify fun p => { p.clearProps with events := p.events.modify idx outer.giveProps }
  else
    insertOrStop idx
      { mapStartAt outer.propsStart with
        anchor := outer.pendingAnchor, tag := outer.pendingTag }
    pushCtx .blockMap keyCol
    blockMappingRest r keyCol

omit calls in
theorem innerFlow_ok {outer inner : Parser} {innerCol : Int} {innerLine : Nat} {isMap : Bool}
    {p p' : Parser} {a : Unit}
    (ok : innerFlow r outer inner innerCol innerLine isMap p = .ok a p') :
    ∃ q keyCol, (enqueue' (inner.giveProps
          { p.tokenEvent (if isMap then .mappingStart else .sequenceStart) with flow := true })
        >>= fun _ => flowBody r isMap p.tokCol) { p.clearProps with haveToken := false } =
          .ok () q ∧
      innerFlowRest r outer inner p.evtLen keyCol q = .ok a p' := by
  rw [innerFlow, get_bind_eq] at ok
  obtain ⟨_, p1, cleared, rest⟩ := bind_eq_ok ok
  cases cleared
  obtain ⟨_, p2, stored, rest⟩ := bind_eq_ok rest
  cases isMap with
  | true =>
      obtain ⟨_, p3, pushed, rest⟩ := bind_eq_ok rest
      obtain ⟨_, p4, looped, last⟩ := bind_eq_ok rest
      exact ⟨p4, _, (run_bind_ok stored).trans ((run_bind_ok pushed).trans looped), last⟩
  | false =>
      obtain ⟨_, p3, pushed, rest⟩ := bind_eq_ok rest
      obtain ⟨_, p4, looped, last⟩ := bind_eq_ok rest
      exact ⟨p4, _, (run_bind_ok stored).trans ((run_bind_ok pushed).trans looped), last⟩

theorem innerFlow_nodes (outer inner : Parser) (innerCol : Int) (innerLine : Nat) (isMap : Bool)
    (p : Parser) : Nodes oneNode (innerFlow r outer inner innerCol innerLine isMap) p := by
  have frame := steady_nodeFrame
  intro a p' ok fine
  refine ⟨((frame.rules.innerFlow calls.flow.steady _ _ _ _ _).ok ok).2 fine, fun isEager => ?_⟩
  obtain ⟨q, keyCol, opened, rest⟩ := innerFlow_ok ok
  have body (start : Event) (isStart : start.type = if isMap then .mappingStart else .sequenceStart)
      (opened : (enqueue' start >>= fun _ => flowBody r isMap p.tokCol)
        { p.clearProps with haveToken := false } = .ok () q) (fine' : q.oom = false) :
      StoresCollection p q := by
    have stores : Does (fun p q => Stored p q [p.tagged start]) (enqueue' start)
      { p.clearProps with haveToken := false } := .store start
    obtain ⟨first, trees, stop, node, stored⟩ :=
      (flowBody_collection calls stores isStart () q opened fine').2 isEager
    exact ⟨first, trees, stop, node, stored.fixed, stored.contexts, stored.events⟩
  obtain ⟨tt, q', peeked, rest⟩ := bind_eq_ok rest
  have flow (fine' : q'.oom = false) : ∃ start children stop,
      NodeTree (.node start children stop) ∧
        Stored p q' (Tree.node start children stop).flatten := by
    obtain ⟨start, children, stop, node, stored⟩ :=
      body _ rfl opened ((frame.steps.peekType.ok peeked).2 fine')
    have whole := stored.trans (.of_onward (peekType_ok peeked).2.onward)
    rw [List.append_nil] at whole
    exact ⟨start, children, stop, node, whole⟩
  split at rest
  · split at rest
    · cases rest
    · cases rest
      obtain ⟨start, children, stop, node, stored⟩ := flow fine
      have changed : Stored p { q' with events := q'.events.modify p.evtLen outer.giveProps }
          (Tree.node (outer.giveProps start) children stop).flatten := stored.changed
      have kept : NodeTree (.node (outer.giveProps start) children stop) := node.changed rfl
      exact Stored.node kept ⟨changed.fixed, changed.contexts, changed.events⟩
  · have fine' := ((keyMapping_steady calls _ _ _ (by rfl)).ok rest).2 fine
    obtain ⟨start, children, stop, node, stored⟩ := flow fine'
    exact stored.key calls node rfl rfl isEager rest fine

theorem innerProps_nodes (p : Parser) : Nodes oneNode (innerProps r) p := by
  refine .read (.after (.put ⟨rfl, rfl, rfl, rfl⟩) fun _ q _ => .after .consumeProps fun _ q _ => ?_)
  refine .read (.after (.put ⟨rfl, rfl, rfl, rfl⟩) fun _ q' _ => .after .peekType fun tt q' _ => ?_)
  split
  · exact innerScalar_nodes calls q _ _ q'
  · exact openBlockSequence_nodes calls (some q) q'
  · exact innerFlow_nodes calls p q _ _ false q'
  · exact innerFlow_nodes calls p q _ _ true q'
  · refine .read (.ite (innerEmptyKey_nodes calls q _ q') ?_)
    exact .after (.update ⟨rfl, rfl, rfl, rfl⟩) fun _ q _ => .read (.storeScalar rfl)

/-- `parse_block_node` -/
theorem blockNode_nodes (p : Parser) : Nodes oneNode (parseBlockNode r) p := by
  refine .after .checkOom fun _ p _ => .after .consumeProps fun _ p _ => .after .peek fun _ p _ =>
    .read (.ite (.error _) (.ite .emitEmpty (.ite (innerProps_nodes calls p) ?_)))
  split
  · exact blockAlias_nodes calls p
  · exact blockFlow_nodes calls false p
  · exact blockFlow_nodes calls true p
  · exact .ite .emitEmpty (openBlockSequence_nodes calls none p)
  · exact blockScalar_nodes calls p
  · exact blockExplicitMapping_nodes calls p
  · exact .ite .emitEmpty (blockBareValue_nodes calls p)
  · exact .emitEmpty

end

/-- The functions of the eager parser store whole nodes. -/
theorem eager_writesBlock (n : Nat) : (eager n).WritesBlock := by
  induction n with
  | zero =>
      refine ⟨eager_writesFlow .value 0, ?_, ?_, ?_, ?_⟩
      · intro _ p a p' ok
        cases ok
      · intro _ p a p' ok
        cases ok
      · intro _ p a p' ok
        cases ok
      · intro p a p' ok
        cases ok
  | succ n ih =>
      exact ⟨eager_writesFlow .value (n + 1), blockMapValue_nodes ih, blockMapping_nodes ih,
        blockSequence_nodes ih, blockNode_nodes ih⟩

end Oyl
