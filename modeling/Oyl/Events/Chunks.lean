import Oyl.Events.Grammar
import Oyl.Expand.Budget

/-!
# Chunks of the stream

The events that the eager parser holds at a time are marks of documents and
whole nodes.  Binding, merging and alias resolution replace the nodes by nodes,
so the events lead from one place of the stream to the same other place.
-/

namespace Oyl

open StateError

/-- A mark of a document or of the stream, or a node. -/
inductive ChunkTree : Tree Event → Prop
  | mark {evt : Event} (isMark : DocumentMark evt) : ChunkTree (.leaf evt)
  | node {tree : Tree Event} (isNode : NodeTree tree) : ChunkTree tree

/-- What the automaton sees of a tree, with a scalar for every node. -/
def Tree.outline : Tree Event → EventType
  | .leaf evt => if evt.type = .alias then .scalar else evt.type
  | .node _ _ _ => .scalar

/-- Events that lead from one place of the stream to another. -/
structure Chunk (first last : Place) (events : List Event) (trees : List (Tree Event)) : Prop where
  flat : events = Tree.flattenList trees
  parts : ∀ tree ∈ trees, ChunkTree tree
  leads : first.feedAll (trees.map Tree.outline) = some last

theorem NodeTree.outline {tree : Tree Event} (node : NodeTree tree) : tree.outline = .scalar := by
  cases tree with
  | leaf evt =>
      have leaf : NodeLeaf evt := node.shaped
      rcases leaf.type with type | type <;> rw [Tree.outline, type] <;> rfl
  | node start children stop => rfl

theorem NodeTree.eventTree {tree : Tree Event} (node : NodeTree tree) : EventTree tree :=
  Tree.Shaped.imp (fun _ leaf => leaf.leaf) (fun _ _ pair => pair) tree node.shaped

theorem ChunkTree.eventTree {tree : Tree Event} (part : ChunkTree tree) :
    EventTree tree ∧ tree.Paired := by
  cases part with
  | mark isMark => exact ⟨isMark.leaf, trivial⟩
  | node isNode => exact ⟨isNode.eventTree, isNode.paired⟩

theorem DocumentMark.notAlias {evt : Event} (mark : DocumentMark evt) : evt.type ≠ .alias := by
  intro isAlias
  rcases mark.type with type | type | type | type <;> cases isAlias.symm.trans type

theorem DocumentMark.outline {evt : Event} (mark : DocumentMark evt) :
    (Tree.leaf evt).outline = evt.type :=
  if_neg mark.notAlias

/-- The events of a node are no marks of documents. -/
theorem NodeTree.notMark {tree : Tree Event} (node : NodeTree tree) {evt : Event}
    (member : evt ∈ tree.flatten) : evt.type ≠ .docStart := by
  intro isStart
  have apart (first last : Event) (pair : EventPair first last) : evt ≠ first ∧ evt ≠ last := by
    constructor
    · rintro rfl
      have opens := pair.opens
      rw [isStart] at opens
      cases opens
    · rintro rfl
      have opens := pair.opens
      have closes := pair.closes
      rw [isStart] at closes
      cases type : first.type <;> rw [type] at opens closes <;> cases opens <;> cases closes
  have leaf := Tree.Shaped.leaves tree node.shaped evt
    (Tree.mem_leaves_of_mem_flatten apart tree node.shaped member)
  rcases leaf.type with type | type <;> cases isStart.symm.trans type

/-! ### What the automaton sees -/

theorem Place.feedAll_node {place next : Place} {tree : Tree Event} (node : NodeTree tree)
    (fed : place.feed .scalar = some next) : place.feedAll tree.types = some next := by
  obtain ⟨cell, cell', cells, rfl, filled, rfl⟩ := Place.fill_eq_some fed
  exact NodeTree.feedAll tree node filled cells

theorem Place.feedAll_outline {trees : List (Tree Event)} (parts : ∀ tree ∈ trees, ChunkTree tree)
    {first last : Place} (leads : first.feedAll (trees.map Tree.outline) = some last) :
    first.feedAll ((Tree.flattenList trees).map (·.type)) = some last := by
  induction trees generalizing first with
  | nil => exact leads
  | cons tree trees ih =>
      obtain ⟨next, fed, rest⟩ := Option.bind_eq_some_iff.mp leads
      rw [Tree.flattenList, List.map_append]
      refine Place.feedAll_trans next ?_
        (ih (fun t member => parts t (List.mem_cons_of_mem tree member)) rest)
      cases parts tree List.mem_cons_self with
      | mark isMark =>
          rw [isMark.outline] at fed
          rw [Tree.flatten, List.map_singleton, Place.feedAll_singleton]
          exact fed
      | node isNode =>
          rw [isNode.outline] at fed
          exact Place.feedAll_node isNode fed

namespace Chunk

variable {first last next : Place} {events more : List Event} {trees others : List (Tree Event)}

theorem types (chunk : Chunk first last events trees) :
    first.feedAll (events.map (·.type)) = some last := by
  rw [chunk.flat]
  exact Place.feedAll_outline chunk.parts chunk.leads

theorem forest (chunk : Chunk first last events trees) : Forest events trees where
  flat := chunk.flat
  shaped := Tree.shapedList_iff.mpr fun tree member => (chunk.parts tree member).eventTree.1
  paired := Tree.pairedList_iff.mpr fun tree member => (chunk.parts tree member).eventTree.2

theorem nil (place : Place) : Chunk place place [] [] := ⟨rfl, by simp, rfl⟩

theorem append (before : Chunk first last events trees) (after : Chunk last next more others) :
    Chunk first next (events ++ more) (trees ++ others) where
  flat := by rw [before.flat, after.flat, Tree.flattenList_append]
  parts tree member := by
    rcases List.mem_append.mp member with here | there
    · exact before.parts tree here
    · exact after.parts tree there
  leads := by
    rw [List.map_append]
    exact Place.feedAll_trans last before.leads after.leads

theorem mark {evt : Event} (isMark : DocumentMark evt) (fed : first.feed evt.type = some last) :
    Chunk first last [evt] [.leaf evt] where
  flat := rfl
  parts tree member := by
    obtain rfl := List.mem_singleton.mp member
    exact .mark isMark
  leads := by
    rw [List.map_singleton, isMark.outline, Place.feedAll_singleton]
    exact fed

theorem node {tree : Tree Event} (isNode : NodeTree tree) (fed : first.feed .scalar = some last) :
    Chunk first last tree.flatten [tree] where
  flat := by rw [Tree.flattenList, Tree.flattenList, List.append_nil]
  parts t member := by
    obtain rfl := List.mem_singleton.mp member
    exact .node isNode
  leads := by
    rw [List.map_singleton, isNode.outline, Place.feedAll_singleton]
    exact fed

/-- The same outline leads to the same place. -/
theorem redraw (chunk : Chunk first last events trees)
    (parts : ∀ tree ∈ others, ChunkTree tree)
    (outline : others.map Tree.outline = trees.map Tree.outline) :
    Chunk first last (Tree.flattenList others) others :=
  ⟨rfl, parts, outline ▸ chunk.leads⟩

end Chunk

/-! ### Binding -/

theorem NodeLeaf.rebinds {evt evt' : Event} (leaf : NodeLeaf evt) (rebinds : Rebinds evt evt') :
    NodeLeaf evt' :=
  ⟨rebinds.type ▸ leaf.type, fun isAlias => rebinds.bare (leaf.bare (rebinds.type ▸ isAlias))⟩

theorem DocumentMark.rebinds {evt evt' : Event} (mark : DocumentMark evt)
    (rebinds : Rebinds evt evt') : DocumentMark evt' :=
  ⟨rebinds.type ▸ mark.type, rebinds.bare mark.anchor⟩

theorem rebinds_parts {trees : List (Tree Event)} (parts : ∀ tree ∈ trees, ChunkTree tree)
    {out : List Event} (rebinds : List.Forall₂ Rebinds (Tree.flattenList trees) out) :
    ∃ others, out = Tree.flattenList others ∧ (∀ tree ∈ others, ChunkTree tree) ∧
      others.map Tree.outline = trees.map Tree.outline := by
  induction trees generalizing out with
  | nil =>
      obtain rfl := List.forall₂_nil_left_iff.mp rebinds
      exact ⟨[], rfl, by simp, rfl⟩
  | cons tree trees ih =>
      obtain ⟨first, rest, rfl, one, more⟩ := forall₂_append_left rebinds
      obtain ⟨others, rfl, all, outline⟩ :=
        ih (fun t member => parts t (List.mem_cons_of_mem tree member)) more
      have part : ∃ tree', first = tree'.flatten ∧ ChunkTree tree' ∧
          tree'.outline = tree.outline := by
        cases parts tree List.mem_cons_self with
        | @mark evt isMark =>
            obtain ⟨evt', none, bound, nothing, rfl⟩ := List.forall₂_cons_left_iff.mp one
            obtain rfl := List.forall₂_nil_left_iff.mp nothing
            have isMark' := isMark.rebinds bound
            exact ⟨.leaf evt', rfl, .mark isMark',
              by rw [isMark'.outline, isMark.outline, bound.type]⟩
        | node isNode =>
            obtain ⟨tree', rfl, shaped, paired⟩ := rebinds_tree
              (fun _ _ leaf rebinds => NodeLeaf.rebinds leaf rebinds) tree isNode.shaped
              isNode.paired one
            have isNode' : NodeTree tree' := ⟨shaped, paired⟩
            exact ⟨tree', rfl, .node isNode', by rw [isNode'.outline, isNode.outline]⟩
      obtain ⟨tree', rfl, part, same⟩ := part
      refine ⟨tree' :: others, rfl, fun t member => ?_, by rw [List.map_cons, same, outline]; rfl⟩
      rcases List.mem_cons.mp member with rfl | later
      · exact part
      · exact all t later

/-! ### Merging -/

theorem kept_nodeTree : Kept NodeTree where
  child _ _ _ node := node.child
  copy tree node := by
    refine ⟨Tree.Shaped.map (fun _ leaf => ⟨leaf.type, fun _ => rfl⟩)
      (fun _ _ pair => pair.copy) tree node.shaped, Tree.Paired.map_copy tree node.paired⟩
  rebuild start children children' stop node inner even := by
    refine ⟨⟨node.shaped.1, Tree.shapedList_iff.mpr fun tree member => (inner tree member).shaped⟩,
      fun isMap => even isMap (node.paired.1 isMap),
      Tree.pairedList_iff.mpr fun tree member => (inner tree member).paired⟩

/-- What an anchor names is a node. -/
theorem anchored_node {trees : List (Tree Event)} (parts : ∀ tree ∈ trees, ChunkTree tree)
    {name : Bytes} {tree : Tree Event} (named : (name, tree) ∈ anchoredTrees trees) :
    NodeTree tree := by
  obtain ⟨member, anchored⟩ := mem_anchoredTrees.mp named
  induction trees with
  | nil => cases member
  | cons first trees ih =>
      rcases List.mem_append.mp member with here | later
      · cases parts first List.mem_cons_self with
        | mark isMark =>
            obtain rfl := List.mem_singleton.mp here
            rw [Tree.head, anchorName_of_anchor isMark.anchor] at anchored
            cases anchored
        | node isNode =>
            exact ⟨Tree.Shaped.subtrees first isNode.shaped tree here,
              Tree.Paired.subtrees first isNode.paired tree here⟩
      · exact ih (fun t among => parts t (List.mem_cons_of_mem first among))
          (mem_anchoredTrees.mpr ⟨later, anchored⟩) later

theorem mergeTrees_parts {defs : Bytes → Option (Tree Event)}
    (inDefs : ∀ name tree, defs name = some tree → NodeTree tree) {trees others : List (Tree Event)}
    (parts : ∀ tree ∈ trees, ChunkTree tree) (ok : mergeTrees defs trees = some others) :
    (∀ tree ∈ others, ChunkTree tree) ∧ others.map Tree.outline = trees.map Tree.outline := by
  induction trees generalizing others with
  | nil =>
      cases ok
      exact ⟨by simp, rfl⟩
  | cons tree trees ih =>
      rw [mergeTrees] at ok
      obtain ⟨first, head, more⟩ := Option.bind_eq_some_iff.mp ok
      obtain ⟨rest, tail, rfl⟩ := Option.map_eq_some_iff.mp more
      obtain ⟨all, outline⟩ :=
        ih (fun t member => parts t (List.mem_cons_of_mem tree member)) tail
      have part : ChunkTree first ∧ first.outline = tree.outline := by
        cases parts tree List.mem_cons_self with
        | mark isMark =>
            cases head
            exact ⟨.mark isMark, rfl⟩
        | node isNode =>
            have isNode' := kept_nodeTree.mergeTree inDefs tree isNode head
            exact ⟨.node isNode', by rw [isNode'.outline, isNode.outline]⟩
      refine ⟨fun t member => ?_, by rw [List.map_cons, part.2, outline]; rfl⟩
      rcases List.mem_cons.mp member with rfl | later
      · exact part.1
      · exact all t later

theorem expandMerges_parts {n : Nat} {trees others : List (Tree Event)}
    (parts : ∀ tree ∈ trees, ChunkTree tree) (ok : expandMerges n trees = some others) :
    (∀ tree ∈ others, ChunkTree tree) ∧ others.map Tree.outline = trees.map Tree.outline := by
  induction n generalizing trees with
  | zero =>
      cases ok
      exact ⟨parts, rfl⟩
  | succ n ih =>
      obtain ⟨next, passed, rest⟩ := Option.bind_eq_some_iff.mp ok
      obtain ⟨all, outline⟩ := mergeTrees_parts
        (fun name tree defined => anchored_node parts (definition_mem defined)) parts passed
      split at rest
      · obtain ⟨all', outline'⟩ := ih all rest
        exact ⟨all', outline'.trans outline⟩
      · cases rest
        exact ⟨parts, rfl⟩

/-! ### Alias resolution -/

mutual

theorem Tree.Paired.bind {f : Event → Tree Event} (leaf : ∀ evt, (f evt).Paired)
    (tree : Tree Event) (paired : tree.Paired) : (tree.bind f).Paired := by
  cases tree with
  | leaf evt => exact leaf evt
  | node start children stop =>
      refine ⟨fun isMap => ?_, Tree.PairedList.bindList leaf children paired.2⟩
      rw [Tree.bindList_eq_map, List.length_map]
      exact paired.1 isMap

theorem Tree.PairedList.bindList {f : Event → Tree Event} (leaf : ∀ evt, (f evt).Paired)
    (trees : List (Tree Event)) (paired : Tree.PairedList trees) :
    Tree.PairedList (Tree.bindList f trees) := by
  cases trees with
  | nil => trivial
  | cons tree trees =>
      exact ⟨Tree.Paired.bind leaf tree paired.1, Tree.PairedList.bindList leaf trees paired.2⟩

end

theorem aliasBody_node {trees : List (Tree Event)} (parts : ∀ tree ∈ trees, ChunkTree tree)
    {evt : Event} {tree : Tree Event} (body : (aliasRefs trees).body evt = some tree) :
    NodeTree tree := by
  obtain ⟨_, idx, name, _, _, here⟩ := aliasBody_eq_some.mp body
  exact anchored_node parts (List.mem_of_getElem? here)

theorem unfold_paired {trees : List (Tree Event)} (parts : ∀ tree ∈ trees, ChunkTree tree)
    (n : Nat) (evt : Event) : ((aliasRefs trees).unfold n evt).Paired := by
  induction n generalizing evt with
  | zero => trivial
  | succ n ih =>
      cases body : (aliasRefs trees).body evt with
      | none =>
          rw [RefSystem.unfold_of_none body]
          trivial
      | some tree =>
          rw [RefSystem.unfold, RefSystem.expand_of_some body]
          exact Tree.Paired.map_copy _ (Tree.Paired.bind ih tree (aliasBody_node parts body).paired)

theorem unfold_node {trees : List (Tree Event)} (parts : ∀ tree ∈ trees, ChunkTree tree)
    (n : Nat) {evt : Event} (leaf : NodeLeaf evt) : NodeTree ((aliasRefs trees).unfold n evt) := by
  refine ⟨?_, unfold_paired parts n evt⟩
  induction n generalizing evt with
  | zero => exact leaf
  | succ n ih =>
      cases body : (aliasRefs trees).body evt with
      | none =>
          rw [RefSystem.unfold_of_none body]
          exact leaf
      | some tree =>
          rw [RefSystem.unfold, RefSystem.expand_of_some body]
          have bound : (tree.bind ((aliasRefs trees).unfold n)).Shaped NodeLeaf EventPair :=
            Tree.Shaped.bind (fun _ => ih) tree (aliasBody_node parts body).shaped
          exact bound.map (fun _ leaf => ⟨leaf.type, fun _ => rfl⟩) (fun _ _ pair => pair.copy)

theorem rounds_parts {trees : List (Tree Event)} (parts : ∀ tree ∈ trees, ChunkTree tree)
    (k : Nat) : (∀ tree ∈ Tree.bindList ((aliasRefs trees).rounds k) trees, ChunkTree tree) ∧
      (Tree.bindList ((aliasRefs trees).rounds k) trees).map Tree.outline =
        trees.map Tree.outline := by
  have part (tree : Tree Event) (here : ChunkTree tree) :
      ChunkTree (tree.bind ((aliasRefs trees).rounds k)) ∧
        (tree.bind ((aliasRefs trees).rounds k)).outline = tree.outline := by
    rw [RefSystem.rounds_eq_unfold]
    cases here with
    | @mark evt isMark =>
        have noBody : (aliasRefs trees).body evt = none := by
          simp [aliasRefs, aliasBody, isMark.notAlias]
        rw [Tree.bind, RefSystem.unfold_of_none noBody]
        exact ⟨.mark isMark, rfl⟩
    | node isNode =>
        have isNode' : NodeTree (tree.bind ((aliasRefs trees).unfold (2 ^ k - 1))) :=
          ⟨Tree.Shaped.bind (fun _ leaf => (unfold_node parts _ leaf).shaped) tree isNode.shaped,
            Tree.Paired.bind (unfold_paired parts _) tree isNode.paired⟩
        exact ⟨.node isNode', by rw [isNode'.outline, isNode.outline]⟩
  rw [Tree.bindList_eq_map]
  refine ⟨fun tree member => ?_, ?_⟩
  · obtain ⟨tree', among, rfl⟩ := List.mem_map.mp member
    exact (part tree' (parts tree' among)).1
  · rw [List.map_map]
    exact List.map_congr_left fun tree member => (part tree (parts tree member)).2

/-- The passes, where they succeed, end with the events of some round. -/
theorem resolvePasses_rounds {trees : List (Tree Event)} (shaped : EventTrees trees) {limit : Int}
    (n k : Nat) {p p' : Parser}
    (events : p.events =
      Tree.flattenList (Tree.bindList ((aliasRefs trees).rounds k) trees))
    (ok : resolvePasses
      (cyclicFlags (Tree.flattenList trees) (atblBuild (Tree.flattenList trees)))
      limit n p = .ok () p') :
    ∃ k' cursor, (cursor = 0 ∨ cursor = p.evtCursor) ∧ p' = { p with
      events := Tree.flattenList (Tree.bindList ((aliasRefs trees).rounds k') trees)
      evtCursor := cursor } := by
  induction n generalizing k p with
  | zero =>
      cases ok
      exact ⟨k, p'.evtCursor, .inr rfl, by rw [← events]⟩
  | succ n ih =>
      have written := resolvePass_out shaped k limit
      rw [← events] at written
      rw [resolvePasses, get_bind_eq] at ok
      dsimp only at ok
      split at ok
      · exact absurd ok (expansionFailed_stops _)
      · rename_i room
        have all := EvtBuf.pushAll_of_room (written ▸ Bool.eq_false_iff.mpr room)
        split at ok
        · obtain ⟨_, q, stored, rest⟩ := bind_eq_ok ok
          cases stored
          rw [written, all] at rest
          obtain ⟨k', cursor, isCursor, same⟩ := ih (k + 1) rfl rest
          refine ⟨k', cursor, .inl ?_, same⟩
          rcases isCursor with zero | zero
          · exact zero
          · exact zero
        · cases ok
          exact ⟨k, p'.evtCursor, .inr rfl, by rw [← events]⟩

/-! ### The expansion of a document -/

/-- The events and the names of the anchors are others, between the same places. -/
structure Redraws (first last : Place) (p p' : Parser) : Prop where
  other : ∃ names, p' = { p with events := p'.events, boundNames := names }
  chunk : ∃ trees, Chunk first last p'.events trees

section

variable {first last : Place} {p q p' : Parser} {trees : List (Tree Event)}

theorem Redraws.trans (before : Redraws first last p q) (after : Redraws first last q p') :
    Redraws first last p p' := by
  obtain ⟨names, isFirst⟩ := before.other
  obtain ⟨names', isSecond⟩ := after.other
  refine ⟨⟨names', ?_⟩, after.chunk⟩
  rw [isFirst] at isSecond
  exact isSecond

theorem Redraws.cursor (redraws : Redraws first last p p') : p'.evtCursor = p.evtCursor := by
  obtain ⟨names, same⟩ := redraws.other
  rw [same]

theorem redraws_rebinds (chunk : Chunk first last p.events trees) {out : List Event}
    {names : Option (List Bytes)} (rebinds : List.Forall₂ Rebinds p.events out) :
    Redraws first last p { p with events := out, boundNames := names } := by
  rw [chunk.flat] at rebinds
  obtain ⟨others, rfl, parts, outline⟩ := rebinds_parts chunk.parts rebinds
  exact ⟨⟨names, rfl⟩, others, chunk.redraw parts outline⟩

theorem redraws_bindAnchors (chunk : Chunk first last p.events trees) :
    Redraws first last p p.bindAnchors := by
  unfold Parser.bindAnchors
  split
  · exact ⟨⟨p.boundNames, rfl⟩, trees, chunk⟩
  · exact redraws_rebinds chunk (bindEvents_rebinds {} p.events)

theorem redraws_unbindAnchors (chunk : Chunk first last p.events trees) :
    Redraws first last p p.unbindAnchors := by
  unfold Parser.unbindAnchors
  split
  · exact ⟨⟨p.boundNames, rfl⟩, trees, chunk⟩
  · refine redraws_rebinds chunk (List.forall₂_map_right_iff.mpr ?_)
    exact List.forall₂_same.mpr fun evt _ => ⟨rfl, fun bare => by simp [unbindEvent, bare]⟩

theorem mergePasses_cursor {limit : Int} {n : Nat} (fresh : p.evtCursor = 0)
    (ok : mergePasses limit n p = .ok () p') : p'.evtCursor = 0 := by
  induction n generalizing p with
  | zero =>
      cases ok
      exact fresh
  | succ n ih =>
      rw [mergePasses, get_bind_eq] at ok
      cases pass : mergePass p.events limit with
      | error failure =>
          rw [pass] at ok
          obtain ⟨_, _, _, failed⟩ := bind_eq_ok ok
          cases failed
      | ok value =>
          obtain ⟨out, changed⟩ := value
          rw [pass] at ok
          dsimp only at ok
          split at ok
          · exact absurd ok (expansionFailed_stops _)
          split at ok
          · obtain ⟨_, q, stored, rest⟩ := bind_eq_ok ok
            cases stored
            exact ih rfl rest
          · cases ok
            exact fresh

theorem redraws_merges (chunk : Chunk first last p.events trees) (fresh : p.evtCursor = 0)
    (ok : resolveMerges p = .ok () p') : Redraws first last p p' := by
  have passes : mergePasses (p.expansionLimit p.evtLen) maxMergePasses p = .ok () p' := ok
  have zero := mergePasses_cursor fresh passes
  obtain ⟨others, cursor, expanded, same, _, _⟩ := mergePasses_spec chunk.forest passes
  obtain ⟨parts, outline⟩ := expandMerges_parts chunk.parts expanded
  subst same
  obtain rfl : cursor = 0 := zero
  exact ⟨⟨p.boundNames, by rw [← fresh]⟩, others, chunk.redraw parts outline⟩

theorem redraws_aliases (chunk : Chunk first last p.events trees) (fresh : p.evtCursor = 0)
    (ok : resolveAliases p = .ok () p') : Redraws first last p p' := by
  rw [resolveAliases_run] at ok
  split at ok
  · cases ok
    exact ⟨⟨p.boundNames, rfl⟩, trees, chunk⟩
  · have none : p.events = Tree.flattenList (Tree.bindList ((aliasRefs trees).rounds 0) trees) := by
      simpa [RefSystem.rounds] using chunk.flat
    rw [chunk.flat] at ok
    obtain ⟨k, cursor, isCursor, same⟩ :=
      resolvePasses_rounds chunk.forest.shaped 32 0 none ok
    obtain ⟨parts, outline⟩ := rounds_parts chunk.parts k
    obtain rfl : cursor = p.evtCursor := by
      rcases isCursor with zero | zero
      · rw [zero, fresh]
      · exact zero
    subst same
    exact ⟨⟨p.boundNames, rfl⟩, _, chunk.redraw parts outline⟩

theorem redraws_bound (chunk : Chunk first last p.events trees) (fresh : p.evtCursor = 0)
    (ok : expandBound p = .ok () p') : Redraws first last p p' := by
  rw [expandBound_run] at ok
  have merges {q : Parser}
      (ok : (if p.mergeEnabled then resolveMerges p else .ok () p) = .ok () q) :
      Redraws first last p q := by
    split at ok
    · exact redraws_merges chunk fresh ok
    · cases ok
      exact ⟨⟨p.boundNames, rfl⟩, trees, chunk⟩
  cases stage : if p.mergeEnabled then resolveMerges p else .ok () p with
  | error e q =>
      rw [stage] at ok
      cases ok
  | ok a q =>
      rw [stage] at ok
      have merged := merges stage
      obtain ⟨trees', chunk'⟩ := merged.chunk
      dsimp only at ok
      split at ok
      · exact merged.trans (redraws_aliases chunk' (merged.cursor.trans fresh) ok)
      · cases ok
        exact merged

/-- What `eager_next_event` does with a document leads between the same places, and no deeper
than the depth limit. -/
theorem expandDocument_redraws (chunk : Chunk first last p.events trees) (fresh : p.evtCursor = 0)
    (ok : expandDocument p = .ok () p') :
    Redraws first last p p' ∧ (0 < p'.maxDepth → depthWithin p'.maxDepth 0 p'.events = true) := by
  have checked {q : Parser} (ok : checkEagerDepth q = .ok () p') :
      p' = q ∧ (0 < p'.maxDepth → depthWithin p'.maxDepth 0 p'.events = true) := by
    obtain rfl := checkEagerDepth_ok ok
    refine ⟨rfl, fun limited => ?_⟩
    rw [checkEagerDepth, get_bind_eq] at ok
    split at ok
    · obtain ⟨_, _, _, failed⟩ := bind_eq_ok ok
      cases failed
    · rename_i within
      simpa [limited] using within
  cases expanding : p.mergeEnabled || p.resolveEnabled with
  | false =>
      have off := Bool.or_eq_false_iff.mp expanding
      rw [expandDocument, get_bind_eq, expanding, off.1, off.2] at ok
      obtain ⟨rfl, within⟩ := checked ok
      exact ⟨⟨⟨p'.boundNames, rfl⟩, trees, chunk⟩, within⟩
  | true =>
      rw [expandDocument_run expanding] at ok
      have binds := redraws_bindAnchors chunk
      obtain ⟨bound, chunk'⟩ := binds.chunk
      cases stages : expandBound p.bindAnchors with
      | error e q =>
          rw [stages] at ok
          cases ok
      | ok a q =>
          rw [stages] at ok
          have expands := redraws_bound chunk' (binds.cursor.trans fresh) stages
          obtain ⟨expanded, chunk''⟩ := expands.chunk
          have unbinds := redraws_unbindAnchors chunk''
          obtain ⟨rfl, within⟩ := checked ok
          exact ⟨(binds.trans expands).trans unbinds, within⟩

end

end Oyl
