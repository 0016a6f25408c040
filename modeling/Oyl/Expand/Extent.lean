import Oyl.Expand.MergeTrees

/-!
# The extent of a node

`node_end` counts the starts and ends of the node's own kind only.  On nested nodes of
any anchors that finds the node's last event, and the loops over a mapping's pairs,
which go from one end to the next, visit its keys and values.
-/

namespace Oyl

/-- An event that is a node of its own. -/
def NestedLeaf (evt : Event) : Prop := evt.type = .scalar ∨ evt.type = .alias

/-- The start and the end of a collection. -/
def NestedPair (start stop : Event) : Prop :=
  start.type.opens = true ∧ stop.type = start.type.closing

/-- A well-formed node: a scalar, an alias, or a collection of well-formed nodes. -/
def NestedTree (tree : Tree Event) : Prop := tree.Shaped NestedLeaf NestedPair

def NestedTrees (trees : List (Tree Event)) : Prop := Tree.ShapedList NestedLeaf NestedPair trees

theorem NestedLeaf.copy {evt : Event} (leaf : NestedLeaf evt) : EventLeaf evt.copy := by
  refine ⟨?_, ?_, fun _ => rfl⟩ <;> rcases leaf with isScalar | isAlias
  · exact congrArg EventType.opens isScalar
  · exact congrArg EventType.opens isAlias
  · exact congrArg EventType.closes isScalar
  · exact congrArg EventType.closes isAlias

theorem NestedPair.copy {start stop : Event} (pair : NestedPair start stop) :
    EventPair start.copy stop.copy :=
  ⟨pair.1, pair.2, rfl⟩

/-- The anchors of the events do not matter. -/
theorem NestedTree.copy {tree : Tree Event} (nested : NestedTree tree) :
    EventTree (tree.map Event.copy) :=
  Tree.Shaped.map (fun _ leaf => leaf.copy) (fun _ _ pair => pair.copy) tree nested

theorem eventAt_copy (events : List Event) (idx : Nat) :
    eventAt (events.map Event.copy) idx = (eventAt events idx).copy := by
  rw [eventAt, eventAt, List.getD_eq_getElem?_getD, List.getD_eq_getElem?_getD,
    List.getElem?_map]
  cases events[idx]? <;> rfl

theorem findClose_copy (start close : EventType) (depth j : Nat) (events : List Event) :
    findClose start close depth j (events.map Event.copy) =
      findClose start close depth j events := by
  induction events generalizing depth j with
  | nil => rfl
  | cons evt rest ih =>
      have same : evt.copy.type = evt.type := rfl
      rw [List.map_cons, findClose, findClose, same, ih, ih, ih]

theorem nodeEnd_copy (events : List Event) (idx : Nat) :
    nodeEnd (events.map Event.copy) idx = nodeEnd events idx := by
  have same : (eventAt (events.map Event.copy) idx).type = (eventAt events idx).type := by
    rw [eventAt_copy]
    rfl
  rw [nodeEnd, nodeEnd, same, ← List.map_drop, findClose_copy]

namespace LiesAt

variable {events : List Event} {pos : Nat} {tree : Tree Event} {trees : List (Tree Event)}

/-- `node_end` of the start of a well-formed node is its end. -/
theorem nodeEnd_node (lies : LiesAt events pos (tree :: trees)) (nested : NestedTree tree) :
    nodeEnd events pos = pos + tree.flatten.length := by
  obtain ⟨before, after, whole, rfl⟩ := lies
  have copies : events.map Event.copy = before.map Event.copy ++
      ((tree.map Event.copy).flatten ++
        (Tree.flattenList trees ++ after).map Event.copy) := by
    rw [whole, Tree.flattenList, Tree.flatten_map]
    simp only [List.map_append, List.append_assoc]
  have ends := nodeEnd_flatten (before.map Event.copy) (tree.map Event.copy) nested.copy
    ((Tree.flattenList trees ++ after).map Event.copy)
  rw [← copies, nodeEnd_copy, Tree.flatten_map, List.length_map, List.length_map] at ends
  exact ends

theorem slice_first (lies : LiesAt events pos (tree :: trees)) :
    slice events pos (pos + tree.flatten.length) = tree.flatten := by
  have whole := lies.first.slice_eq
  rw [Tree.flattenList, Tree.flattenList, List.append_nil] at whole
  exact whole

end LiesAt

/-! ### Walking a mapping -/

/-- The entries of a mapping whose children start at `pos`. -/
def entriesOf : Nat → List (Tree Event) → List Entry
  | pos, key :: value :: rest =>
      let valStart := pos + key.flatten.length
      let valEnd := valStart + value.flatten.length
      ⟨pos, valStart, valEnd⟩ :: entriesOf valEnd rest
  | _, _ => []

/-- Where a walk that starts at `pos` stops. -/
def walkEnd (pos : Nat) (walk : List Entry) : Nat :=
  walk.foldl (fun _ e => e.valEnd) pos

/-- An entry is where its key and its value are. -/
def VisitsPair (events : List Event) (e : Entry) (pair : Pair) : Prop :=
  slice events e.keyStart e.valStart = pair.1.flatten ∧
    slice events e.valStart e.valEnd = pair.2.flatten

theorem flattenList_cons_length (tree : Tree Event) (trees : List (Tree Event)) :
    (Tree.flattenList (tree :: trees)).length =
      tree.flatten.length + (Tree.flattenList trees).length := by
  rw [Tree.flattenList, List.length_append]

theorem entriesFrom_eq {events : List Event} (children : List (Tree Event))
    (nested : NestedTrees children) (even : children.length % 2 = 0) (pos fuel : Nat)
    (enough : (Tree.flattenList children).length ≤ fuel) (lies : LiesAt events pos children) :
    entriesFrom events (pos + (Tree.flattenList children).length) fuel pos =
      entriesOf pos children := by
  induction children using pairsOf_induction generalizing pos fuel with
  | nil => cases fuel <;> simp [entriesFrom, entriesOf, Tree.flattenList]
  | single tree => simp at even
  | pair key value rest ih =>
      obtain ⟨keyNested, valueNested, restNested⟩ := nested
      have keyEnd := lies.nodeEnd_node keyNested
      have valEnd := lies.tail.nodeEnd_node valueNested
      have keyLength := key.flatten_length_pos
      rw [flattenList_cons_length, flattenList_cons_length] at enough ⊢
      obtain ⟨fuel, rfl⟩ : ∃ n, fuel = n + 1 := ⟨fuel - 1, by omega⟩
      have inside : pos < pos + (key.flatten.length + (value.flatten.length +
          (Tree.flattenList rest).length)) := by omega
      have others := ih restNested (by rw [List.length_cons, List.length_cons] at even; omega)
        (pos + key.flatten.length + value.flatten.length) fuel (by omega) lies.tail.tail
      simp only [Nat.add_assoc] at valEnd others
      simp only [entriesFrom, if_pos inside, keyEnd, valEnd, entriesOf, ← others, Nat.add_assoc]

theorem walkEnd_entriesOf (children : List (Tree Event)) (even : children.length % 2 = 0)
    (pos : Nat) :
    walkEnd pos (entriesOf pos children) = pos + (Tree.flattenList children).length := by
  induction children using pairsOf_induction generalizing pos with
  | nil => rfl
  | single tree => simp at even
  | pair key value rest ih =>
      have others := ih (by rw [List.length_cons, List.length_cons] at even; omega)
        (pos + key.flatten.length + value.flatten.length)
      rw [flattenList_cons_length, flattenList_cons_length, ← Nat.add_assoc, ← Nat.add_assoc,
        ← others]
      rfl

theorem entriesOf_visits {events : List Event} (children : List (Tree Event)) (pos : Nat)
    (lies : LiesAt events pos children) :
    List.Forall₂ (VisitsPair events) (entriesOf pos children) (pairsOf children) := by
  induction children using pairsOf_induction generalizing pos with
  | nil => exact .nil
  | single tree => exact .nil
  | pair key value rest ih =>
      exact .cons ⟨lies.slice_first, lies.tail.slice_first⟩ (ih _ lies.tail.tail)

/-- `node_end` of a well-formed node is the index past its last event, and the walk over
a mapping visits its keys and values and stops at its end. -/
theorem nodeEnd_extent {events : List Event} {pos : Nat} {tree : Tree Event}
    (lies : LiesAt events pos [tree]) (nested : NestedTree tree) :
    nodeEnd events pos = pos + tree.flatten.length ∧
    ∀ start children stop, tree = .node start children stop → start.type = .mappingStart →
      children.length % 2 = 0 →
      let walk := entries events pos (nodeEnd events pos)
      List.Forall₂ (VisitsPair events) walk (pairsOf children) ∧
        walk = entriesOf (pos + 1) children ∧
        walkEnd (pos + 1) walk = nodeEnd events pos - 1 ∧
        (eventAt events (walkEnd (pos + 1) walk)).type = .mappingEnd := by
  have extent := lies.nodeEnd_node nested
  refine ⟨extent, ?_⟩
  intro start children stop isCollection isMap even walk
  subst isCollection
  have length : (Tree.node start children stop).flatten.length =
      (Tree.flattenList children).length + 2 := by
    rw [Tree.flatten, List.length_cons, List.length_append, List.length_singleton]
  have last : nodeEnd events pos - 1 = pos + 1 + (Tree.flattenList children).length := by
    omega
  have whole : walk = entriesOf (pos + 1) children := by
    dsimp only [walk]
    rw [entries, last]
    exact entriesFrom_eq children nested.2 even (pos + 1) _ (by omega) lies.inner
  have stops : walkEnd (pos + 1) walk = nodeEnd events pos - 1 := by
    rw [whole, walkEnd_entriesOf children even, last]
  refine ⟨?_, whole, stops, ?_⟩
  · rw [whole]
    exact entriesOf_visits children (pos + 1) lies.inner
  · rw [stops, extent, lies.eventAt_close, nested.1.2, isMap]
    rfl

theorem nodeEnd_extent_nested :
    let evt (type : EventType) : Event := { type := type }
    let events := [evt .docStart, evt .mappingStart, evt .scalar, evt .sequenceStart,
      evt .mappingStart, evt .mappingEnd, evt .alias, evt .sequenceEnd, evt .mappingEnd,
      evt .docEnd]
    nodeEnd events 1 = 9 ∧ entries events 1 9 = [⟨2, 3, 8⟩] := by
  intro evt events
  let children : List (Tree Event) := [.leaf (evt .scalar), .node (evt .sequenceStart)
    [.node (evt .mappingStart) [] (evt .mappingEnd), .leaf (evt .alias)] (evt .sequenceEnd)]
  let tree : Tree Event := .node (evt .mappingStart) children (evt .mappingEnd)
  have lies : LiesAt events 1 [tree] := ⟨[evt .docStart], [evt .docEnd], rfl, rfl⟩
  have nested : NestedTree tree :=
    ⟨⟨rfl, rfl⟩, .inl rfl,
      ⟨⟨rfl, rfl⟩, ⟨⟨rfl, rfl⟩, trivial⟩, .inr rfl, trivial⟩, trivial⟩
  have holds := nodeEnd_extent lies nested
  have extent : nodeEnd events 1 = 9 := holds.1
  have walk := (holds.2 _ _ _ rfl rfl (Nat.mod_self 2)).2.1
  rw [extent] at walk
  exact ⟨extent, walk⟩

end Oyl
