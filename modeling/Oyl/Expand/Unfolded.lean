import Oyl.Expand.Cycles
import Oyl.Expand.Documents
import Oyl.Logic.Unfolding

/-!
# Alias resolution is recursive unfolding

What `resolve_aliases` is for: every alias whose definition reaches no
reference cycle is replaced by its definition, unfolded the same way and
without anchors.  The passes double the depth to which the aliases are
unfolded, so 32 of them are more than any document needs.
-/

namespace Oyl

open Relation

/-- `node` lists the events of a node anchored `name`. -/
def Defines (events : List Event) (name : Bytes) (node : List Event) : Prop :=
  ∃ before tree after, events = before ++ (Tree.flatten tree ++ after) ∧
    EventTree tree ∧ tree.head.anchorName = some name ∧ node = tree.flatten

/-- An alias of `other` lies inside the node of `name`. -/
def RefersTo (events : List Event) (name other : Bytes) : Prop :=
  ∃ node, Defines events name node ∧ ∃ evt ∈ node, evt.type = .alias ∧ evt.value = other

/-- An alias of `node`, from which no reference cycle can be reached. -/
structure Expandable (events : List Event) (evt : Event) (node : List Event) : Prop where
  isAlias : evt.type = .alias
  defined : Defines events evt.value node
  acyclic : ¬ ReachesCycle (RefersTo events) evt.value

/-- Unfolding of a list of events in a document: an expandable alias becomes
its unfolded node without anchors, everything else stays. -/
inductive Unfolds (events : List Event) : List Event → List Event → Prop where
  | nil : Unfolds events [] []
  | keep {evt : Event} {rest out : List Event} :
      (∀ node, ¬ Expandable events evt node) →
      Unfolds events rest out → Unfolds events (evt :: rest) (evt :: out)
  | expand {evt : Event} {node body rest out : List Event} :
      Expandable events evt node → Unfolds events node body →
      Unfolds events rest out →
      Unfolds events (evt :: rest) (body.map Event.copy ++ out)

/-- An event that marks the start or end of the stream or of a document. -/
structure DocumentMark (evt : Event) : Prop where
  type : evt.type = .streamStart ∨ evt.type = .streamEnd ∨ evt.type = .docStart ∨
    evt.type = .docEnd
  anchor : evt.anchor = none

/-- The events of one document, in which every anchor has a name of its own. -/
structure BoundDocument (events : List Event) : Prop where
  shape : ∃ before node after, events = before ++ (Tree.flatten node ++ after) ∧
    EventTree node ∧ ∀ evt ∈ before ++ after, DocumentMark evt
  distinct : (events.filterMap Event.anchorName).Nodup

namespace Unfolds

variable {events : List Event}

/-- Unfolding has one result. -/
theorem unique (distinct : ∀ name left right, Defines events name left →
      Defines events name right → left = right) {list left right : List Event}
    (first : Unfolds events list left) (second : Unfolds events list right) :
    left = right := by
  induction first generalizing right with
  | nil => cases second; rfl
  | keep blocked _ ih =>
      cases second with
      | keep _ rest => rw [ih rest]
      | expand expandable _ _ => exact absurd expandable (blocked _)
  | expand expandable _ _ ihNode ihRest =>
      cases second with
      | keep blocked _ => exact absurd expandable (blocked _)
      | expand other node rest =>
          obtain rfl := distinct _ _ _ expandable.defined other.defined
          rw [ihNode node, ihRest rest]

/-- The aliases that are left are those that cannot be expanded. -/
theorem closed {list out : List Event} (unfolds : Unfolds events list out) :
    ∀ evt ∈ out, ∀ node, ¬ Expandable events evt node := by
  induction unfolds with
  | nil => simp
  | keep blocked _ ih =>
      intro evt member
      rcases List.mem_cons.mp member with rfl | later
      · exact blocked
      · exact ih evt later
  | expand _ _ _ ihNode ihRest =>
      intro evt member node expandable
      rcases List.mem_append.mp member with copied | later
      · obtain ⟨original, inNode, rfl⟩ := List.mem_map.mp copied
        exact ihNode original inNode node
          ⟨expandable.isAlias, expandable.defined, expandable.acyclic⟩
      · exact ihRest evt later node expandable

end Unfolds

/-! ### Tables -/

theorem aliasTargets_inside {events : List Event} {entries : List AnchorEntry} (i k : Nat)
    (member : k ∈ aliasTargets events entries i) : k < entries.length := by
  obtain ⟨evt, _, found⟩ := List.mem_filterMap.mp member
  by_cases isAlias : evt.type = .alias
  · simp only [isAlias, beq_self_eq_true, if_true] at found
    exact (atblLookup_eq_some found).1
  · simp [isAlias] at found

/-! ### Copies have no anchors -/

theorem Tree.anchored_map_copy (tree : Tree Event) :
    (tree.map Event.copy).subtrees.filterMap Tree.anchored = [] := by
  rw [Tree.subtrees_map, List.filterMap_map, List.filterMap_eq_nil_iff]
  intro sub _
  simp [Tree.anchored, Event.copy, Event.anchorName]

/-- Substituting for aliases changes the definitions, not their names. -/
theorem anchoredTrees_bind {f : Event → Tree Event} (trees : List (Tree Event))
    (onLeaf : ∀ a ∈ Tree.leavesList trees, f a = .leaf a ∨
      (a.anchorName = none ∧ (f a).subtrees.filterMap Tree.anchored = [])) :
    anchoredTrees (Tree.bindList f trees) =
      (anchoredTrees trees).map fun d => (d.1, d.2.bind f) := by
  refine Tree.filterMap_subtreesList_bind (fun start children stop => ?_) trees
    fun a member => ?_
  · simp only [Tree.anchored, Tree.bind, Tree.head, Option.map_map]
    rfl
  · rcases onLeaf a member with same | ⟨bare, none⟩
    · cases name : a.anchorName <;>
        simp [same, Tree.subtrees, Tree.anchored, Tree.head, name, Tree.bind]
    · simp [none, Tree.anchored, Tree.head, bare]

mutual

/-- The names of the definitions, read off the events. -/
theorem anchored_names (tree : Tree Event) (shaped : EventTree tree) :
    (tree.subtrees.filterMap Tree.anchored).map (·.1) =
      tree.flatten.filterMap Event.anchorName := by
  cases tree with
  | leaf evt =>
      cases name : evt.anchorName <;>
        simp [Tree.subtrees, Tree.anchored, Tree.head, Tree.flatten, name]
  | node start children stop =>
      obtain ⟨pair, inner⟩ := shaped
      have names := anchored_namesList children inner
      have last := anchorName_of_anchor pair.anchor
      cases name : start.anchorName <;>
        simp [Tree.subtrees, Tree.anchored, Tree.head, Tree.flatten, name, last, ← names,
          anchoredTrees]

theorem anchored_namesList (trees : List (Tree Event)) (shaped : EventTrees trees) :
    (anchoredTrees trees).map (·.1) =
      (Tree.flattenList trees).filterMap Event.anchorName := by
  cases trees with
  | nil => rfl
  | cons tree trees =>
      have first := anchored_names tree shaped.1
      have others := anchored_namesList trees shaped.2
      simp [anchoredTrees, Tree.subtreesList, Tree.flattenList, ← first, ← others]

end

/-! ### The references of a document -/

section Document

variable (trees : List (Tree Event))

/-- The tree an alias is resolved to. -/
def aliasBody (evt : Event) : Option (Tree Event) :=
  let events := Tree.flattenList trees
  if evt.type == .alias then
    (atblLookup (atblBuild events) evt.value).bind fun idx =>
      if (cyclicFlags events (atblBuild events)).getD idx false then none
      else (anchoredTrees trees)[idx]?.map (·.2)
  else none

/-- The references that alias resolution follows. -/
def aliasRefs : RefSystem Event where
  body := aliasBody trees
  copy := Event.copy
  body_copy _ := rfl
  copy_copy _ := rfl

variable {trees}

theorem aliasBody_type {evt : Event} {tree : Tree Event}
    (body : (aliasRefs trees).body evt = some tree) : evt.type = .alias := by
  by_contra other
  simp [aliasRefs, aliasBody, other] at body

/-- What a body says about the tables. -/
theorem aliasBody_eq_some {evt : Event} {tree : Tree Event} :
    (aliasRefs trees).body evt = some tree ↔ evt.type = .alias ∧
      ∃ idx name, atblLookup (atblBuild (Tree.flattenList trees)) evt.value = some idx ∧
        (cyclicFlags (Tree.flattenList trees)
          (atblBuild (Tree.flattenList trees))).getD idx false = false ∧
        (anchoredTrees trees)[idx]? = some (name, tree) := by
  simp only [aliasRefs, aliasBody]
  by_cases isAlias : evt.type = .alias
  · simp only [isAlias, beq_self_eq_true, if_true, true_and]
    cases atblLookup (atblBuild (Tree.flattenList trees)) evt.value with
    | none => simp
    | some idx =>
        cases (cyclicFlags (Tree.flattenList trees)
            (atblBuild (Tree.flattenList trees))).getD idx false with
        | true => simp
        | false => simp
  · simp [isAlias]

theorem bracket_body {start stop : Event} (pair : EventPair start stop) :
    (aliasRefs trees).body start = none ∧ (aliasRefs trees).body stop = none := by
  have notStart : start.type ≠ .alias := fun same => by
    simpa [same, EventType.opens] using pair.opens
  have notStop : stop.type ≠ .alias := fun same => by
    have closes := EventType.closing_closes pair.opens
    rw [← pair.closes, same] at closes
    simp [EventType.closes] at closes
  constructor <;> simp [aliasRefs, aliasBody, *]

theorem alias_not_bracket {evt start stop : Event} (isAlias : evt.type = .alias)
    (pair : EventPair start stop) : evt ≠ start ∧ evt ≠ stop := by
  constructor
  · rintro rfl
    simpa [isAlias, EventType.opens] using pair.opens
  · rintro rfl
    have closes := EventType.closing_closes pair.opens
    rw [← pair.closes, isAlias] at closes
    simp [EventType.closes] at closes

/-- The linear form of a substitution of unfolded aliases. -/
theorem flattenList_bind_expand {f : Event → Tree Event}
    (onBody : ∀ evt, (aliasRefs trees).body evt = none → f evt = .leaf evt)
    (others : List (Tree Event)) (shaped : EventTrees others) :
    Tree.flattenList (Tree.bindList f others) =
      (Tree.flattenList others).flatMap fun evt => (f evt).flatten :=
  Tree.flattenList_bind (fun _ _ => rfl)
    (fun a b pair => by
      simp [onBody a (bracket_body pair).1, onBody b (bracket_body pair).2, Tree.flatten])
    others shaped

variable (shaped : EventTrees trees)
  (distinct : ((anchoredTrees trees).map (·.1)).Nodup)

include shaped

theorem tableOf_self :
    TableOf (Tree.flattenList trees) (atblBuild (Tree.flattenList trees))
      (anchoredTrees trees) :=
  atblBuild_flatten trees shaped

/-- The definitions of a document are its anchored subtrees. -/
theorem defines_iff {name : Bytes} {node : List Event} :
    Defines (Tree.flattenList trees) name node ↔
      ∃ tree, (name, tree) ∈ anchoredTrees trees ∧ node = tree.flatten := by
  constructor
  · rintro ⟨before, tree, after, whole, isTree, named, rfl⟩
    have member : (name, tree.flatten) ∈
        (anchoredTrees trees).map fun d => (d.1, d.2.flatten) := by
      rw [← atblBuild_flatten trees shaped, List.mem_map]
      refine ⟨⟨name, before.length, before.length + tree.flatten.length⟩, ?_, ?_⟩
      · rw [atblBuild, List.mem_filterMap]
        refine ⟨before.length, ?_, ?_⟩
        · have positive := tree.flatten_length_pos
          simp only [List.mem_range, whole, List.length_append]
          omega
        · rw [whole, eventAt_flatten, named, nodeEnd_flatten before tree isTree after]
          rfl
      · simp only
        rw [whole, slice_flatten]
    obtain ⟨⟨other, tree'⟩, inTable, same⟩ := List.mem_map.mp member
    obtain ⟨rfl, flat⟩ := Prod.mk.inj same
    exact ⟨tree', inTable, flat.symm⟩
  · rintro ⟨tree, member, rfl⟩
    obtain ⟨sub, isSub, anchored⟩ := List.mem_filterMap.mp member
    obtain ⟨found, named, same⟩ := Option.map_eq_some_iff.mp anchored
    obtain ⟨rfl, rfl⟩ := Prod.mk.inj same
    obtain ⟨before, after, whole⟩ := Tree.flattenList_of_mem_subtrees trees isSub
    exact ⟨before, sub, after, whole, Tree.ShapedList.subtrees trees shaped sub isSub,
      named, rfl⟩

omit shaped in
include distinct in
theorem index_unique {i k : Nat} {name : Bytes} {left right : Tree Event}
    (atI : (anchoredTrees trees)[i]? = some (name, left))
    (atK : (anchoredTrees trees)[k]? = some (name, right)) : i = k := by
  have within := (List.getElem?_eq_some_iff.mp atI).1
  have same : ((anchoredTrees trees).map (·.1))[i]? =
      ((anchoredTrees trees).map (·.1))[k]? := by simp [atI, atK]
  exact (List.getElem?_inj (by simpa using within) distinct).mp same

include distinct

/-- Looking a name up finds its definition. -/
theorem atblLookup_iff {name : Bytes} {idx : Nat} :
    atblLookup (atblBuild (Tree.flattenList trees)) name = some idx ↔
      ∃ tree, (anchoredTrees trees)[idx]? = some (name, tree) := by
  have table := tableOf_self shaped
  constructor
  · intro found
    obtain ⟨bound, named⟩ := atblLookup_eq_some found
    have within : idx < (anchoredTrees trees).length := table.length ▸ bound
    have here : (anchoredTrees trees)[idx]? = some (anchoredTrees trees)[idx] :=
      List.getElem?_eq_getElem within
    have same := (table.slice_eq here).1
    rw [named] at same
    exact ⟨(anchoredTrees trees)[idx].2, by rw [here, same]⟩
  · rintro ⟨tree, here⟩
    have within := (List.getElem?_eq_some_iff.mp here).1
    have named := (table.slice_eq here).1
    have nodup : ((atblBuild (Tree.flattenList trees)).map (·.name)).Nodup := by
      rw [table.names]
      exact distinct
    have found := atblLookup_of_name nodup idx (table.length ▸ within)
    rwa [named] at found

/-- The targets of an entry are the definitions of the aliases in its node. -/
theorem mem_aliasTargets_iff {i k : Nat} {name : Bytes} {tree : Tree Event}
    (here : (anchoredTrees trees)[i]? = some (name, tree)) :
    k ∈ aliasTargets (Tree.flattenList trees) (atblBuild (Tree.flattenList trees)) i ↔
      ∃ other target, (anchoredTrees trees)[k]? = some (other, target) ∧
        ∃ evt ∈ tree.flatten, evt.type = .alias ∧ evt.value = other := by
  have slices := ((tableOf_self shaped).slice_eq here).2
  simp only [aliasTargets, slices, List.mem_filterMap]
  constructor
  · rintro ⟨evt, member, found⟩
    by_cases isAlias : evt.type = .alias
    · simp only [isAlias, beq_self_eq_true, if_true] at found
      obtain ⟨target, at'⟩ := (atblLookup_iff shaped distinct).mp found
      exact ⟨evt.value, target, at', evt, member, isAlias, rfl⟩
    · simp [isAlias] at found
  · rintro ⟨other, target, at', evt, member, isAlias, rfl⟩
    refine ⟨evt, member, ?_⟩
    simpa [isAlias] using (atblLookup_iff shaped distinct).mpr ⟨target, at'⟩

/-- The table's graph is the document's. -/
theorem reachesCycle_targets {i : Nat} {name : Bytes} {tree : Tree Event}
    (here : (anchoredTrees trees)[i]? = some (name, tree)) :
    ReachesCycle (Targets (aliasTargets (Tree.flattenList trees)
        (atblBuild (Tree.flattenList trees)))) i ↔
      ReachesCycle (RefersTo (Tree.flattenList trees)) name := by
  have nameAt {j : Nat} {n : Bytes} {t : Tree Event}
      (at' : (anchoredTrees trees)[j]? = some (n, t)) :
      ((anchoredTrees trees)[j]?.map (·.1)).getD [] = n := by simp [at']
  rw [← nameAt here]
  refine reachesCycle_iff_of_injection
    (fun j : Nat => ((anchoredTrees trees)[j]?.map (·.1)).getD [])
    (fun j : Nat => ∃ n t, (anchoredTrees trees)[j]? = some (n, t))
    ?_ ?_ ?_ ⟨name, tree, here⟩
  · rintro j k ⟨n, t, atJ⟩ edge
    obtain ⟨other, target, atK, evt, member, isAlias, value⟩ :=
      (mem_aliasTargets_iff shaped distinct atJ).mp edge
    refine ⟨⟨other, target, atK⟩, ?_⟩
    simp only [nameAt atJ, nameAt atK]
    exact ⟨t.flatten, (defines_iff shaped).mpr ⟨t, List.mem_of_getElem? atJ, rfl⟩,
      evt, member, isAlias, value⟩
  · rintro j b c ⟨n, t, atJ⟩ ⟨node, defined, evt, member, isAlias, value⟩
      ⟨next, definedNext, _⟩
    simp only [nameAt atJ] at defined
    obtain ⟨t', inTable, rfl⟩ := (defines_iff shaped).mp defined
    obtain ⟨j', atJ'⟩ := List.getElem?_of_mem inTable
    obtain rfl := index_unique distinct atJ atJ'
    obtain rfl : t = t' := congrArg Prod.snd (Option.some.inj (atJ.symm.trans atJ'))
    obtain ⟨target, inTableNext, _⟩ := (defines_iff shaped).mp definedNext
    obtain ⟨k, atK⟩ := List.getElem?_of_mem inTableNext
    exact ⟨k, ⟨b, target, atK⟩, nameAt atK,
      (mem_aliasTargets_iff shaped distinct atJ).mpr
        ⟨b, target, atK, evt, member, isAlias, value⟩⟩
  · rintro j k ⟨n, t, atJ⟩ ⟨m, u, atK⟩ same
    simp only [nameAt atJ, nameAt atK] at same
    subst same
    exact index_unique distinct atJ atK

/-- An alias is resolved exactly if it is expandable. -/
theorem aliasBody_iff {evt : Event} {node : List Event} :
    (∃ tree, (aliasRefs trees).body evt = some tree ∧ node = tree.flatten) ↔
      Expandable (Tree.flattenList trees) evt node := by
  have flag {idx : Nat} {name : Bytes} {tree : Tree Event}
      (here : (anchoredTrees trees)[idx]? = some (name, tree)) :
      (cyclicFlags (Tree.flattenList trees)
          (atblBuild (Tree.flattenList trees))).getD idx false = false ↔
        ¬ ReachesCycle (RefersTo (Tree.flattenList trees)) name := by
    have within := (List.getElem?_eq_some_iff.mp here).1
    rw [← reachesCycle_targets shaped distinct here,
      ← cyclicFlags_iff aliasTargets_inside
        ((tableOf_self shaped).length ▸ within), Bool.not_eq_true]
  constructor
  · rintro ⟨tree, body, rfl⟩
    obtain ⟨isAlias, idx, name, found, notCyclic, here⟩ := aliasBody_eq_some.mp body
    obtain ⟨tree', here'⟩ := (atblLookup_iff shaped distinct).mp found
    obtain ⟨rfl, rfl⟩ := Prod.mk.inj (Option.some.inj (here.symm.trans here'))
    exact ⟨isAlias,
      (defines_iff shaped).mpr ⟨tree, List.mem_of_getElem? here, rfl⟩,
      (flag here).mp notCyclic⟩
  · rintro ⟨isAlias, defined, acyclic⟩
    obtain ⟨tree, inTable, rfl⟩ := (defines_iff shaped).mp defined
    obtain ⟨idx, here⟩ := List.getElem?_of_mem inTable
    exact ⟨tree, aliasBody_eq_some.mpr ⟨isAlias, idx, evt.value,
      (atblLookup_iff shaped distinct).mpr ⟨tree, here⟩, (flag here).mpr acyclic, here⟩, rfl⟩

theorem not_expandable_of_body {evt : Event}
    (noBody : (aliasRefs trees).body evt = none) (node : List Event) :
    ¬ Expandable (Tree.flattenList trees) evt node := by
  intro expandable
  obtain ⟨tree, body, _⟩ := (aliasBody_iff shaped distinct).mpr expandable
  simp [noBody] at body

omit distinct in
theorem aliasBody_shaped {evt : Event} {tree : Tree Event}
    (body : (aliasRefs trees).body evt = some tree) : EventTree tree := by
  obtain ⟨_, idx, name, _, _, here⟩ := aliasBody_eq_some.mp body
  obtain ⟨sub, isSub, anchored⟩ := List.mem_filterMap.mp (List.mem_of_getElem? here)
  obtain ⟨_, _, same⟩ := Option.map_eq_some_iff.mp anchored
  obtain ⟨_, rfl⟩ := Prod.mk.inj same
  exact Tree.ShapedList.subtrees trees shaped sub isSub

/-! ### Rank -/

omit shaped distinct in
/-- How many definitions the aliases that are resolved can lead to. -/
noncomputable def aliasRank (trees : List (Tree Event)) (evt : Event) : Nat :=
  match atblLookup (atblBuild (Tree.flattenList trees)) evt.value with
  | none => 0
  | some idx =>
      reachCount (Targets (aliasTargets (Tree.flattenList trees)
        (atblBuild (Tree.flattenList trees)))) (anchoredTrees trees).length idx

omit shaped distinct in
theorem aliasRank_le (evt : Event) : aliasRank trees evt ≤ (anchoredTrees trees).length := by
  unfold aliasRank
  split
  · exact Nat.zero_le _
  · exact reachCount_le _ _ _

theorem aliasRank_ranked : (aliasRefs trees).Ranked (aliasRank trees) := by
  intro evt tree body inner member hasBody
  obtain ⟨isAlias, idx, name, found, notCyclic, here⟩ := aliasBody_eq_some.mp body
  obtain ⟨tree', bodyInner⟩ := Option.ne_none_iff_exists'.mp hasBody
  obtain ⟨isAlias', idx', name', found', _, here'⟩ := aliasBody_eq_some.mp bodyInner
  obtain ⟨target, at'⟩ := (atblLookup_iff shaped distinct).mp found'
  have edge : idx' ∈ aliasTargets (Tree.flattenList trees)
      (atblBuild (Tree.flattenList trees)) idx :=
    (mem_aliasTargets_iff shaped distinct here).mpr ⟨inner.value, target, at', inner,
      Tree.mem_flatten_of_mem_leaves tree member, isAlias', rfl⟩
  have within := (List.getElem?_eq_some_iff.mp here).1
  have acyclic : ¬ ReachesCycle (Targets (aliasTargets (Tree.flattenList trees)
      (atblBuild (Tree.flattenList trees)))) idx := by
    rw [← cyclicFlags_iff aliasTargets_inside
      ((tableOf_self shaped).length ▸ within), notCyclic]
    simp
  simp only [aliasRank, found, found']
  exact reachCount_lt within edge acyclic

/-! ### The unfolded list -/

/-- Unfolding deeper than every rank is the recursive unfolding. -/
theorem unfolds_flatMap (n : Nat) (list : List Event)
    (below : ∀ evt ∈ list, (aliasRefs trees).body evt ≠ none → aliasRank trees evt < n) :
    Unfolds (Tree.flattenList trees) list
      (list.flatMap fun evt => ((aliasRefs trees).unfold n evt).flatten) := by
  induction n generalizing list with
  | zero =>
      induction list with
      | nil => exact .nil
      | cons evt rest ih =>
          have noBody : (aliasRefs trees).body evt = none := by
            by_contra hasBody
            exact absurd (below evt (by simp) hasBody) (by omega)
          exact .keep (not_expandable_of_body shaped distinct noBody)
            (ih fun other member => below other (by simp [member]))
  | succ n outer =>
      induction list with
      | nil => exact .nil
      | cons evt rest ih =>
          have tail := ih fun other member => below other (by simp [member])
          cases body : (aliasRefs trees).body evt with
          | none =>
              simp only [List.flatMap_cons, RefSystem.unfold_of_none body, Tree.flatten,
                List.singleton_append]
              exact .keep (not_expandable_of_body shaped distinct body) tail
          | some tree =>
              have isTree := aliasBody_shaped shaped body
              have expandable := (aliasBody_iff shaped distinct).mp ⟨tree, body, rfl⟩
              have rank := below evt (by simp) (by simp [body])
              have node := outer tree.flatten fun inner member hasBody => by
                obtain ⟨tree', bodyInner⟩ := Option.ne_none_iff_exists'.mp hasBody
                have leaf := Tree.mem_leaves_of_mem_flatten
                  (fun b c pair => alias_not_bracket (aliasBody_type bodyInner) pair)
                  tree isTree member
                have lower := aliasRank_ranked shaped distinct evt tree body inner leaf hasBody
                omega
              have flat : ((aliasRefs trees).unfold (n + 1) evt).flatten =
                  (tree.flatten.flatMap fun inner =>
                    ((aliasRefs trees).unfold n inner).flatten).map Event.copy := by
                rw [RefSystem.unfold, RefSystem.expand_of_some body, Tree.flatten_map,
                  Tree.flatten_bind (fun _ _ => rfl) (fun a b pair => by
                    simp [RefSystem.unfold_of_none (bracket_body pair).1,
                      RefSystem.unfold_of_none (bracket_body pair).2, Tree.flatten])
                    tree isTree]
                rfl
              rw [List.flatMap_cons, flat]
              exact .expand expandable node tail

end Document

end Oyl
