import Oyl.Expand.MergeRuleRun
import Oyl.Expand.Unfolded
import Mathlib.Data.List.Nodup

/-!
# Documents whose merges are in order

The condition under which a pass of `resolve_merges` does what the merge rule
says, and one on the document that every pass keeps.
-/

namespace Oyl

/-- A node that a pass walks over: no mapping around it has merge keys. -/
inductive Walked (trees : List (Tree Event)) : Tree Event → Prop
  | root {tree : Tree Event} : tree ∈ trees → Walked trees tree
  | child {tree child : Tree Event} : Walked trees tree → tree.merging = false →
      child ∈ tree.children → Walked trees child

/-- The mappings that each of `n` passes rebuilds are tidy before it. -/
def InOrder : Nat → List (Tree Event) → Prop
  | 0, _ => True
  | n + 1, trees =>
      (∀ tree, Walked trees tree → tree.merging = true →
        ∃ sources, Tidy (definition trees) tree sources) ∧
      ∀ next, passTrees trees = some next → InOrder n next

/-- A node of the document that lies in no merge value. -/
inductive Outside (trees : List (Tree Event)) : Tree Event → Prop
  | root {tree : Tree Event} : tree ∈ trees → Outside trees tree
  | child {tree child : Tree Event} : Outside trees tree →
      tree.head.type ≠ .mappingStart → child ∈ tree.children → Outside trees child
  | key {tree : Tree Event} {pair : Pair} : Outside trees tree →
      tree.head.type = .mappingStart → pair ∈ tree.pairs → mergeKeyed pair = false →
      Outside trees pair.1
  | value {tree : Tree Event} {pair : Pair} : Outside trees tree →
      tree.head.type = .mappingStart → pair ∈ tree.pairs → mergeKeyed pair = false →
      Outside trees pair.2

/-- A name that no rebuilt mapping takes away. -/
def KeptName (trees : List (Tree Event)) (name : Bytes) : Prop :=
  ∃ tree, Outside trees tree ∧ tree.head.anchorName = some name

/-- Every name is defined once, every mapping that merges is tidy, and no definition that one
merges lies in a merge value. -/
structure Orderly (trees : List (Tree Event)) : Prop where
  distinct : ((anchoredTrees trees).map (·.1)).Nodup
  tidy : ∀ tree ∈ Tree.subtreesList trees, tree.merging = true →
    ∃ sources, Tidy (definition trees) tree sources
  kept : ∀ tree ∈ Tree.subtreesList trees, tree.merging = true →
    ∀ candidate ∈ mergeCandidates tree.pairs, candidate.head.type = .alias →
      KeptName trees candidate.head.value

/-! ### Subtrees -/

mutual

theorem children_subtrees {sub child : Tree Event} (tree : Tree Event)
    (member : sub ∈ tree.subtrees) (below : child ∈ sub.children) : child ∈ tree.subtrees := by
  cases tree with
  | leaf evt =>
      rw [List.mem_singleton.mp member] at below
      simp [Tree.children] at below
  | node start children stop =>
      rcases List.mem_cons.mp member with rfl | inner
      · refine List.mem_cons_of_mem _ (mem_subtreesList.mpr ⟨child, below, ?_⟩)
        cases child <;> simp [Tree.subtrees]
      · exact List.mem_cons_of_mem _ (children_subtreesList children inner below)

theorem children_subtreesList {sub child : Tree Event} (trees : List (Tree Event))
    (member : sub ∈ Tree.subtreesList trees) (below : child ∈ sub.children) :
    child ∈ Tree.subtreesList trees := by
  cases trees with
  | nil => simp [Tree.subtreesList] at member
  | cons tree trees =>
      rcases List.mem_append.mp member with first | others
      · exact List.mem_append_left _ (children_subtrees tree first below)
      · exact List.mem_append_right _ (children_subtreesList trees others below)

end

theorem mem_subtrees_self (tree : Tree Event) : tree ∈ tree.subtrees := by
  cases tree <;> simp [Tree.subtrees]

theorem pair_subtreesList {trees : List (Tree Event)} {tree : Tree Event}
    (member : tree ∈ Tree.subtreesList trees) {pair : Pair} (entry : pair ∈ tree.pairs) :
    pair.1 ∈ Tree.subtreesList trees ∧ pair.2 ∈ Tree.subtreesList trees := by
  obtain ⟨left, right⟩ := mem_of_mem_pairsOf entry
  exact ⟨children_subtreesList trees member left, children_subtreesList trees member right⟩

theorem Outside.subtree {trees : List (Tree Event)} {tree : Tree Event}
    (outside : Outside trees tree) : tree ∈ Tree.subtreesList trees := by
  induction outside with
  | root member => exact mem_subtreesList.mpr ⟨_, member, mem_subtrees_self _⟩
  | child _ _ below ih => exact children_subtreesList trees ih below
  | key _ _ entry _ ih => exact (pair_subtreesList ih entry).1
  | value _ _ entry _ ih => exact (pair_subtreesList ih entry).2

theorem Walked.subtree {trees : List (Tree Event)} {tree : Tree Event}
    (reached : Walked trees tree) : tree ∈ Tree.subtreesList trees := by
  induction reached with
  | root member => exact mem_subtreesList.mpr ⟨_, member, mem_subtrees_self _⟩
  | child _ _ below ih => exact children_subtreesList trees ih below

theorem Walked.pair {trees : List (Tree Event)} {tree : Tree Event} (reached : Walked trees tree)
    (plain : tree.merging = false) {pair : Pair} (entry : pair ∈ tree.pairs) :
    Walked trees pair.1 ∧ Walked trees pair.2 := by
  obtain ⟨left, right⟩ := mem_of_mem_pairsOf entry
  exact ⟨.child reached plain left, .child reached plain right⟩

theorem source_subtree {trees : List (Tree Event)} {tree : Tree Event}
    (member : tree ∈ Tree.subtreesList trees) {sources : List (Tree Event)}
    (found : sourcesOf (definition trees) tree.pairs = some sources) {source : Tree Event}
    (among : source ∈ sources) : source ∈ Tree.subtreesList trees := by
  obtain ⟨pair, entry, _, candidate, inValue, stands⟩ := mem_sourcesOf found among
  rcases (sourceOf_eq_some stands).2 with rfl | ⟨_, defined⟩
  · have value := (pair_subtreesList member entry).2
    rcases mem_candidates inValue with same | below
    · exact same ▸ value
    · exact children_subtreesList trees value below
  · exact (mem_anchoredTrees.mp (definition_mem defined)).1

/-! ### Definitions that stay -/

theorem definition_of_mem {trees : List (Tree Event)}
    (distinct : ((anchoredTrees trees).map (·.1)).Nodup) {name : Bytes} {tree : Tree Event}
    (member : (name, tree) ∈ anchoredTrees trees) : definition trees name = some tree := by
  cases found : definition trees name with
  | none =>
      rw [definition, Option.map_eq_none_iff, List.find?_eq_none] at found
      exact absurd (by simp) (found (name, tree) (List.mem_reverse.mpr member))
  | some other =>
      have known := definition_mem found
      have same := List.inj_on_of_nodup_map distinct known member rfl
      rw [(Prod.mk.inj same).2]

/-- An explicit entry of a mapping that is passed. -/
theorem pair_pass {trees : List (Tree Event)} {tree tree' : Tree Event}
    (reached : Walked trees tree) (passed : mergeTree (definition trees) tree = some tree')
    {pair : Pair} (entry : pair ∈ tree.pairs) (explicit : mergeKeyed pair = false) :
    ∃ pair' ∈ tree'.pairs, mergeKeyed pair' = false ∧
      (pair'.1 = pair.1 ∨ Walked trees pair.1 ∧
        mergeTree (definition trees) pair.1 = some pair'.1) ∧
      (pair'.2 = pair.2 ∨ Walked trees pair.2 ∧
        mergeTree (definition trees) pair.2 = some pair'.2) := by
  cases merging : tree.merging with
  | false =>
      obtain ⟨pair', entry', head, value⟩ :=
        Forall₂.mem_left (forall₂_pairsOf (mergeTree_plain passed merging)) entry
      obtain ⟨left, right⟩ := reached.pair merging entry
      refine ⟨pair', entry', ?_, .inr ⟨left, head⟩, .inr ⟨right, value⟩⟩
      rw [mergeKeyed, head_mergeTree head]
      exact explicit
  | true =>
      obtain ⟨sources, _, merged⟩ := Option.map_eq_some_iff.mp (mergeTree_merging passed merging)
      refine ⟨pair, ?_, explicit, .inl rfl, .inl rfl⟩
      rw [← merged]
      exact List.mem_append_left _ (by simp [entry, explicit])

section

variable {trees trees' : List (Tree Event)} (ok : passTrees trees = some trees')

include ok

/-- A node outside of merge values stays, or is passed. -/
theorem Outside.pass {tree : Tree Event} (outside : Outside trees tree) :
    ∃ tree', Outside trees' tree' ∧
      (tree' = tree ∨ Walked trees tree ∧ mergeTree (definition trees) tree = some tree') := by
  induction outside with
  | @root tree member =>
      obtain ⟨tree', among, passed⟩ := Forall₂.mem_left (mergeTrees_forall₂ ok) member
      exact ⟨tree', .root among, .inr ⟨.root member, passed⟩⟩
  | @child tree child _ notMap below ih =>
      obtain ⟨tree', outside', rfl | ⟨reached, passed⟩⟩ := ih
      · exact ⟨child, .child outside' notMap below, .inl rfl⟩
      · have plain : tree.merging = false := by simp [Tree.merging, notMap]
        obtain ⟨child', among, passed'⟩ := Forall₂.mem_left (mergeTree_plain passed plain) below
        exact ⟨child', .child outside' (by rw [head_mergeTree passed]; exact notMap) among,
          .inr ⟨.child reached plain below, passed'⟩⟩
  | @key tree pair _ isMap entry explicit ih =>
      obtain ⟨tree', outside', rfl | ⟨reached, passed⟩⟩ := ih
      · exact ⟨pair.1, .key outside' isMap entry explicit, .inl rfl⟩
      · obtain ⟨pair', entry', explicit', head, _⟩ := pair_pass reached passed entry explicit
        exact ⟨pair'.1, .key outside' (by rw [head_mergeTree passed]; exact isMap) entry'
          explicit', head⟩
  | @value tree pair _ isMap entry explicit ih =>
      obtain ⟨tree', outside', rfl | ⟨reached, passed⟩⟩ := ih
      · exact ⟨pair.2, .value outside' isMap entry explicit, .inl rfl⟩
      · obtain ⟨pair', entry', explicit', _, value⟩ := pair_pass reached passed entry explicit
        exact ⟨pair'.2, .value outside' (by rw [head_mergeTree passed]; exact isMap) entry'
          explicit', value⟩

theorem KeptName.pass {name : Bytes} (kept : KeptName trees name) : KeptName trees' name := by
  obtain ⟨tree, outside, named⟩ := kept
  obtain ⟨tree', outside', rfl | ⟨_, passed⟩⟩ := outside.pass ok
  · exact ⟨tree', outside', named⟩
  · exact ⟨tree', outside', by rw [head_mergeTree passed]; exact named⟩

end

theorem flattenPairs_explicit (children : List (Tree Event)) :
    (flattenPairs (explicitPairs (pairsOf children))).Sublist (Tree.flattenList children) := by
  induction children using pairsOf_induction with
  | pair key value rest ih =>
      have whole : Tree.flattenList (key :: value :: rest) =
          (key.flatten ++ value.flatten) ++ Tree.flattenList rest := by simp [Tree.flattenList]
      rw [pairsOf, whole, explicitPairs, List.filter_cons]
      split
      · rw [flattenPairs_cons]
        exact List.Sublist.append_left ih _
      · exact ih.trans (List.sublist_append_right _ _)
  | nil => simp [pairsOf, explicitPairs, flattenPairs, unpair, Tree.flattenList]
  | single tree => simp [pairsOf, explicitPairs, flattenPairs, unpair, Tree.flattenList]

theorem anchorNames_copy (events : List Event) :
    (events.map Event.copy).filterMap Event.anchorName = [] := by
  rw [List.filterMap_eq_nil_iff]
  intro evt member
  obtain ⟨original, _, rfl⟩ := List.mem_map.mp member
  rfl

section

variable {latest : Bytes → Option (Tree Event)}

mutual

/-- A pass leaves some of the anchors, in order. -/
theorem anchorNames_mergeTree (tree : Tree Event) {tree' : Tree Event}
    (ok : mergeTree latest tree = some tree') :
    (tree'.flatten.filterMap Event.anchorName).Sublist
      (tree.flatten.filterMap Event.anchorName) := by
  cases tree with
  | leaf evt =>
      obtain rfl : Tree.leaf evt = tree' := by simpa [mergeTree] using ok
      exact List.Sublist.refl _
  | node start children stop =>
      have around (inner inner' : List Event)
          (less : (inner'.filterMap Event.anchorName).Sublist
            (inner.filterMap Event.anchorName)) :
          ((start :: (inner' ++ [stop])).filterMap Event.anchorName).Sublist
            ((start :: (inner ++ [stop])).filterMap Event.anchorName) := by
        have split (list : List Event) :
            (start :: (list ++ [stop])).filterMap Event.anchorName =
              [start].filterMap Event.anchorName ++
                (list.filterMap Event.anchorName ++ [stop].filterMap Event.anchorName) := by
          rw [← List.filterMap_append, ← List.filterMap_append]
          rfl
        rw [split, split]
        exact List.Sublist.append_left (List.Sublist.append_right less _) _
      rw [mergeTree] at ok
      split at ok
      · obtain ⟨pairs, merged, rfl⟩ := Option.map_eq_some_iff.mp ok
        obtain ⟨sources, _, rfl⟩ := Option.map_eq_some_iff.mp merged
        refine around _ _ ?_
        have split := flattenPairs_append (explicitPairs (pairsOf children))
          (inherited (explicitPairs (pairsOf children)) sources)
        rw [flattenPairs] at split
        rw [show ((pairsOf children).filter fun pair => !mergeKeyed pair) =
          explicitPairs (pairsOf children) from rfl, split, List.filterMap_append, inherited,
          flattenPairs_copy, anchorNames_copy, List.append_nil]
        exact (flattenPairs_explicit children).filterMap _
      · obtain ⟨children', merged, rfl⟩ := Option.map_eq_some_iff.mp ok
        exact around _ _ (anchorNames_mergeTrees children merged)

theorem anchorNames_mergeTrees (trees : List (Tree Event)) {trees' : List (Tree Event)}
    (ok : mergeTrees latest trees = some trees') :
    ((Tree.flattenList trees').filterMap Event.anchorName).Sublist
      ((Tree.flattenList trees).filterMap Event.anchorName) := by
  cases trees with
  | nil =>
      obtain rfl : [] = trees' := by simpa [mergeTrees] using ok
      exact List.Sublist.refl _
  | cons tree trees =>
      rw [mergeTrees] at ok
      obtain ⟨first, head, others⟩ := Option.bind_eq_some_iff.mp ok
      obtain ⟨rest, tail, rfl⟩ := Option.map_eq_some_iff.mp others
      rw [Tree.flattenList, Tree.flattenList, List.filterMap_append, List.filterMap_append]
      exact (anchorNames_mergeTree tree head).append (anchorNames_mergeTrees trees tail)

end

end

section

variable {events : List Event} {trees trees' : List (Tree Event)}
  (forest : Forest events trees) (ok : passTrees trees = some trees')

include forest ok

theorem distinct_pass (distinct : ((anchoredTrees trees).map (·.1)).Nodup) :
    ((anchoredTrees trees').map (·.1)).Nodup := by
  rw [anchored_namesList trees' (forest.passTrees ok).shaped]
  rw [anchored_namesList trees forest.shaped] at distinct
  exact distinct.sublist (anchorNames_mergeTrees trees ok)

/-- Kept definitions are found again after the pass. -/
theorem Orderly.follows (orderly : Orderly trees) :
    Follows (definition trees) (definition trees') (Walked trees) (KeptName trees) := by
  intro name tree kept defined
  obtain ⟨tree', outside, named⟩ := kept
  have member : (name, tree') ∈ anchoredTrees trees :=
    mem_anchoredTrees.mpr ⟨outside.subtree, named⟩
  have same := definition_of_mem orderly.distinct member
  cases defined.symm.trans same
  have distinct' := distinct_pass forest ok orderly.distinct
  obtain ⟨grown, outside', rfl | ⟨reached, passed⟩⟩ := outside.pass ok
  · exact ⟨grown, definition_of_mem distinct' (mem_anchoredTrees.mpr ⟨outside'.subtree, named⟩),
      .skipped grown⟩
  · have named' : grown.head.anchorName = some name := by
      rw [head_mergeTree passed]
      exact named
    exact ⟨grown, definition_of_mem distinct' (mem_anchoredTrees.mpr ⟨outside'.subtree, named'⟩),
      .passed reached passed⟩

end

/-! ### Where the nodes come from -/

mutual

theorem subtrees_of_closed {P : Tree Event → Prop}
    (down : ∀ tree, P tree → ∀ child ∈ tree.children, P child) (tree : Tree Event)
    (here : P tree) : ∀ sub ∈ tree.subtrees, P sub := by
  cases tree with
  | leaf evt =>
      intro sub member
      rw [List.mem_singleton.mp member]
      exact here
  | node start children stop =>
      intro sub member
      rcases List.mem_cons.mp member with rfl | inner
      · exact here
      · exact subtreesList_of_closed down children (down _ here) sub inner

theorem subtreesList_of_closed {P : Tree Event → Prop}
    (down : ∀ tree, P tree → ∀ child ∈ tree.children, P child) (trees : List (Tree Event))
    (here : ∀ tree ∈ trees, P tree) : ∀ sub ∈ Tree.subtreesList trees, P sub := by
  cases trees with
  | nil => simp [Tree.subtreesList]
  | cons tree trees =>
      intro sub member
      rcases List.mem_append.mp member with first | others
      · exact subtrees_of_closed down tree (here tree List.mem_cons_self) sub first
      · exact subtreesList_of_closed down trees
          (fun t among => here t (List.mem_cons_of_mem _ among)) sub others

end

theorem subtrees_subtreesList {trees : List (Tree Event)} {tree sub : Tree Event}
    (member : tree ∈ Tree.subtreesList trees) (below : sub ∈ tree.subtrees) :
    sub ∈ Tree.subtreesList trees :=
  subtrees_of_closed (fun _ inside _ child => children_subtreesList trees inside child) tree
    member sub below

section

variable {doc : List (Tree Event)}

mutual

/-- Every node after a pass is one from before, left, copied or passed. -/
theorem origin_mergeTree (tree : Tree Event) (reached : Walked doc tree)
    {tree' : Tree Event} (ok : mergeTree (definition doc) tree = some tree') :
    ∀ sub' ∈ tree'.subtrees, ∃ sub ∈ Tree.subtreesList doc,
      Grows (definition doc) (Walked doc) sub sub' := by
  have inside := reached.subtree
  intro sub' member
  cases tree with
  | leaf evt =>
      obtain rfl : Tree.leaf evt = tree' := by simpa [mergeTree] using ok
      exact ⟨sub', subtrees_subtreesList inside member, .skipped sub'⟩
  | node start children stop =>
      have whole := ok
      rw [mergeTree] at ok
      split at ok
      · obtain ⟨pairs, merged, rfl⟩ := Option.map_eq_some_iff.mp ok
        rcases List.mem_cons.mp member with rfl | inner
        · exact ⟨_, inside, .passed reached whole⟩
        · obtain ⟨child', among, deeper⟩ := mem_subtreesList.mp inner
          obtain ⟨pair, entry, which⟩ := mem_unpair.mp among
          have both (holder : Tree Event) (holds : holder ∈ Tree.subtreesList doc)
              (original : Pair) (here : original ∈ holder.pairs) :
              original.1 ∈ Tree.subtreesList doc ∧ original.2 ∈ Tree.subtreesList doc :=
            pair_subtreesList holds here
          rcases mem_mergedPairs merged entry with
            ⟨own, _⟩ | ⟨sources, found, source, fromSources, original, here, rfl⟩
          · obtain ⟨left, right⟩ := both _ inside pair own
            have child : child' ∈ Tree.subtreesList doc := by
              rcases which with rfl | rfl
              · exact left
              · exact right
            exact ⟨sub', subtrees_subtreesList child deeper, .skipped sub'⟩
          · obtain ⟨left, right⟩ :=
              both _ (source_subtree inside found fromSources) original here
            have copied (node : Tree Event) (from' : node ∈ Tree.subtreesList doc)
                (same : child' = node.map Event.copy) :
                ∃ sub ∈ Tree.subtreesList doc, Grows (definition doc) (Walked doc) sub sub' := by
              rw [same, Tree.subtrees_map] at deeper
              obtain ⟨sub, below, rfl⟩ := List.mem_map.mp deeper
              exact ⟨sub, subtrees_subtreesList from' below, .copied sub⟩
            rcases which with same | same
            · exact copied original.1 left same
            · exact copied original.2 right same
      · rename_i plain
        obtain ⟨children', merged, rfl⟩ := Option.map_eq_some_iff.mp ok
        rcases List.mem_cons.mp member with rfl | inner
        · exact ⟨_, inside, .passed reached whole⟩
        · exact origin_mergeTrees children
            (fun child below => .child reached (Bool.eq_false_iff.mpr plain) below)
            merged sub' inner

theorem origin_mergeTrees (trees : List (Tree Event))
    (reached : ∀ tree ∈ trees, Walked doc tree) {trees' : List (Tree Event)}
    (ok : mergeTrees (definition doc) trees = some trees') :
    ∀ sub' ∈ Tree.subtreesList trees', ∃ sub ∈ Tree.subtreesList doc,
      Grows (definition doc) (Walked doc) sub sub' := by
  intro sub' member
  cases trees with
  | nil =>
      obtain rfl : [] = trees' := by simpa [mergeTrees] using ok
      simp [Tree.subtreesList] at member
  | cons tree trees =>
      rw [mergeTrees] at ok
      obtain ⟨first, head, others⟩ := Option.bind_eq_some_iff.mp ok
      obtain ⟨rest, tail, rfl⟩ := Option.map_eq_some_iff.mp others
      rcases List.mem_append.mp member with left | right
      · exact origin_mergeTree tree (reached tree List.mem_cons_self) head sub' left
      · exact origin_mergeTrees trees
          (fun t among => reached t (List.mem_cons_of_mem _ among)) tail sub' right

end

end

/-- The definitions after a pass come from those before it. -/
theorem comesFrom_pass {trees trees' : List (Tree Event)}
    (distinct : ((anchoredTrees trees).map (·.1)).Nodup) (ok : passTrees trees = some trees') :
    ComesFrom (definition trees) (definition trees') (Walked trees) := by
  intro name tree' defined
  obtain ⟨member, named⟩ := mem_anchoredTrees.mp (definition_mem defined)
  obtain ⟨tree, inside, grows⟩ := origin_mergeTrees trees (fun _ => .root) ok tree' member
  have same : tree'.head = tree.head := by
    cases grows with
    | skipped => rfl
    | copied =>
        rw [Tree.head_map] at named
        cases named
    | passed _ passed => exact head_mergeTree passed
  rw [same] at named
  exact ⟨tree, definition_of_mem distinct (mem_anchoredTrees.mpr ⟨inside, named⟩), grows⟩

/-! ### Tidiness after a pass -/

theorem forall₂_getLast? {α β : Type} {R : α → β → Prop} {left : List α} {right : List β}
    (all : List.Forall₂ R left right) {b : β} (last : right.getLast? = some b) :
    ∃ a, left.getLast? = some a ∧ R a b := by
  induction all with
  | nil => simp at last
  | @cons a b' left right head rest ih =>
      cases rest with
      | nil =>
          obtain rfl : b' = b := by simpa using last
          exact ⟨a, rfl, head⟩
      | cons next others =>
          obtain ⟨c, found, related⟩ := ih (by simpa using last)
          exact ⟨c, by simpa using found, related⟩

theorem forall₂_dropLast {α β : Type} {R : α → β → Prop} {left : List α} {right : List β}
    (all : List.Forall₂ R left right) : List.Forall₂ R left.dropLast right.dropLast := by
  rw [List.dropLast_eq_take, List.dropLast_eq_take, all.length_eq]
  exact List.forall₂_take _ all

section

variable {latest : Bytes → Option (Tree Event)} {walked : Tree Event → Prop}

/-- A source that merges has one merge key after a pass if it had one before. -/
theorem single_grows (tidyWalk : TidyWalk latest walked) {source source' : Tree Event}
    (grows : Grows latest walked source source') (merges : source'.merging = true)
    (single : (source.pairs.filter mergeKeyed).length = 1) :
    (source'.pairs.filter mergeKeyed).length = 1 := by
  cases grows with
  | skipped => exact single
  | copied => rw [pairs_map_copy, filter_keyed_copy, List.length_map, single]
  | passed reached ok =>
      have merging : source.merging = true := by
        by_contra plain
        rw [(Evolves.passed ok).not_merging (by simpa using plain)] at merges
        cases merges
      obtain ⟨sources, tidy⟩ := tidyWalk.tidy source reached merging
      rcases tidy.last with plain | ⟨front, last, pair, rfl, plain, merges', single'⟩
      · rw [tidy.rebuilt_plain ok merging plain] at merges
        cases merges
      · rw [tidy.rebuilt_keyed ok merging plain merges' single']
        rfl

/-- No key of a rebuilt mapping hides the merge key it got. -/
theorem Tidy.rebuilt_fresh {tree tree' source : Tree Event} {front : List (Tree Event)}
    (tidy : Tidy latest tree (front ++ [source])) (ok : mergeTree latest tree = some tree')
    (merging : tree.merging = true) (plain : ∀ other ∈ front, other.merging = false)
    (merges : source.merging = true) :
    mergeText ∉ keyTexts (explicitPairs tree'.pairs) := by
  obtain ⟨own, others⟩ := tidy.fresh source (by simp) merges
  have types := source_types tidy.found
  rw [tidy.rebuilt_explicit ok merging plain merges, mem_keyTexts_rebuilt, mem_seenAfter,
    keyTexts_append, List.mem_append]
  rintro (here | before | last)
  · exact own here
  · rw [← flatMap_plain (fun s member => types s (List.mem_append_left _ member)) plain] at before
    obtain ⟨pair, entry, text⟩ := List.mem_filterMap.mp before
    obtain ⟨inFront, explicit⟩ := List.mem_filter.mp entry
    obtain ⟨other, among, inside⟩ := List.mem_flatMap.mp inFront
    exact others other (List.mem_append_left _ among)
      (List.mem_filterMap.mpr ⟨pair, List.mem_filter.mpr ⟨inside, explicit⟩, text⟩)
  · exact others source (by simp) last

/-- The explicit keys of a source after a pass still do not hide a merge key. -/
theorem fresh_grows (tidyWalk : TidyWalk latest walked) {source source' : Tree Event}
    (grows : Grows latest walked source source')
    (fresh : mergeText ∉ keyTexts (explicitPairs source.pairs))
    (same : source.merging = true → source'.merging = true) :
    mergeText ∉ keyTexts (explicitPairs source'.pairs) := by
  cases merging : source.merging with
  | false =>
      rw [keyTexts_evolves (explicit_evolves (grows.pairs_plain tidyWalk merging))]
      exact fresh
  | true =>
      cases grows with
      | skipped => exact fresh
      | copied =>
          rw [pairs_map_copy, explicitPairs_copy, keyTexts_copy]
          exact fresh
      | passed reached ok =>
          obtain ⟨sources, tidy⟩ := tidyWalk.tidy source reached merging
          rcases tidy.last with plain | ⟨front, last, pair, rfl, plain, merges, single⟩
          · have plain' := tidy.rebuilt_plain ok merging plain
            rw [same merging] at plain'
            cases plain'
          · exact tidy.rebuilt_fresh ok merging plain merges

/-- The sources of a tidy mapping, each after a pass, are in order again. -/
theorem Tidy.sources_after (tidyWalk : TidyWalk latest walked) {tree : Tree Event}
    {sources sources' : List (Tree Event)} (tidy : Tidy latest tree sources)
    (grow : List.Forall₂ (Grows latest walked) sources sources') :
    (∀ source' ∈ sources'.dropLast, source'.merging = false) ∧
    ∀ source', sources'.getLast? = some source' → source'.merging = true →
      (source'.pairs.filter mergeKeyed).length = 1 ∧
      mergeText ∉ keyTexts (explicitPairs tree.pairs) ∧
      ∀ other' ∈ sources', mergeText ∉ keyTexts (explicitPairs other'.pairs) := by
  have front (other' : Tree Event) (member : other' ∈ sources'.dropLast) :
      ∃ other ∈ sources.dropLast, Grows latest walked other other' :=
    Forall₂.mem_right (forall₂_dropLast grow) member
  refine ⟨fun source' member => ?_, fun source' last merges' => ?_⟩
  · obtain ⟨source, before, grows⟩ := front source' member
    exact grows.evolves.not_merging (tidy.plain source before)
  · obtain ⟨source, last', grows⟩ := forall₂_getLast? grow last
    have merges : source.merging = true := by
      by_contra plain
      rw [grows.evolves.not_merging (by simpa using plain)] at merges'
      cases merges'
    obtain ⟨own, others⟩ := tidy.fresh source last' merges
    have among := List.mem_of_getLast? last'
    refine ⟨single_grows tidyWalk grows merges' (tidy.single source last' merges), own,
      fun other' member => ?_⟩
    rw [← List.dropLast_append_getLast? source' last, List.mem_append, List.mem_singleton]
      at member
    rcases member with before | rfl
    · obtain ⟨other, inFront, grown⟩ := front other' before
      have here := List.mem_of_mem_dropLast inFront
      refine fresh_grows tidyWalk grown (others other here) fun merging => ?_
      rw [tidy.plain other inFront] at merging
      cases merging
    · exact fresh_grows tidyWalk grows (others source among) fun _ => merges'

end

theorem Orderly.tidyWalk {trees : List (Tree Event)} (orderly : Orderly trees) :
    TidyWalk (definition trees) (Walked trees) where
  child _ reached plain _ below := .child reached plain below
  tidy tree reached := orderly.tidy tree reached.subtree

/-- A pass keeps a document's merges in order. -/
theorem Orderly.pass {events : List Event} {trees trees' : List (Tree Event)}
    (forest : Forest events trees) (ok : passTrees trees = some trees')
    (orderly : Orderly trees) : Orderly trees' := by
  have tidyWalk := orderly.tidyWalk
  have follows := orderly.follows forest ok
  -- what the two conditions say of a mapping after the pass
  have after (tree' : Tree Event) (member' : tree' ∈ Tree.subtreesList trees')
      (merging' : tree'.merging = true) :
      (∃ sources, Tidy (definition trees') tree' sources) ∧
        ∀ candidate ∈ mergeCandidates tree'.pairs, candidate.head.type = .alias →
          KeptName trees' candidate.head.value := by
    obtain ⟨tree, member, grows⟩ := origin_mergeTrees trees (fun _ => .root) ok tree' member'
    have merging : tree.merging = true := by
      by_contra plain
      rw [grows.evolves.not_merging (by simpa using plain)] at merging'
      cases merging'
    obtain ⟨sources, tidy⟩ := orderly.tidy tree member merging
    have kept := orderly.kept tree member merging
    cases grows with
    | skipped =>
        obtain ⟨sources', found, grow⟩ := sources_grow follows
          (List.forall₂_same.mpr fun c _ => .skipped c) kept tidy.found
        obtain ⟨plain, last⟩ := tidy.sources_after tidyWalk grow
        exact ⟨⟨sources', found, plain, fun s at' merges => (last s at' merges).1,
          fun s at' merges => (last s at' merges).2⟩,
          fun c inValue isAlias => (kept c inValue isAlias).pass ok⟩
    | copied =>
        obtain ⟨sources', found, grow⟩ :=
          sources_grow follows (candidates_copied tree) kept tidy.found
        obtain ⟨plain, last⟩ := tidy.sources_after tidyWalk grow
        refine ⟨⟨sources', found, plain, fun s at' merges => (last s at' merges).1,
          fun s at' merges => ?_⟩, fun c inValue isAlias => ?_⟩
        · rw [pairs_map_copy, explicitPairs_copy, keyTexts_copy]
          exact (last s at' merges).2
        · rw [pairs_map_copy, mergeCandidates_copy] at inValue
          obtain ⟨original, here, rfl⟩ := List.mem_map.mp inValue
          rw [Tree.head_map] at isAlias ⊢
          exact (kept original here isAlias).pass ok
    | passed _ passed =>
        rcases tidy.last with plain | ⟨front, source, pair, rfl, plain, merges, single⟩
        · rw [tidy.rebuilt_plain passed merging plain] at merging'
          cases merging'
        · have here := source_subtree member tidy.found (List.mem_append_right front
            (List.mem_singleton.mpr rfl))
          obtain ⟨deeper, tidySource⟩ := orderly.tidy source here merges
          have keptSource := orderly.kept source here merges
          obtain ⟨sources', found, grow⟩ :=
            sources_grow follows (candidates_copied source) keptSource tidySource.found
          have candidates' := tidy.rebuilt_candidates passed merging plain merges single
          obtain ⟨plain', last⟩ := tidySource.sources_after tidyWalk grow
          refine ⟨⟨sources', ?_, plain', fun s at' merges' => (last s at' merges').1,
            fun s at' merges' =>
              ⟨tidy.rebuilt_fresh passed merging plain merges, (last s at' merges').2.2⟩⟩,
            fun c inValue isAlias => ?_⟩
          · rw [pairs_map_copy, mergeCandidates_copy] at found
            rw [sourcesOf_eq, candidates', found]
          · rw [candidates'] at inValue
            obtain ⟨original, inSource, rfl⟩ := List.mem_map.mp inValue
            rw [Tree.head_map] at isAlias ⊢
            exact (keptSource original inSource isAlias).pass ok
  exact ⟨distinct_pass forest ok orderly.distinct,
    fun tree' member' merging' => (after tree' member' merging').1,
    fun tree' member' merging' => (after tree' member' merging').2⟩

/-- In a document in order every pass rebuilds tidy mappings. -/
theorem Orderly.inOrder {events : List Event} {trees : List (Tree Event)}
    (forest : Forest events trees) (orderly : Orderly trees) (n : Nat) : InOrder n trees := by
  induction n generalizing events trees with
  | zero => exact trivial
  | succ n ih =>
      exact ⟨fun tree reached => orderly.tidy tree reached.subtree,
        fun _ ok => ih (forest.passTrees ok) (orderly.pass forest ok)⟩

/-! ### Expansion -/

section

variable {doc : List (Tree Event)}

mutual

theorem mergeTree_some (tree : Tree Event) (reached : Walked doc tree)
    (tidy : ∀ tree, Walked doc tree → tree.merging = true →
      ∃ sources, Tidy (definition doc) tree sources) :
    ∃ tree', mergeTree (definition doc) tree = some tree' := by
  cases tree with
  | leaf evt => exact ⟨.leaf evt, rfl⟩
  | node start children stop =>
      rw [mergeTree]
      by_cases merging :
          (start.type == .mappingStart && (pairsOf children).any mergeKeyed) = true
      · obtain ⟨sources, isTidy⟩ := tidy _ reached merging
        have found : sourcesOf (definition doc) (pairsOf children) = some sources := isTidy.found
        rw [if_pos merging, mergedPairs, found]
        exact ⟨_, rfl⟩
      · obtain ⟨children', merged⟩ := mergeTrees_some children
          (fun child below => .child reached (Bool.eq_false_iff.mpr merging) below) tidy
        rw [if_neg merging, merged]
        exact ⟨_, rfl⟩

theorem mergeTrees_some (trees : List (Tree Event)) (reached : ∀ tree ∈ trees, Walked doc tree)
    (tidy : ∀ tree, Walked doc tree → tree.merging = true →
      ∃ sources, Tidy (definition doc) tree sources) :
    ∃ trees', mergeTrees (definition doc) trees = some trees' := by
  cases trees with
  | nil => exact ⟨[], rfl⟩
  | cons tree trees =>
      obtain ⟨first, head⟩ := mergeTree_some tree (reached tree List.mem_cons_self) tidy
      obtain ⟨rest, tail⟩ := mergeTrees_some trees
        (fun tree member => reached tree (List.mem_cons_of_mem _ member)) tidy
      rw [mergeTrees, head, tail]
      exact ⟨_, rfl⟩

end

end

/-- A pass over a document succeeds where the mappings that it rebuilds are tidy, and keeps
what the rule makes of it. -/
theorem passTrees_tidy {trees : List (Tree Event)}
    (distinct : ((anchoredTrees trees).map (·.1)).Nodup)
    (tidyWalk : TidyWalk (definition trees) (Walked trees)) :
    ∃ next, passTrees trees = some next ∧ ∀ full, MergedTrees (definition next) next full →
      MergedTrees (definition trees) trees full := by
  obtain ⟨next, ok⟩ := mergeTrees_some trees (fun _ => .root) tidyWalk.tidy
  refine ⟨next, ok, fun full merged => ?_⟩
  refine MergedTrees.back (comesFrom_pass distinct ok) tidyWalk ?_ merged
  have roots : ∀ tree ∈ trees, Walked trees tree := fun _ => .root
  exact ((List.forall₂_and_left _ _).mpr ⟨roots, mergeTrees_forall₂ ok⟩).imp
    fun _ _ both => .passed both.1 both.2

/-- Passes that rebuild tidy mappings succeed and keep what the rule makes of the
document. -/
theorem InOrder.passes {events : List Event} {trees : List (Tree Event)} {n : Nat}
    (forest : Forest events trees) (distinct : ((anchoredTrees trees).map (·.1)).Nodup)
    (inOrder : InOrder n trees) :
    ∃ trees', passes n trees = some trees' ∧
      ∀ full, MergedTrees (definition trees') trees' full →
        MergedTrees (definition trees) trees full := by
  induction n generalizing events trees with
  | zero => exact ⟨trees, rfl, fun _ merged => merged⟩
  | succ n ih =>
      obtain ⟨tidy, later⟩ := inOrder
      obtain ⟨next, ok, back⟩ :=
        passTrees_tidy distinct ⟨fun _ reached plain _ below => .child reached plain below, tidy⟩
      obtain ⟨last, rest, backRest⟩ :=
        ih (forest.passTrees ok) (distinct_pass forest ok distinct) (later next ok)
      exact ⟨last, by rw [Oyl.passes, ok, Option.bind_some, rest],
        fun full merged => back full (backRest full merged)⟩

def scalarNode (text : String) : Tree Event :=
  .leaf { type := .scalar, value := ascii text }

end Oyl
