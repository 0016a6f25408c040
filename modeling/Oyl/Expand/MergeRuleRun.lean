import Oyl.Expand.MergeRulePass

/-!
# Merge expansion is the merge rule

What the merge rule makes of a document after a pass is what it makes of it
before, so after the last pass the document is what the rule says.
-/

namespace Oyl

/-- The trees that a pass walks over, where the mappings that it rebuilds are tidy. -/
structure TidyWalk (latest : Bytes → Option (Tree Event)) (walked : Tree Event → Prop) : Prop where
  child : ∀ tree, walked tree → tree.merging = false → ∀ child ∈ tree.children, walked child
  tidy : ∀ tree, walked tree → tree.merging = true → ∃ sources, Tidy latest tree sources

section

variable {latest latest' : Bytes → Option (Tree Event)} {walked : Tree Event → Prop}

theorem TidyWalk.pair (tidyWalk : TidyWalk latest walked) {tree : Tree Event}
    (reached : walked tree) (plain : tree.merging = false) {pair : Pair}
    (entry : pair ∈ tree.pairs) : walked pair.1 ∧ walked pair.2 := by
  obtain ⟨left, right⟩ := mem_of_mem_pairsOf entry
  exact ⟨tidyWalk.child tree reached plain _ left, tidyWalk.child tree reached plain _ right⟩

theorem Grows.pairs_plain (tidyWalk : TidyWalk latest walked) {tree tree' : Tree Event}
    (grows : Grows latest walked tree tree') (plain : tree.merging = false) :
    List.Forall₂ (GrowsPair latest walked) tree.pairs tree'.pairs := by
  cases grows with
  | skipped => exact List.forall₂_same.mpr fun pair _ => growsPair_refl pair
  | copied =>
      rw [pairs_map_copy]
      exact List.forall₂_map_right_iff.mpr
        (List.forall₂_same.mpr fun pair _ => growsPair_copy pair)
  | passed reached ok =>
      have walks : ∀ pair ∈ tree.pairs, walked pair.1 ∧ walked pair.2 :=
        fun pair entry => tidyWalk.pair reached plain entry
      have passed := forall₂_pairsOf (mergeTree_plain ok plain)
      exact ((List.forall₂_and_left _ _).mpr ⟨walks, passed⟩).imp fun pair pair' both =>
        ⟨.passed both.1.1 both.2.1, .passed both.1.2 both.2.2⟩

theorem keyTexts_copy (pairs : List Pair) : keyTexts (pairs.map Pair.copy) = keyTexts pairs := by
  rw [keyTexts, List.filterMap_map]
  refine congrArg (fun f => pairs.filterMap f) (funext fun pair => ?_)
  simp only [Function.comp_def, Pair.copy, keyText, Tree.head_map]
  rfl

theorem keyTexts_append (left right : List Pair) :
    keyTexts (left ++ right) = keyTexts left ++ keyTexts right :=
  List.filterMap_append

theorem mem_keyTexts_dedup {seen : List Bytes} {pairs : List Pair} {text : Bytes}
    (fresh : text ∉ seen) : text ∈ keyTexts (dedup seen pairs) ↔ text ∈ keyTexts pairs := by
  have same := lookupText_dedup pairs fresh
  constructor <;> intro member <;> by_contra missing
  · rw [← lookupText_eq_none, ← same, lookupText_eq_none] at missing
    exact missing member
  · rw [← lookupText_eq_none, same, lookupText_eq_none] at missing
    exact missing member

/-- The keys of a rebuilt mapping are those seen while it was built. -/
theorem mem_keyTexts_rebuilt {own added : List Pair} {text : Bytes} :
    text ∈ keyTexts (own ++ (dedup (keyTexts own) added).map Pair.copy) ↔
      text ∈ seenAfter (keyTexts own) added := by
  rw [keyTexts_append, keyTexts_copy, List.mem_append, mem_seenAfter]
  by_cases old : text ∈ keyTexts own
  · simp [old]
  · simp [old, mem_keyTexts_dedup old]

/-- The entries of a mapping whose sources have been followed. -/
theorem MergedPairs.of_sources {tree tree' : Tree Event} {sources : List (Tree Event)}
    {lists lists' : List (List Pair)} (found : sourcesOf latest tree.pairs = some sources)
    (merged : MergedSources latest sources lists)
    (own : List.Forall₂ (GrowsPair latest walked) (explicitPairs tree.pairs)
      (explicitPairs tree'.pairs))
    (grown : List.Forall₂ (List.Forall₂ (GrowsPair latest walked)) lists lists') :
    ∃ pairs, MergedPairs latest tree pairs ∧
      List.Forall₂ (GrowsPair latest walked) pairs (explicitPairs tree'.pairs ++
        dedup (keyTexts (explicitPairs tree'.pairs)) lists'.flatten) := by
  refine ⟨_, .entries found merged, List.rel_append own ?_⟩
  rw [keyTexts_evolves own]
  exact forall₂_dedup (List.rel_flatten grown) _

mutual

/-- What the rule gives for a tree after a pass comes from what it gives
before. -/
theorem MergedPairs.back (comes : ComesFrom latest latest' walked)
    (tidyWalk : TidyWalk latest walked) {tree tree' : Tree Event}
    (isMap : tree.head.type = .mappingStart)
    (grows : Grows latest walked tree tree') {pairs' : List Pair} :
    MergedPairs latest' tree' pairs' →
      ∃ pairs, MergedPairs latest tree pairs ∧
        List.Forall₂ (GrowsPair latest walked) pairs pairs'
  | @MergedPairs.entries _ _ _ lists' found' merged' => by
      cases merging : tree.merging with
      | false =>
          have plain' := grows.evolves.not_merging merging
          have isMap' : tree'.head.type = .mappingStart := by
            rw [grows.evolves.type_eq]
            exact isMap
          rw [(MergedPairs.entries found' merged').unique (.of_plain isMap' plain')]
          exact ⟨tree.pairs, .of_plain isMap merging, grows.pairs_plain tidyWalk merging⟩
      | true =>
          cases grows with
          | skipped =>
              obtain ⟨sources, found, grow⟩ := sources_from comes
                (List.forall₂_same.mpr fun c _ => .skipped c) found'
              obtain ⟨lists, merged, grown⟩ :=
                MergedSources.back comes tidyWalk (source_types found) grow merged'
              exact MergedPairs.of_sources found merged
                (List.forall₂_same.mpr fun pair _ => growsPair_refl pair) grown
          | copied =>
              obtain ⟨sources, found, grow⟩ := sources_from comes (candidates_copied tree) found'
              obtain ⟨lists, merged, grown⟩ :=
                MergedSources.back comes tidyWalk (source_types found) grow merged'
              refine MergedPairs.of_sources found merged ?_ grown
              rw [pairs_map_copy, explicitPairs_copy]
              exact List.forall₂_map_right_iff.mpr
                (List.forall₂_same.mpr fun pair _ => growsPair_copy pair)
          | passed reached ok =>
              obtain ⟨sources, tidy⟩ := tidyWalk.tidy tree reached merging
              have types := source_types tidy.found
              have isMap' : tree'.head.type = .mappingStart := by
                rw [head_mergeTree ok]
                exact isMap
              rcases tidy.last with plain | ⟨front, source, pair, rfl, plain, merges, single⟩
              · have plain' := tidy.rebuilt_plain ok merging plain
                rw [(MergedPairs.entries found' merged').unique (.of_plain isMap' plain')]
                refine ⟨_, .entries tidy.found (.of_plain types plain), ?_⟩
                rw [tidy.rebuilt ok merging, ← List.flatMap_def]
                exact List.rel_append (List.forall₂_same.mpr fun pair _ => growsPair_refl pair)
                  (List.forall₂_map_right_iff.mpr
                    (List.forall₂_same.mpr fun pair _ => growsPair_copy pair))
              · have candidates := tidy.rebuilt_candidates ok merging plain merges single
                rw [sourcesOf_eq, candidates, ← mergeCandidates_copy, ← pairs_map_copy] at found'
                obtain ⟨deeper, found, grow⟩ := sources_from comes (candidates_copied source) found'
                obtain ⟨lists, merged, grown⟩ :=
                  MergedSources.back comes tidyWalk (source_types found) grow merged'
                have sourcePairs := MergedPairs.entries found merged
                have fronts : MergedSources latest front (front.map Tree.pairs) :=
                  .of_plain (fun s inside => types s (List.mem_append_left _ inside)) plain
                refine ⟨_, .entries tidy.found (fronts.append (.cons sourcePairs .nil)), ?_⟩
                have covers : ∀ text ∈ keyTexts (explicitPairs source.pairs),
                    text ∈ seenAfter (keyTexts (explicitPairs tree.pairs))
                      (front.flatMap Tree.pairs ++ explicitPairs source.pairs) :=
                  fun text known => mem_seenAfter.mpr (.inr (by
                    rw [keyTexts_append]
                    exact List.mem_append_right _ known))
                rw [tidy.rebuilt_explicit ok merging plain merges, List.flatten_append,
                  ← List.flatMap_def, List.flatten_singleton, ← List.append_assoc, dedup_append,
                  dedup_dedup covers, List.append_assoc]
                refine List.rel_append
                  (List.forall₂_same.mpr fun pair _ => growsPair_refl pair)
                  (List.rel_append (List.forall₂_map_right_iff.mpr
                    (List.forall₂_same.mpr fun pair _ => growsPair_copy pair)) ?_)
                rw [dedup_congr (fun text => mem_keyTexts_rebuilt)]
                exact forall₂_dedup (List.rel_flatten grown) _

theorem MergedSources.back (comes : ComesFrom latest latest' walked)
    (tidyWalk : TidyWalk latest walked) {sources sources' : List (Tree Event)}
    (types : ∀ source ∈ sources, source.head.type = .mappingStart)
    (grow : List.Forall₂ (Grows latest walked) sources sources') {lists' : List (List Pair)} :
    MergedSources latest' sources' lists' →
      ∃ lists, MergedSources latest sources lists ∧
        List.Forall₂ (List.Forall₂ (GrowsPair latest walked)) lists lists'
  | .nil => by
      cases grow
      exact ⟨[], .nil, .nil⟩
  | .cons head' rest' => by
      cases grow with
      | cons first others =>
          obtain ⟨pairs, head, grown⟩ := MergedPairs.back comes tidyWalk
            (types _ List.mem_cons_self) first head'
          obtain ⟨lists, rest, more⟩ := MergedSources.back comes tidyWalk
            (fun s member => types s (List.mem_cons_of_mem _ member)) others rest'
          exact ⟨pairs :: lists, .cons head rest, .cons grown more⟩

end

theorem Grows.node {start : Event} {children : List (Tree Event)} {stop : Event}
    {tree' : Tree Event} (grows : Grows latest walked (.node start children stop) tree') :
    ∃ start' children' stop', tree' = .node start' children' stop' ∧
      start'.copy = start.copy ∧ stop'.copy = stop.copy := by
  cases grows with
  | skipped => exact ⟨_, _, _, rfl, rfl, rfl⟩
  | copied => exact ⟨_, _, _, rfl, rfl, rfl⟩
  | passed _ ok =>
      rw [mergeTree] at ok
      split at ok <;> obtain ⟨_, _, rfl⟩ := Option.map_eq_some_iff.mp ok <;>
        exact ⟨_, _, _, rfl, rfl, rfl⟩

theorem Grows.leaf_copy {evt : Event} {tree' : Tree Event}
    (grows : Grows latest walked (.leaf evt) tree') :
    ∃ evt', tree' = .leaf evt' ∧ evt'.copy = evt.copy := by
  cases grows with
  | skipped => exact ⟨evt, rfl, rfl⟩
  | copied => exact ⟨evt.copy, rfl, rfl⟩
  | passed _ ok => exact ⟨evt, by simpa [mergeTree] using ok.symm, rfl⟩

theorem Grows.children (tidyWalk : TidyWalk latest walked) {tree tree' : Tree Event}
    (grows : Grows latest walked tree tree') (notMap : tree.head.type ≠ .mappingStart) :
    List.Forall₂ (Grows latest walked) tree.children tree'.children := by
  cases grows with
  | skipped => exact List.forall₂_same.mpr fun child _ => .skipped child
  | copied =>
      rw [children_map]
      exact List.forall₂_map_right_iff.mpr (List.forall₂_same.mpr fun child _ => .copied child)
  | passed reached ok =>
      have plain : tree.merging = false := by simp [Tree.merging, notMap]
      have walks := tidyWalk.child tree reached plain
      exact ((List.forall₂_and_left _ _).mpr ⟨walks, mergeTree_plain ok plain⟩).imp
        fun child child' both => .passed both.1 both.2

mutual

/-- What the rule makes of a tree after a pass it makes of the tree before. -/
theorem Merged.back (comes : ComesFrom latest latest' walked)
    (tidyWalk : TidyWalk latest walked) {tree tree' : Tree Event}
    (grows : Grows latest walked tree tree') {full : Tree Event} :
    Merged latest' tree' full → Merged latest tree full
  | .leaf evt' => by
      cases tree with
      | leaf evt =>
          obtain ⟨_, same, copy⟩ := grows.leaf_copy
          cases same
          rw [copy]
          exact .leaf evt
      | node start children stop =>
          obtain ⟨_, _, _, same, _⟩ := grows.node
          cases same
  | .node notMap rest => by
      cases tree with
      | leaf evt =>
          obtain ⟨_, same, _⟩ := grows.leaf_copy
          cases same
      | node start children stop =>
          have type := grows.evolves.type_eq
          obtain ⟨_, _, _, same, startCopy, stopCopy⟩ := grows.node
          cases same
          have notMap' : start.type ≠ .mappingStart := by
            intro isMap
            exact notMap (type.trans isMap)
          rw [startCopy, stopCopy]
          exact .node notMap'
            (MergedTrees.back comes tidyWalk (grows.children tidyWalk notMap') rest)
  | .mapping isMap merged rest => by
      cases tree with
      | leaf evt =>
          obtain ⟨_, same, _⟩ := grows.leaf_copy
          cases same
      | node start children stop =>
          have type := grows.evolves.type_eq
          obtain ⟨_, _, _, same, startCopy, stopCopy⟩ := grows.node
          cases same
          have isMap' : (Tree.node start children stop).head.type = .mappingStart :=
            type.symm.trans isMap
          obtain ⟨pairs, before, grown⟩ := merged.back comes tidyWalk isMap' grows
          rw [startCopy, stopCopy]
          exact .mapping isMap' before
            (MergedTrees.back comes tidyWalk (forall₂_unpair grown) rest)

theorem MergedTrees.back (comes : ComesFrom latest latest' walked)
    (tidyWalk : TidyWalk latest walked) {trees trees' : List (Tree Event)}
    (grow : List.Forall₂ (Grows latest walked) trees trees') {full : List (Tree Event)} :
    MergedTrees latest' trees' full → MergedTrees latest trees full
  | .nil => by
      cases grow
      exact .nil
  | .cons head rest => by
      cases grow with
      | cons first others =>
          exact .cons (Merged.back comes tidyWalk first head)
            (MergedTrees.back comes tidyWalk others rest)

end

mutual

/-- Where nothing merges, the rule only drops anchors. -/
theorem Merged.of_plain (tree : Tree Event) (paired : tree.Paired)
    (plain : tree.hasMerging = false) : Merged latest tree (tree.map Event.copy) := by
  cases tree with
  | leaf evt => exact .leaf evt
  | node start children stop =>
      simp only [Tree.hasMerging, Bool.or_eq_false_iff] at plain
      have rest := MergedTrees.of_plain children paired.2 plain.2
      by_cases isMap : start.type = .mappingStart
      · have pairs : MergedPairs latest (.node start children stop) (pairsOf children) :=
          .of_plain isMap plain.1
        refine .mapping isMap pairs ?_
        rw [unpair_pairsOf (paired.1 isMap)]
        exact rest
      · exact .node isMap rest

theorem MergedTrees.of_plain (trees : List (Tree Event)) (paired : Tree.PairedList trees)
    (plain : Tree.hasMergingList trees = false) :
    MergedTrees latest trees (Tree.mapList Event.copy trees) := by
  cases trees with
  | nil => exact .nil
  | cons tree trees =>
      simp only [Tree.hasMergingList, Bool.or_eq_false_iff] at plain
      exact .cons (Merged.of_plain tree paired.1 plain.1)
        (MergedTrees.of_plain trees paired.2 plain.2)

end

end

end Oyl
