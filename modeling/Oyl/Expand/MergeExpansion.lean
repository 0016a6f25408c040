import Oyl.Expand.Bind
import Oyl.Expand.MergeDepth

/-!
# Which merge keys survive

The passes of `resolve_merges` follow the depth of the merges of a document, so
a merge key is left only where 32 passes are not enough.
-/

namespace Oyl

/-! ### Definitions after a pass -/

/-- All definitions of the names of a document. -/
def definitions (trees : List (Tree Event)) : Definitions :=
  fun name tree => (name, tree) ∈ anchoredTrees trees

theorem not_anchored_copy {tree sub : Tree Event}
    (member : sub ∈ (tree.map Event.copy).subtrees) : sub.head.anchorName = none := by
  rw [Tree.subtrees_map] at member
  obtain ⟨original, _, rfl⟩ := List.mem_map.mp member
  rw [Tree.head_map]
  rfl

theorem mem_subtreesList {trees : List (Tree Event)} {sub : Tree Event} :
    sub ∈ Tree.subtreesList trees ↔ ∃ tree ∈ trees, sub ∈ tree.subtrees := by
  induction trees with
  | nil => simp [Tree.subtreesList]
  | cons tree trees ih => simp [Tree.subtreesList, ih]

section

variable {latest : Bytes → Option (Tree Event)}

mutual

/-- An anchored node of a tree after a pass was one before it. -/
theorem anchored_mergeTree (tree : Tree Event) {tree' : Tree Event}
    (ok : mergeTree latest tree = some tree') {sub' : Tree Event}
    (member : sub' ∈ tree'.subtrees) {name : Bytes} (named : sub'.head.anchorName = some name) :
    ∃ sub ∈ tree.subtrees, sub.head.anchorName = some name ∧ Evolves latest sub sub' := by
  cases tree with
  | leaf evt =>
      obtain rfl : Tree.leaf evt = tree' := by simpa [mergeTree] using ok
      exact ⟨sub', member, named, .skipped sub'⟩
  | node start children stop =>
      have whole := ok
      rw [mergeTree] at ok
      split at ok
      · obtain ⟨pairs, merged, rfl⟩ := Option.map_eq_some_iff.mp ok
        rcases List.mem_cons.mp member with rfl | inner
        · exact ⟨.node start children stop, List.mem_cons_self, named, .passed whole⟩
        · obtain ⟨child', among, deeper⟩ := mem_subtreesList.mp inner
          obtain ⟨pair, inside, which⟩ := mem_unpair.mp among
          rcases mem_mergedPairs merged inside with
            ⟨explicit, _⟩ | ⟨sources, _, source, _, original, _, rfl⟩
          · obtain ⟨left, right⟩ := mem_of_mem_pairsOf explicit
            have here : child' ∈ children := by
              rcases which with rfl | rfl
              · exact left
              · exact right
            exact ⟨sub', List.mem_cons_of_mem _ (mem_subtreesList.mpr ⟨child', here, deeper⟩),
              named, .skipped sub'⟩
          · have bare : sub'.head.anchorName = none := by
              rcases which with rfl | rfl <;> exact not_anchored_copy deeper
            rw [bare] at named
            cases named
      · obtain ⟨children', merged, rfl⟩ := Option.map_eq_some_iff.mp ok
        rcases List.mem_cons.mp member with rfl | inner
        · exact ⟨.node start children stop, List.mem_cons_self, named, .passed whole⟩
        · obtain ⟨sub, deeper, named', evolves⟩ :=
            anchored_mergeTrees children merged inner named
          exact ⟨sub, List.mem_cons_of_mem _ deeper, named', evolves⟩

theorem anchored_mergeTrees (trees : List (Tree Event)) {trees' : List (Tree Event)}
    (ok : mergeTrees latest trees = some trees') {sub' : Tree Event}
    (member : sub' ∈ Tree.subtreesList trees') {name : Bytes}
    (named : sub'.head.anchorName = some name) :
    ∃ sub ∈ Tree.subtreesList trees, sub.head.anchorName = some name ∧
      Evolves latest sub sub' := by
  cases trees with
  | nil =>
      obtain rfl : [] = trees' := by simpa [mergeTrees] using ok
      simp [Tree.subtreesList] at member
  | cons tree trees =>
      rw [mergeTrees] at ok
      obtain ⟨first, head, others⟩ := Option.bind_eq_some_iff.mp ok
      obtain ⟨rest, tail, rfl⟩ := Option.map_eq_some_iff.mp others
      rw [Tree.subtreesList]
      rcases List.mem_append.mp member with left | right
      · obtain ⟨sub, inside, found⟩ := anchored_mergeTree tree head left named
        exact ⟨sub, List.mem_append_left _ inside, found⟩
      · obtain ⟨sub, inside, found⟩ := anchored_mergeTrees trees tail right named
        exact ⟨sub, List.mem_append_right _ inside, found⟩

end

end

theorem successor_passTrees {trees trees' : List (Tree Event)}
    (ok : passTrees trees = some trees') :
    Successor (definition trees) (definitions trees) (definitions trees') where
  defined _ _ found := definition_mem found
  evolved name tree' found := by
    obtain ⟨member, named⟩ := mem_anchoredTrees.mp found
    obtain ⟨tree, before, named', evolves⟩ := anchored_mergeTrees trees ok member named
    exact ⟨tree, mem_anchoredTrees.mpr ⟨before, named'⟩, evolves⟩

/-! ### Enough passes -/

/-- The merges of a document settle in `n` passes. -/
def SettlesList (n : Nat) (trees : List (Tree Event)) : Prop :=
  ∀ tree ∈ trees, Settles (definitions trees) n tree

theorem SettlesList.passTrees {n : Nat} {trees trees' : List (Tree Event)}
    (settles : SettlesList (n + 1) trees) (ok : passTrees trees = some trees') :
    SettlesList n trees' := by
  intro tree' member
  obtain ⟨tree, inside, passed⟩ := Forall₂.mem_right (mergeTrees_forall₂ ok) member
  exact (settles tree inside).passed (successor_passTrees ok) passed

/-- `n` passes over a document. -/
def passes : Nat → List (Tree Event) → Option (List (Tree Event))
  | 0, trees => some trees
  | n + 1, trees => (passTrees trees).bind (passes n)

mutual

/-- A pass changes nothing where nothing merges. -/
theorem mergeTree_of_not_merging (latest : Bytes → Option (Tree Event)) (tree : Tree Event)
    (plain : tree.hasMerging = false) : mergeTree latest tree = some tree := by
  cases tree with
  | leaf evt => rfl
  | node start children stop =>
      simp only [Tree.hasMerging, Bool.or_eq_false_iff] at plain
      have here : ¬ (start.type == .mappingStart && (pairsOf children).any mergeKeyed) = true := by
        rw [Bool.not_eq_true]
        exact plain.1
      rw [mergeTree, if_neg here, mergeTrees_of_not_merging latest children plain.2,
        Option.map_some]

theorem mergeTrees_of_not_merging (latest : Bytes → Option (Tree Event))
    (trees : List (Tree Event)) (plain : Tree.hasMergingList trees = false) :
    mergeTrees latest trees = some trees := by
  cases trees with
  | nil => rfl
  | cons tree trees =>
      simp only [Tree.hasMergingList, Bool.or_eq_false_iff] at plain
      rw [mergeTrees, mergeTree_of_not_merging latest tree plain.1,
        mergeTrees_of_not_merging latest trees plain.2]
      rfl

end

theorem passes_of_not_merging (n : Nat) {trees : List (Tree Event)}
    (plain : Tree.hasMergingList trees = false) : passes n trees = some trees := by
  induction n with
  | zero => rfl
  | succ n ih =>
      rw [passes, passTrees, mergeTrees_of_not_merging _ trees plain, Option.bind_some, ih]

/-- Stopping early at a fixed point changes nothing. -/
theorem expandMerges_eq_passes (n : Nat) (trees : List (Tree Event)) :
    expandMerges n trees = passes n trees := by
  induction n generalizing trees with
  | zero => rfl
  | succ n ih =>
      rw [expandMerges, passes]
      cases plain : Tree.hasMergingList trees with
      | false =>
          rw [passTrees, mergeTrees_of_not_merging _ trees plain, Option.bind_some,
            Option.bind_some, passes_of_not_merging n plain]
          rfl
      | true =>
          congr 1
          funext trees'
          exact ih trees'

theorem SettlesList.passes {n : Nat} {events : List Event} {trees trees' : List (Tree Event)}
    (forest : Forest events trees) (settles : SettlesList n trees)
    (ok : passes n trees = some trees') : Tree.hasMergingList trees' = false := by
  induction n generalizing events trees with
  | zero =>
      cases ok
      exact Tree.hasMergingList_eq_false.mpr fun tree member =>
        (settles tree member).not_hasMerging (Tree.pairedList_iff.mp forest.paired tree member)
  | succ n ih =>
      obtain ⟨next, first, rest⟩ := Option.bind_eq_some_iff.mp ok
      exact ih (forest.passTrees first) (settles.passTrees first) rest

theorem passes_add (n m : Nat) (trees : List (Tree Event)) :
    passes (n + m) trees = (passes n trees).bind (passes m) := by
  induction n generalizing trees with
  | zero => rw [Nat.zero_add, passes, Option.bind_some]
  | succ n ih =>
      rw [Nat.succ_add, passes, passes, Option.bind_assoc]
      congr 1
      funext next
      exact ih next

/-! ### Merge keys of an event list -/

/-- No mapping of the list has a merge key. -/
def MergeKeyFree (events : List Event) : Prop :=
  ∀ i < events.length, (eventAt events i).type = .mappingStart →
    ∀ e ∈ entries events i (nodeEnd events i), isMergeKey (e.key events) = false

instance (events : List Event) : Decidable (MergeKeyFree events) :=
  inferInstanceAs (Decidable (∀ i < events.length, _ → ∀ e ∈ _, _))

mutual

/-- Where a collection opens in the linear form, a subtree begins. -/
theorem subtree_at {events : List Event} {pos i : Nat} (tree : Tree Event)
    (shaped : EventTree tree) (lies : LiesAt events pos [tree]) (low : pos ≤ i)
    (high : i < pos + tree.flatten.length) (opens : (eventAt events i).type.opens = true) :
    ∃ sub ∈ tree.subtrees, LiesAt events i [sub] := by
  by_cases first : i = pos
  · subst first
    exact ⟨tree, by cases tree <;> simp [Tree.subtrees], lies⟩
  · cases tree with
    | leaf evt =>
        simp only [Tree.flatten, List.length_singleton] at high
        omega
    | node start children stop =>
        have length : (Tree.node start children stop).flatten.length =
            (Tree.flattenList children).length + 2 := by simp [Tree.flatten]
        by_cases last : i = pos + (Tree.node start children stop).flatten.length - 1
        · rw [last, lies.eventAt_close] at opens
          have closes := shaped.1.closes
          cases type : start.type <;> rw [type] at closes <;>
            rw [closes] at opens <;> simp [EventType.closing, EventType.opens] at opens
        · obtain ⟨sub, inside, here⟩ := subtree_atList children shaped.2 lies.inner
            (by omega) (by omega) opens
          exact ⟨sub, List.mem_cons_of_mem _ inside, here⟩

theorem subtree_atList {events : List Event} {pos i : Nat} (trees : List (Tree Event))
    (shaped : EventTrees trees) (lies : LiesAt events pos trees) (low : pos ≤ i)
    (high : i < pos + (Tree.flattenList trees).length)
    (opens : (eventAt events i).type.opens = true) :
    ∃ sub ∈ Tree.subtreesList trees, LiesAt events i [sub] := by
  cases trees with
  | nil =>
      simp only [Tree.flattenList, List.length_nil] at high
      omega
  | cons tree trees =>
      simp only [Tree.flattenList, List.length_append] at high
      by_cases here : i < pos + tree.flatten.length
      · obtain ⟨sub, inside, found⟩ := subtree_at tree shaped.1 lies.first low here opens
        exact ⟨sub, List.mem_append_left _ inside, found⟩
      · obtain ⟨sub, inside, found⟩ := subtree_atList trees shaped.2 lies.tail (by omega)
          (by omega) opens
        exact ⟨sub, List.mem_append_right _ inside, found⟩

end

mutual

theorem Tree.hasMerging_eq_false {tree : Tree Event} :
    tree.hasMerging = false ↔ ∀ sub ∈ tree.subtrees, sub.merging = false := by
  cases tree with
  | leaf evt =>
      simp [Tree.hasMerging, Tree.subtrees, Tree.merging, Tree.pairs, Tree.children, pairsOf]
  | node start children stop =>
      simp only [Tree.hasMerging, Tree.subtrees, Bool.or_eq_false_iff, List.mem_cons,
        forall_eq_or_imp]
      exact and_congr_right fun _ => Tree.hasMergingList_iff_subtrees

theorem Tree.hasMergingList_iff_subtrees {trees : List (Tree Event)} :
    Tree.hasMergingList trees = false ↔
      ∀ sub ∈ Tree.subtreesList trees, sub.merging = false := by
  cases trees with
  | nil => simp [Tree.hasMergingList, Tree.subtreesList]
  | cons tree trees =>
      have first : tree.hasMerging = false ↔ ∀ sub ∈ tree.subtrees, sub.merging = false :=
        Tree.hasMerging_eq_false
      have others : Tree.hasMergingList trees = false ↔
          ∀ sub ∈ Tree.subtreesList trees, sub.merging = false :=
        Tree.hasMergingList_iff_subtrees
      simp only [Tree.hasMergingList, Bool.or_eq_false_iff, first, others, Tree.subtreesList,
        List.mem_append]
      exact ⟨fun both sub => fun member => member.elim (both.1 sub) (both.2 sub),
        fun all => ⟨fun sub member => all sub (.inl member),
          fun sub member => all sub (.inr member)⟩⟩

end

/-- A list has no merge keys where its trees have none. -/
theorem mergeKeyFree_iff {events : List Event} {trees : List (Tree Event)}
    (forest : Forest events trees) :
    MergeKeyFree events ↔ Tree.hasMergingList trees = false := by
  obtain ⟨rfl, shaped, paired⟩ := forest
  rw [Tree.hasMergingList_iff_subtrees]
  have walk (sub : Tree Event) (member : sub ∈ Tree.subtreesList trees) (i : Nat)
      (lies : LiesAt (Tree.flattenList trees) i [sub])
      (isMap : sub.head.type = .mappingStart) :
      sub.merging = (entries (Tree.flattenList trees) i
        (nodeEnd (Tree.flattenList trees) i)).any
          fun e => isMergeKey (e.key (Tree.flattenList trees)) := by
    have isTree := Tree.ShapedList.subtrees trees shaped sub member
    obtain ⟨start, children, stop, rfl⟩ := mapping_of_head isTree isMap
    have visits := entries_pairs lies isTree (Tree.PairedList.subtrees trees paired _ member)
      isMap
    rw [lies.nodeEnd_eq isTree, any_mergeKey visits, Tree.merging, isMap]
    rfl
  constructor
  · intro free sub member
    by_contra merging
    rw [Bool.not_eq_false] at merging
    have isMap := Tree.merging_type merging
    obtain ⟨before, after, split⟩ := Tree.flattenList_of_mem_subtrees trees member
    have lies : LiesAt (Tree.flattenList trees) before.length [sub] :=
      ⟨before, after, by simpa [Tree.flattenList] using split, rfl⟩
    have bound := lies.bound
    have positive := sub.flatten_length_pos
    simp only [Tree.flattenList, List.append_nil] at bound
    rw [walk sub member before.length lies isMap, List.any_eq_true] at merging
    obtain ⟨e, visited, isKey⟩ := merging
    rw [free before.length (by omega) (by rw [lies.eventAt_eq]; exact isMap) e visited] at isKey
    cases isKey
  · intro plain i inside isMap e visited
    obtain ⟨sub, member, lies⟩ := subtree_atList trees shaped
      (⟨[], [], by simp, rfl⟩ : LiesAt (Tree.flattenList trees) 0 trees) (Nat.zero_le i)
      (by omega) (by rw [isMap]; rfl)
    have none := plain sub member
    rw [walk sub member i lies (by rw [← lies.eventAt_eq]; exact isMap), List.any_eq_false]
      at none
    simpa using none e visited

/-! ### Surviving merge keys -/

/-- Where `resolve_merges` succeeds, merge keys are left exactly if 32 passes
over the document leave some, and none are if its merges settle in 32. -/
theorem resolveMerges_keyFree {p p' : Parser} {trees : List (Tree Event)}
    (forest : Forest p.events trees) (ok : resolveMerges p = .ok () p') :
    (MergeKeyFree p'.events ↔ ∃ n ≤ maxMergePasses, ∃ last, passes n trees = some last ∧
      Tree.hasMergingList last = false) ∧
    (SettlesList maxMergePasses trees → MergeKeyFree p'.events) := by
  obtain ⟨last, expanded, forest'⟩ := mergePasses_ok forest ok
  rw [expandMerges_eq_passes] at expanded
  rw [mergeKeyFree_iff forest']
  refine ⟨⟨fun free => ⟨_, Nat.le_refl _, last, expanded, free⟩, ?_⟩,
    fun settles => settles.passes forest expanded⟩
  rintro ⟨n, few, settled, reached, plain⟩
  obtain ⟨more, total⟩ := Nat.exists_eq_add_of_le few
  rw [total, passes_add, reached, Option.bind_some, passes_of_not_merging more plain]
    at expanded
  cases expanded
  exact plain

/-- `&a {x: 1}` -/
def anchoredMapping : Tree Event :=
  .node { type := .mappingStart, anchor := some (boundName (ascii "a") 1) }
    [.leaf { type := .scalar, value := ascii "x" },
      .leaf { type := .scalar, value := ascii "1" }]
    { type := .mappingEnd }

/-- `{<<: *a, y: 2}` -/
def mergingMapping : Tree Event :=
  .node { type := .mappingStart }
    [.leaf { type := .scalar, value := ascii "<<" },
      .leaf { type := .alias, value := boundName (ascii "a") 1 },
      .leaf { type := .scalar, value := ascii "y" },
      .leaf { type := .scalar, value := ascii "2" }]
    { type := .mappingEnd }

/-- `[&a {x: 1}, {<<: *a, y: 2}]` -/
def mergedDocument : List (Tree Event) :=
  [.node { type := .sequenceStart } [anchoredMapping, mergingMapping] { type := .sequenceEnd }]

theorem mergedDocument_forest : Forest (Tree.flattenList mergedDocument) mergedDocument :=
  ⟨rfl, by decide, by
    simp [mergedDocument, anchoredMapping, mergingMapping, Tree.PairedList, Tree.Paired]⟩

theorem mergedDocument_anchors :
    anchoredTrees mergedDocument = [(boundName (ascii "a") 1, anchoredMapping)] := rfl

theorem mergedDocument_merges {source : Tree Event}
    (merges : Merges (definitions mergedDocument) mergingMapping source) :
    source = anchoredMapping := by
  obtain ⟨_, pair, entry, keyed, candidate, among, _, stands⟩ := merges
  rcases List.mem_cons.mp entry with rfl | later
  · obtain rfl := List.mem_singleton.mp
      (among : candidate ∈ [.leaf { type := .alias, value := boundName (ascii "a") 1 }])
    rcases stands with rfl | ⟨_, defined⟩
    · contradiction
    · rw [definitions, mergedDocument_anchors, List.mem_singleton] at defined
      exact (Prod.mk.inj defined).2
  · obtain rfl := List.mem_singleton.mp later
    exact absurd keyed (by decide)

theorem mergedDocument_settles : SettlesList maxMergePasses mergedDocument := by
  have leaves {tree node : Tree Event} (inside : tree ∈ [anchoredMapping, mergingMapping])
      (brings : Brings (definitions mergedDocument) tree node) : ∃ evt, node = .leaf evt := by
    have entries {holder : Tree Event} (inside : holder ∈ [anchoredMapping, mergingMapping])
        {pair : Pair} (entry : pair ∈ holder.pairs) :
        (∃ evt, pair.1 = .leaf evt) ∧ ∃ evt, pair.2 = .leaf evt := by
      simp only [List.mem_cons, List.not_mem_nil, or_false] at inside
      rcases inside with rfl | rfl
      · obtain rfl := List.mem_singleton.mp entry
        exact ⟨⟨_, rfl⟩, _, rfl⟩
      · rcases List.mem_cons.mp entry with rfl | later
        · exact ⟨⟨_, rfl⟩, _, rfl⟩
        · obtain rfl := List.mem_singleton.mp later
          exact ⟨⟨_, rfl⟩, _, rfl⟩
    induction brings with
    | key _ entry _ => exact (entries inside entry).1
    | value _ entry _ => exact (entries inside entry).2
    | @source tree source node merges _ ih =>
        simp only [List.mem_cons, List.not_mem_nil, or_false] at inside
        rcases inside with rfl | rfl
        · exact absurd merges.merging (by decide)
        · rw [mergedDocument_merges merges] at ih
          exact ih List.mem_cons_self
  have settle {tree : Tree Event} (inside : tree ∈ [anchoredMapping, mergingMapping])
      (isMap : tree.head.type = .mappingStart)
      (within : MergesWithin (definitions mergedDocument) 1 tree) :
      Settles (definitions mergedDocument) maxMergePasses tree := by
    refine .of_mapping isMap within (fun node brings => ?_) (by decide : 1 + 31 ≤ 32)
    obtain ⟨evt, rfl⟩ := leaves inside brings
    exact .leaf 31 evt
  intro tree member
  obtain rfl := List.mem_singleton.mp member
  refine .node (by decide) fun child among => ?_
  rcases List.mem_cons.mp among with rfl | last
  · exact settle (by simp) rfl fun source merges => absurd merges.merging (by decide)
  · obtain rfl := List.mem_singleton.mp last
    exact settle (by simp) rfl fun source merges => by
      rw [mergedDocument_merges merges]
      rfl

/-- A run whose events can be computed. -/
theorem exists_ok_of_events (result : EStateM.Result Stop Parser Unit) (events : List Event)
    (computed : (match result with
      | .ok _ p' => decide (p'.events = events)
      | .error _ _ => false) = true) :
    ∃ p', result = .ok () p' ∧ p'.events = events := by
  cases result with
  | ok value p' => exact ⟨p', rfl, by simpa using computed⟩
  | error stop p' => cases computed

theorem mergedDocument_keyFree :
    ∃ p', resolveMerges { Parser.new [] with events := Tree.flattenList mergedDocument } =
        .ok () p' ∧
      (MergeKeyFree p'.events ↔ ∃ n ≤ maxMergePasses, ∃ last,
        passes n mergedDocument = some last ∧ Tree.hasMergingList last = false) ∧
      MergeKeyFree p'.events := by
  obtain ⟨p', ok, _⟩ := exists_ok_of_events
    (resolveMerges { Parser.new [] with events := Tree.flattenList mergedDocument })
    [{ type := .sequenceStart },
        { type := .mappingStart, anchor := some (boundName (ascii "a") 1) },
        { type := .scalar, value := ascii "x" }, { type := .scalar, value := ascii "1" },
        { type := .mappingEnd }, { type := .mappingStart },
        { type := .scalar, value := ascii "y" }, { type := .scalar, value := ascii "2" },
        { type := .scalar, value := ascii "x" }, { type := .scalar, value := ascii "1" },
        { type := .mappingEnd }, { type := .sequenceEnd }]
    (by decide +kernel)
  obtain ⟨free, settled⟩ := resolveMerges_keyFree mergedDocument_forest ok
  exact ⟨p', ok, free, settled mergedDocument_settles⟩

/-- `&a {<<: *a, x: 1}` -/
def selfMerge : List Event :=
  [{ type := .docStart },
    { type := .mappingStart, anchor := some (boundName (ascii "a") 1) },
    { type := .scalar, value := ascii "<<" },
    { type := .alias, value := boundName (ascii "a") 1 },
    { type := .scalar, value := ascii "x" }, { type := .scalar, value := ascii "1" },
    { type := .mappingEnd }, { type := .docEnd }]

/-- A mapping that merges itself keeps its merge key through all passes. -/
theorem selfMerge_keeps_key :
    ∃ p', resolveMerges { Parser.new [] with events := selfMerge } = .ok () p' ∧
      ¬ MergeKeyFree p'.events := by
  obtain ⟨p', ok, events⟩ := exists_ok_of_events
    (resolveMerges { Parser.new [] with events := selfMerge })
    [{ type := .docStart },
        { type := .mappingStart, anchor := some (boundName (ascii "a") 1) },
        { type := .scalar, value := ascii "x" }, { type := .scalar, value := ascii "1" },
        { type := .scalar, value := ascii "<<" },
        { type := .alias, value := boundName (ascii "a") 1 },
        { type := .mappingEnd }, { type := .docEnd }]
    (by decide +kernel)
  exact ⟨p', ok, by rw [events]; decide⟩

end Oyl
