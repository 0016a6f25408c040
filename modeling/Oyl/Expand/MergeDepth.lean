import Oyl.Expand.MergeRun

/-!
# How many passes merge keys need

A mapping that merges needs one pass more than its merge sources, and what its
entries bring in can settle only after that.  This measure of the unexpanded
document bounds the number of passes.
-/

namespace Oyl

/-- The definitions of a name. -/
abbrev Definitions := Bytes → Tree Event → Prop

/-- A mapping that a merge source can stand for. -/
def StandsFor (defs : Definitions) (candidate source : Tree Event) : Prop :=
  source.head.type = .mappingStart ∧
    (candidate = source ∨ candidate.head.type = .alias ∧ defs candidate.head.value source)

/-- `source` is a merge source of the mapping `tree`. -/
def Merges (defs : Definitions) (tree source : Tree Event) : Prop :=
  tree.head.type = .mappingStart ∧ ∃ pair ∈ tree.pairs, mergeKeyed pair = true ∧
    ∃ candidate ∈ candidates pair.2, StandsFor defs candidate source

/-- Chains of merges from a mapping are at most `n` long. -/
def MergesWithin (defs : Definitions) : Nat → Tree Event → Prop
  | 0, tree => tree.merging = false
  | n + 1, tree => ∀ source, Merges defs tree source → MergesWithin defs n source

/-- A node that the entries of a mapping, or of its merge sources, hold. -/
inductive Brings (defs : Definitions) : Tree Event → Tree Event → Prop
  | key {tree : Tree Event} {pair : Pair} : tree.head.type = .mappingStart →
      pair ∈ tree.pairs → mergeKeyed pair = false → Brings defs tree pair.1
  | value {tree : Tree Event} {pair : Pair} : tree.head.type = .mappingStart →
      pair ∈ tree.pairs → mergeKeyed pair = false → Brings defs tree pair.2
  | source {tree source node : Tree Event} : Merges defs tree source →
      Brings defs source node → Brings defs tree node

/-- The merges in a tree settle in `n` passes. -/
inductive Settles (defs : Definitions) : Nat → Tree Event → Prop
  | leaf (n : Nat) (evt : Event) : Settles defs n (.leaf evt)
  | node {n : Nat} {start : Event} {children : List (Tree Event)} {stop : Event} :
      start.type ≠ .mappingStart → (∀ child ∈ children, Settles defs n child) →
      Settles defs n (.node start children stop)
  | mapping {n chain inner : Nat} {start : Event} {children : List (Tree Event)}
      {stop : Event} : start.type = .mappingStart →
      MergesWithin defs chain (.node start children stop) →
      (∀ node, Brings defs (.node start children stop) node → Settles defs inner node) →
      chain + inner ≤ n → Settles defs n (.node start children stop)

/-! ### What a pass makes of a tree -/

/-- A tree after a pass: not reached by it, copied by it, or passed. -/
inductive Evolves (latest : Bytes → Option (Tree Event)) : Tree Event → Tree Event → Prop
  | skipped (tree : Tree Event) : Evolves latest tree tree
  | copied (tree : Tree Event) : Evolves latest tree (tree.map Event.copy)
  | passed {tree tree' : Tree Event} : mergeTree latest tree = some tree' →
      Evolves latest tree tree'

theorem head_mergeTree {latest : Bytes → Option (Tree Event)} {tree tree' : Tree Event}
    (ok : mergeTree latest tree = some tree') : tree'.head = tree.head := by
  cases tree with
  | leaf evt =>
      obtain rfl : Tree.leaf evt = tree' := by simpa [mergeTree] using ok
      rfl
  | node start children stop =>
      rw [mergeTree] at ok
      split at ok <;> obtain ⟨_, _, rfl⟩ := Option.map_eq_some_iff.mp ok <;> rfl

namespace Evolves

variable {latest : Bytes → Option (Tree Event)} {tree tree' : Tree Event}

theorem type_eq (evolves : Evolves latest tree tree') :
    tree'.head.type = tree.head.type := by
  cases evolves with
  | skipped => rfl
  | copied => rw [Tree.head_map]; rfl
  | passed ok => rw [head_mergeTree ok]

theorem value_eq (evolves : Evolves latest tree tree') :
    tree'.head.value = tree.head.value := by
  cases evolves with
  | skipped => rfl
  | copied => rw [Tree.head_map]; rfl
  | passed ok => rw [head_mergeTree ok]

theorem isMergeKey_eq (evolves : Evolves latest tree tree') :
    isMergeKey tree'.head = isMergeKey tree.head := by
  cases evolves with
  | skipped => rfl
  | copied => rw [Tree.head_map]; rfl
  | passed ok => rw [head_mergeTree ok]

end Evolves

theorem pairsOf_map (g : Event → Event) (children : List (Tree Event)) :
    pairsOf (children.map (Tree.map g)) =
      (pairsOf children).map fun pair => (pair.1.map g, pair.2.map g) := by
  induction children using pairsOf_induction with
  | pair key value rest ih => simp [pairsOf, ih]
  | nil => rfl
  | single tree => rfl

theorem pairs_map_copy (tree : Tree Event) :
    (tree.map Event.copy).pairs = tree.pairs.map Pair.copy := by
  cases tree with
  | leaf evt => rfl
  | node start children stop =>
      rw [Tree.map, Tree.pairs, Tree.children, Tree.mapList_eq_map, pairsOf_map]
      rfl

theorem children_map (g : Event → Event) (tree : Tree Event) :
    (tree.map g).children = tree.children.map (Tree.map g) := by
  cases tree with
  | leaf evt => rfl
  | node start children stop => rw [Tree.map, Tree.children, Tree.mapList_eq_map]; rfl

theorem mergeKeyed_copy (pair : Pair) : mergeKeyed pair.copy = mergeKeyed pair := by
  rw [mergeKeyed, Pair.copy, Tree.head_map]
  rfl

theorem mergeTrees_forall₂ {latest : Bytes → Option (Tree Event)}
    {trees trees' : List (Tree Event)} (ok : mergeTrees latest trees = some trees') :
    List.Forall₂ (fun tree tree' => mergeTree latest tree = some tree') trees trees' := by
  induction trees generalizing trees' with
  | nil =>
      obtain rfl : [] = trees' := by simpa [mergeTrees] using ok
      exact .nil
  | cons tree trees ih =>
      rw [mergeTrees] at ok
      obtain ⟨first, head, others⟩ := Option.bind_eq_some_iff.mp ok
      obtain ⟨rest, tail, rfl⟩ := Option.map_eq_some_iff.mp others
      exact .cons head (ih tail)

theorem forall₂_pairsOf {R : Tree Event → Tree Event → Prop} {trees trees' : List (Tree Event)}
    (all : List.Forall₂ R trees trees') :
    List.Forall₂ (fun pair pair' => R pair.1 pair'.1 ∧ R pair.2 pair'.2)
      (pairsOf trees) (pairsOf trees') := by
  induction trees using pairsOf_induction generalizing trees' with
  | pair key value rest ih =>
      cases all with
      | cons first others =>
          cases others with
          | cons second others =>
              rw [pairsOf, pairsOf]
              exact .cons ⟨first, second⟩ (ih others)
  | nil => cases all; exact .nil
  | single tree =>
      cases all with
      | cons first others => cases others; exact .nil

theorem Forall₂.mem_right {α β : Type} {R : α → β → Prop} {left : List α} {right : List β}
    (all : List.Forall₂ R left right) {b : β} (member : b ∈ right) : ∃ a ∈ left, R a b := by
  induction all with
  | nil => simp at member
  | cons first _ ih =>
      rcases List.mem_cons.mp member with rfl | later
      · exact ⟨_, List.mem_cons_self, first⟩
      · obtain ⟨a, inside, related⟩ := ih later
        exact ⟨a, List.mem_cons_of_mem _ inside, related⟩

theorem Forall₂.mem_left {α β : Type} {R : α → β → Prop} {left : List α} {right : List β}
    (all : List.Forall₂ R left right) {a : α} (member : a ∈ left) : ∃ b ∈ right, R a b := by
  induction all with
  | nil => simp at member
  | cons first _ ih =>
      rcases List.mem_cons.mp member with rfl | later
      · exact ⟨_, List.mem_cons_self, first⟩
      · obtain ⟨b, inside, related⟩ := ih later
        exact ⟨b, List.mem_cons_of_mem _ inside, related⟩

/-- The children of a node that is not rebuilt are passed. -/
theorem mergeTree_plain {latest : Bytes → Option (Tree Event)} {tree tree' : Tree Event}
    (ok : mergeTree latest tree = some tree') (plain : tree.merging = false) :
    List.Forall₂ (fun child child' => mergeTree latest child = some child')
      tree.children tree'.children := by
  cases tree with
  | leaf evt =>
      obtain rfl : Tree.leaf evt = tree' := by simpa [mergeTree] using ok
      exact .nil
  | node start children stop =>
      rw [mergeTree, if_neg] at ok
      · obtain ⟨children', merged, rfl⟩ := Option.map_eq_some_iff.mp ok
        exact mergeTrees_forall₂ merged
      · simpa [Tree.merging, Tree.head, Tree.pairs, Tree.children] using plain

/-- The entries of a mapping that is rebuilt. -/
theorem mergeTree_merging {latest : Bytes → Option (Tree Event)} {tree tree' : Tree Event}
    (ok : mergeTree latest tree = some tree') (merging : tree.merging = true) :
    mergedPairs latest tree.pairs = some tree'.pairs := by
  cases tree with
  | leaf evt => simp [Tree.merging, Tree.pairs, Tree.children, pairsOf] at merging
  | node start children stop =>
      rw [mergeTree, if_pos (by
        simpa [Tree.merging, Tree.head, Tree.pairs, Tree.children] using merging)] at ok
      obtain ⟨pairs, merged, rfl⟩ := Option.map_eq_some_iff.mp ok
      rw [Tree.pairs, Tree.pairs, Tree.children, Tree.children, pairsOf_unpair]
      exact merged

/-! ### Merges after a pass -/

/-- How the definitions of a document change in a pass. -/
structure Successor (latest : Bytes → Option (Tree Event)) (defs defs' : Definitions) :
    Prop where
  defined : ∀ name tree, latest name = some tree → defs name tree
  evolved : ∀ name tree', defs' name tree' → ∃ tree, defs name tree ∧ Evolves latest tree tree'

section

variable {latest : Bytes → Option (Tree Event)} {defs defs' : Definitions}

theorem Evolves.child {tree tree' : Tree Event} (evolves : Evolves latest tree tree')
    (notMap : tree.head.type ≠ .mappingStart) {child' : Tree Event}
    (member : child' ∈ tree'.children) :
    ∃ child ∈ tree.children, Evolves latest child child' := by
  cases evolves with
  | skipped => exact ⟨child', member, .skipped child'⟩
  | copied =>
      rw [children_map] at member
      obtain ⟨child, inside, rfl⟩ := List.mem_map.mp member
      exact ⟨child, inside, .copied child⟩
  | passed ok =>
      have plain : tree.merging = false := by simp [Tree.merging, notMap]
      obtain ⟨child, inside, passed⟩ := Forall₂.mem_right (mergeTree_plain ok plain) member
      exact ⟨child, inside, .passed passed⟩

theorem Evolves.candidate {value value' : Tree Event} (evolves : Evolves latest value value')
    {candidate' : Tree Event} (member : candidate' ∈ candidates value') :
    ∃ candidate ∈ candidates value, Evolves latest candidate candidate' := by
  simp only [candidates, evolves.type_eq] at member ⊢
  by_cases isSeq : value.head.type = .sequenceStart
  · simp only [isSeq, beq_self_eq_true, if_true] at member ⊢
    exact evolves.child (by rw [isSeq]; decide) member
  · simp only [beq_iff_eq, isSeq, if_false, List.mem_singleton] at member ⊢
    exact ⟨value, rfl, member ▸ evolves⟩

theorem StandsFor.evolves (next : Successor latest defs defs')
    {candidate candidate' source' : Tree Event} (evolves : Evolves latest candidate candidate')
    (stands : StandsFor defs' candidate' source') :
    ∃ source, StandsFor defs candidate source ∧ Evolves latest source source' := by
  obtain ⟨isMap, rfl | ⟨isAlias, defined⟩⟩ := stands
  · exact ⟨candidate, ⟨evolves.type_eq ▸ isMap, .inl rfl⟩, evolves⟩
  · obtain ⟨source, known, same⟩ := next.evolved _ source' defined
    rw [evolves.value_eq] at known
    rw [evolves.type_eq] at isAlias
    exact ⟨source, ⟨same.type_eq ▸ isMap, .inr ⟨isAlias, known⟩⟩, same⟩

theorem merges_of_sourcesOf (next : Successor latest defs defs') {tree : Tree Event}
    (isMap : tree.head.type = .mappingStart) {sources : List (Tree Event)}
    (ok : sourcesOf latest tree.pairs = some sources) {source : Tree Event}
    (member : source ∈ sources) : Merges defs tree source := by
  obtain ⟨pair, inside, keyed, candidate, among, stands⟩ := mem_sourcesOf ok member
  obtain ⟨target, same⟩ := sourceOf_eq_some stands
  exact ⟨isMap, pair, inside, keyed, candidate, among, target,
    same.imp_right fun found => ⟨found.1, next.defined _ _ found.2⟩⟩

theorem Tree.merging_type {tree : Tree Event} (merging : tree.merging = true) :
    tree.head.type = .mappingStart := by
  simp only [Tree.merging, Bool.and_eq_true, beq_iff_eq] at merging
  exact merging.1

theorem Tree.merging_of_pair {tree : Tree Event} (isMap : tree.head.type = .mappingStart)
    {pair : Pair} (inside : pair ∈ tree.pairs) (keyed : mergeKeyed pair = true) :
    tree.merging = true := by
  simp only [Tree.merging, isMap, beq_self_eq_true, Bool.true_and, List.any_eq_true]
  exact ⟨pair, inside, keyed⟩

theorem Merges.merging {tree source : Tree Event} (merges : Merges defs tree source) :
    tree.merging = true := by
  obtain ⟨isMap, pair, inside, keyed, _⟩ := merges
  exact Tree.merging_of_pair isMap inside keyed

theorem Merges.source_type {tree source : Tree Event} (merges : Merges defs tree source) :
    source.head.type = .mappingStart := by
  obtain ⟨_, _, _, _, _, _, stands⟩ := merges
  exact stands.1

theorem mem_pairs_plain {tree tree' : Tree Event} (ok : mergeTree latest tree = some tree')
    (plain : tree.merging = false) {pair' : Pair} (member : pair' ∈ tree'.pairs) :
    ∃ pair ∈ tree.pairs, mergeTree latest pair.1 = some pair'.1 ∧
      mergeTree latest pair.2 = some pair'.2 :=
  Forall₂.mem_right (forall₂_pairsOf (mergeTree_plain ok plain)) member

theorem mem_pairs_copied {tree : Tree Event} {pair' : Pair}
    (member : pair' ∈ (tree.map Event.copy).pairs) :
    ∃ pair ∈ tree.pairs, pair' = pair.copy := by
  rw [pairs_map_copy] at member
  obtain ⟨pair, inside, rfl⟩ := List.mem_map.mp member
  exact ⟨pair, inside, rfl⟩

theorem merges_copied (next : Successor latest defs defs') {tree source' : Tree Event}
    {pair : Pair} (isMap : tree.head.type = .mappingStart) (inside : pair ∈ tree.pairs)
    (keyed : mergeKeyed pair.copy = true) {candidate' : Tree Event}
    (among : candidate' ∈ candidates pair.copy.2) (stands : StandsFor defs' candidate' source') :
    ∃ source, Merges defs tree source ∧ Evolves latest source source' := by
  obtain ⟨candidate, among', same⟩ :=
    (Evolves.copied pair.2 : Evolves latest pair.2 pair.copy.2).candidate among
  obtain ⟨source, stands', evolves⟩ := stands.evolves next same
  rw [mergeKeyed_copy] at keyed
  exact ⟨source, ⟨isMap, pair, inside, keyed, candidate, among', stands'⟩, evolves⟩

/-- The sources of a mapping after a pass are the sources of its sources. -/
theorem Merges.passed (next : Successor latest defs defs') {tree tree' source' : Tree Event}
    (ok : mergeTree latest tree = some tree') (merges : Merges defs' tree' source') :
    ∃ via source, Merges defs tree via ∧ Merges defs via source ∧
      Evolves latest source source' := by
  obtain ⟨isMap, pair, inside, keyed, candidate', among, stands⟩ := merges
  rw [head_mergeTree ok] at isMap
  cases merging : tree.merging with
  | false =>
      obtain ⟨original, here, head, _⟩ := mem_pairs_plain ok merging inside
      have keyed' : mergeKeyed original = true := by
        rw [mergeKeyed, ← head_mergeTree head]
        exact keyed
      rw [Tree.merging_of_pair isMap here keyed'] at merging
      cases merging
  | true =>
      rcases mem_mergedPairs (mergeTree_merging ok merging) inside with
        ⟨_, explicit⟩ | ⟨sources, found, via, inSources, original, here, rfl⟩
      · rw [keyed] at explicit
        cases explicit
      · have first := merges_of_sourcesOf next isMap found inSources
        obtain ⟨source, second, evolves⟩ :=
          merges_copied next first.source_type here keyed among stands
        exact ⟨via, source, first, second, evolves⟩

theorem Merges.evolves (next : Successor latest defs defs') {tree tree' source' : Tree Event}
    (evolves : Evolves latest tree tree') (merges : Merges defs' tree' source') :
    ∃ source, Evolves latest source source' ∧
      (Merges defs tree source ∨ ∃ via, Merges defs tree via ∧ Merges defs via source) := by
  cases evolves with
  | skipped =>
      obtain ⟨isMap, pair, inside, keyed, candidate, among, stands⟩ := merges
      obtain ⟨source, stands', same⟩ := stands.evolves next (.skipped candidate)
      exact ⟨source, same, .inl ⟨isMap, pair, inside, keyed, candidate, among, stands'⟩⟩
  | copied =>
      obtain ⟨isMap, pair', inside, keyed, candidate', among, stands⟩ := merges
      rw [Tree.head_map] at isMap
      obtain ⟨pair, here, rfl⟩ := mem_pairs_copied inside
      obtain ⟨source, merges, same⟩ := merges_copied next isMap here keyed among stands
      exact ⟨source, same, .inl merges⟩
  | passed ok =>
      obtain ⟨via, source, first, second, same⟩ := merges.passed next ok
      exact ⟨source, same, .inr ⟨via, first, second⟩⟩

/-! ### Chains -/

theorem MergesWithin.succ {n : Nat} {tree : Tree Event} (within : MergesWithin defs n tree) :
    MergesWithin defs (n + 1) tree := by
  induction n generalizing tree with
  | zero =>
      intro source merges
      rw [MergesWithin, merges.merging] at within
      cases within
  | succ n ih => exact fun source merges => ih (within source merges)

theorem Tree.exists_mergeKeyed {tree : Tree Event} (merging : tree.merging = true) :
    ∃ pair ∈ tree.pairs, mergeKeyed pair = true := by
  simp only [Tree.merging, Bool.and_eq_true, List.any_eq_true] at merging
  exact merging.2

theorem Evolves.not_merging {tree tree' : Tree Event} (evolves : Evolves latest tree tree')
    (plain : tree.merging = false) : tree'.merging = false := by
  by_contra merging
  rw [Bool.not_eq_false] at merging
  have isMap := evolves.type_eq ▸ Tree.merging_type merging
  obtain ⟨pair', inside, keyed⟩ := Tree.exists_mergeKeyed merging
  have found : ∃ pair ∈ tree.pairs, mergeKeyed pair = true := by
    cases evolves with
    | skipped => exact ⟨pair', inside, keyed⟩
    | copied =>
        obtain ⟨pair, here, rfl⟩ := mem_pairs_copied inside
        exact ⟨pair, here, mergeKeyed_copy pair ▸ keyed⟩
    | passed ok =>
        obtain ⟨pair, here, head, _⟩ := mem_pairs_plain ok plain inside
        refine ⟨pair, here, ?_⟩
        rw [mergeKeyed, ← head_mergeTree head]
        exact keyed
  obtain ⟨pair, here, keyed'⟩ := found
  rw [Tree.merging_of_pair isMap here keyed'] at plain
  cases plain

theorem MergesWithin.evolves (next : Successor latest defs defs') {n : Nat}
    {tree tree' : Tree Event} (within : MergesWithin defs n tree)
    (evolves : Evolves latest tree tree') : MergesWithin defs' n tree' := by
  induction n generalizing tree tree' with
  | zero => exact evolves.not_merging within
  | succ n ih =>
      intro source' merges
      obtain ⟨source, same, direct | ⟨via, first, second⟩⟩ := merges.evolves next evolves
      · exact ih (within source direct) same
      · exact ih ((within via first).succ source second) same

theorem MergesWithin.passed (next : Successor latest defs defs') {n : Nat}
    {tree tree' : Tree Event} (within : MergesWithin defs (n + 1) tree)
    (ok : mergeTree latest tree = some tree') : MergesWithin defs' n tree' := by
  cases n with
  | zero =>
      cases merging : tree.merging with
      | false => exact (Evolves.passed ok).not_merging merging
      | true =>
          refine Bool.eq_false_iff.mpr fun merging' => ?_
          obtain ⟨pair', inside, keyed⟩ := Tree.exists_mergeKeyed merging'
          rcases mem_mergedPairs (mergeTree_merging ok merging) inside with
            ⟨_, explicit⟩ | ⟨sources, found, via, inSources, original, here, rfl⟩
          · rw [keyed] at explicit
            cases explicit
          · have merges := merges_of_sourcesOf next (Tree.merging_type merging) found inSources
            have plain : via.merging = false := within via merges
            rw [mergeKeyed_copy] at keyed
            rw [Tree.merging_of_pair merges.source_type here keyed] at plain
            cases plain
  | succ n =>
      intro source' merges
      obtain ⟨via, source, first, second, same⟩ := merges.passed next ok
      exact (within via first source second).evolves next same

/-! ### Contents -/

/-- Where an explicit entry of a tree after a pass comes from. -/
theorem Evolves.explicit (next : Successor latest defs defs') {tree tree' : Tree Event}
    (evolves : Evolves latest tree tree') (isMap : tree.head.type = .mappingStart)
    {pair' : Pair} (inside : pair' ∈ tree'.pairs) (explicit : mergeKeyed pair' = false) :
    ∃ holder, (holder = tree ∨ Merges defs tree holder) ∧
      holder.head.type = .mappingStart ∧ ∃ pair ∈ holder.pairs, mergeKeyed pair = false ∧
        Evolves latest pair.1 pair'.1 ∧ Evolves latest pair.2 pair'.2 := by
  cases evolves with
  | skipped =>
      exact ⟨tree, .inl rfl, isMap, pair', inside, explicit, .skipped _, .skipped _⟩
  | copied =>
      obtain ⟨pair, here, rfl⟩ := mem_pairs_copied inside
      exact ⟨tree, .inl rfl, isMap, pair, here, mergeKeyed_copy pair ▸ explicit, .copied _,
        .copied _⟩
  | passed ok =>
      cases merging : tree.merging with
      | false =>
          obtain ⟨pair, here, head, value⟩ := mem_pairs_plain ok merging inside
          refine ⟨tree, .inl rfl, isMap, pair, here, ?_, .passed head, .passed value⟩
          rw [mergeKeyed, ← head_mergeTree head]
          exact explicit
      | true =>
          rcases mem_mergedPairs (mergeTree_merging ok merging) inside with
            ⟨here, _⟩ | ⟨sources, found, via, inSources, original, here, rfl⟩
          · exact ⟨tree, .inl rfl, isMap, pair', here, explicit, .skipped _, .skipped _⟩
          · have merges := merges_of_sourcesOf next isMap found inSources
            exact ⟨via, .inr merges, merges.source_type, original, here,
              mergeKeyed_copy original ▸ explicit, .copied _, .copied _⟩

theorem Brings.evolves (next : Successor latest defs defs') {tree tree' node' : Tree Event}
    (evolves : Evolves latest tree tree') (brings : Brings defs' tree' node') :
    ∃ node, Brings defs tree node ∧ Evolves latest node node' := by
  induction brings generalizing tree with
  | key isMap inside explicit =>
      obtain ⟨holder, which, isMap', pair, here, explicit', head, _⟩ :=
        evolves.explicit next (evolves.type_eq ▸ isMap) inside explicit
      rcases which with rfl | merges
      · exact ⟨pair.1, .key isMap' here explicit', head⟩
      · exact ⟨pair.1, .source merges (.key isMap' here explicit'), head⟩
  | value isMap inside explicit =>
      obtain ⟨holder, which, isMap', pair, here, explicit', _, value⟩ :=
        evolves.explicit next (evolves.type_eq ▸ isMap) inside explicit
      rcases which with rfl | merges
      · exact ⟨pair.2, .value isMap' here explicit', value⟩
      · exact ⟨pair.2, .source merges (.value isMap' here explicit'), value⟩
  | source merges _ ih =>
      obtain ⟨source, same, direct | ⟨via, first, second⟩⟩ := merges.evolves next evolves
      · obtain ⟨node, brings, grown⟩ := ih same
        exact ⟨node, .source direct brings, grown⟩
      · obtain ⟨node, brings, grown⟩ := ih same
        exact ⟨node, .source first (.source second brings), grown⟩

/-! ### Settling -/

theorem Settles.of_children {n : Nat} {tree : Tree Event}
    (notMap : tree.head.type ≠ .mappingStart)
    (all : ∀ child ∈ tree.children, Settles defs n child) : Settles defs n tree := by
  cases tree with
  | leaf evt => exact .leaf n evt
  | node start children stop => exact .node notMap all

theorem Settles.of_mapping {n chain inner : Nat} {tree : Tree Event}
    (isMap : tree.head.type = .mappingStart) (within : MergesWithin defs chain tree)
    (contents : ∀ node, Brings defs tree node → Settles defs inner node)
    (enough : chain + inner ≤ n) : Settles defs n tree := by
  cases tree with
  | leaf evt => exact .leaf n evt
  | node start children stop => exact .mapping isMap within contents enough

theorem Evolves.leaf {evt : Event} {tree' : Tree Event}
    (evolves : Evolves latest (.leaf evt) tree') : ∃ evt', tree' = .leaf evt' := by
  cases evolves with
  | skipped => exact ⟨evt, rfl⟩
  | copied => exact ⟨evt.copy, rfl⟩
  | passed ok => exact ⟨evt, by simpa [mergeTree] using ok.symm⟩

theorem Settles.evolves (next : Successor latest defs defs') {n : Nat}
    {tree tree' : Tree Event} (settles : Settles defs n tree)
    (evolves : Evolves latest tree tree') : Settles defs' n tree' := by
  induction settles generalizing tree' with
  | leaf n evt =>
      obtain ⟨evt', rfl⟩ := evolves.leaf
      exact .leaf n evt'
  | node notMap _ ih =>
      refine .of_children (by rw [evolves.type_eq]; exact notMap) fun child' member => ?_
      obtain ⟨child, inside, same⟩ := evolves.child notMap member
      exact ih child inside same
  | mapping isMap within _ enough ih =>
      refine .of_mapping (by rw [evolves.type_eq]; exact isMap) (within.evolves next evolves)
        (fun node' brings => ?_) enough
      obtain ⟨node, brings', same⟩ := brings.evolves next evolves
      exact ih node brings' same

/-- A pass over a tree leaves one pass less to do. -/
theorem Settles.passed (next : Successor latest defs defs') {n : Nat}
    {tree tree' : Tree Event} (settles : Settles defs (n + 1) tree)
    (ok : mergeTree latest tree = some tree') : Settles defs' n tree' := by
  generalize whole : n + 1 = m at settles
  induction settles generalizing n tree' with
  | leaf m evt =>
      obtain ⟨evt', rfl⟩ := (Evolves.passed ok).leaf
      exact .leaf n evt'
  | @node m start children stop notMap all ih =>
      refine .of_children (by rw [head_mergeTree ok]; exact notMap) fun child' member => ?_
      have plain : (Tree.node start children stop).merging = false := by
        simp [Tree.merging, Tree.head, notMap]
      obtain ⟨child, inside, passed⟩ := Forall₂.mem_right (mergeTree_plain ok plain) member
      exact ih child inside passed whole
  | @mapping m chain inner start children stop isMap within contents enough ih =>
      have isMap' : tree'.head.type = .mappingStart := by rw [head_mergeTree ok]; exact isMap
      cases chain with
      | succ chain =>
          refine .of_mapping isMap' (within.passed next ok) (fun node' brings => ?_)
            (by omega : chain + inner ≤ n)
          obtain ⟨node, brings', same⟩ := brings.evolves next (.passed ok)
          exact (contents node brings').evolves next same
      | zero =>
          have within' := within.evolves next (.passed ok)
          have plain : (Tree.node start children stop).merging = false := within
          have grown (node' : Tree Event) (brings : Brings defs' tree' node') :
              ∃ node, Brings defs (.node start children stop) node ∧
                mergeTree latest node = some node' := by
            cases brings with
            | key _ inside explicit =>
                obtain ⟨pair, here, head, _⟩ := mem_pairs_plain ok plain inside
                refine ⟨pair.1, .key isMap here ?_, head⟩
                rw [mergeKeyed, ← head_mergeTree head]
                exact explicit
            | value _ inside explicit =>
                obtain ⟨pair, here, head, value⟩ := mem_pairs_plain ok plain inside
                refine ⟨pair.2, .value isMap here ?_, value⟩
                rw [mergeKeyed, ← head_mergeTree head]
                exact explicit
            | source merges _ =>
                have merging := merges.merging
                rw [(Evolves.passed ok).not_merging plain] at merging
                cases merging
          cases inner with
          | zero =>
              refine .of_mapping isMap' within' (fun node' brings => ?_)
                (by omega : 0 + 0 ≤ n)
              obtain ⟨node, brings', passed⟩ := grown node' brings
              exact (contents node brings').evolves next (.passed passed)
          | succ inner =>
              refine .of_mapping isMap' within' (fun node' brings => ?_)
                (by omega : 0 + inner ≤ n)
              obtain ⟨node, brings', passed⟩ := grown node' brings
              exact ih node brings' passed rfl

theorem Tree.hasMergingList_eq_false {trees : List (Tree Event)} :
    Tree.hasMergingList trees = false ↔ ∀ tree ∈ trees, tree.hasMerging = false := by
  induction trees with
  | nil => simp [Tree.hasMergingList]
  | cons tree trees ih => simp [Tree.hasMergingList, ih]

theorem Settles.not_hasMerging {tree : Tree Event} (settles : Settles defs 0 tree)
    (paired : tree.Paired) : tree.hasMerging = false := by
  generalize none : 0 = n at settles
  induction settles with
  | leaf => rfl
  | node notMap _ ih =>
      have inner := Tree.pairedList_iff.mp paired.2
      simp only [Tree.hasMerging, Tree.merging, Tree.head, notMap, Bool.or_eq_false_iff,
        Bool.and_eq_false_iff, beq_eq_false_iff_ne, ne_eq, not_false_eq_true, true_or, true_and]
      exact Tree.hasMergingList_eq_false.mpr fun child member =>
        ih child member (inner child member) none
  | @mapping n chain inner start children stop isMap within _ enough ih =>
      obtain rfl : chain = 0 := by omega
      obtain rfl : inner = 0 := by omega
      have plain : (Tree.node start children stop).merging = false := within
      have below := Tree.pairedList_iff.mp paired.2
      rw [Tree.hasMerging, plain, Bool.false_or]
      refine Tree.hasMergingList_eq_false.mpr fun child member => ?_
      rw [← unpair_pairsOf (paired.1 isMap)] at member
      obtain ⟨pair, inside, which⟩ := mem_unpair.mp member
      have explicit : mergeKeyed pair = false := by
        by_contra keyed
        have merging : (Tree.node start children stop).merging = true :=
          Tree.merging_of_pair isMap inside (by simpa using keyed)
        rw [merging] at plain
        cases plain
      obtain ⟨left, right⟩ := mem_of_mem_pairsOf inside
      rcases which with rfl | rfl
      · exact ih pair.1 (.key isMap inside explicit) (below _ left) rfl
      · exact ih pair.2 (.value isMap inside explicit) (below _ right) rfl

end

end Oyl
