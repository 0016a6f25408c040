import Oyl.Expand.MergeRule
import Mathlib.Data.List.Forall2

/-!
# The merge rule across a pass

A pass keeps what the merge rule says about a tree, as long as of the merge
sources of each mapping that it rebuilds only the last one merges itself.
-/

namespace Oyl

/-- `<<` -/
def mergeText : Bytes := [less, less]

/-- The nodes in merge values that stand for merge sources. -/
def mergeCandidates (pairs : List Pair) : List (Tree Event) :=
  (pairs.filter mergeKeyed).flatMap fun pair => candidates pair.2

/-- A mapping whose merges a pass does in the right order: only the last of its sources merges
itself, with one merge key that no other key hides. -/
structure Tidy (latest : Bytes → Option (Tree Event)) (tree : Tree Event)
    (sources : List (Tree Event)) : Prop where
  found : sourcesOf latest tree.pairs = some sources
  plain : ∀ source ∈ sources.dropLast, source.merging = false
  single : ∀ source, sources.getLast? = some source → source.merging = true →
    (source.pairs.filter mergeKeyed).length = 1
  fresh : ∀ source, sources.getLast? = some source → source.merging = true →
    mergeText ∉ keyTexts (explicitPairs tree.pairs) ∧
      ∀ other ∈ sources, mergeText ∉ keyTexts (explicitPairs other.pairs)

/-- A tree after a pass: not reached by it, copied by it, or passed where it walks. -/
inductive Grows (latest : Bytes → Option (Tree Event)) (walked : Tree Event → Prop) :
    Tree Event → Tree Event → Prop
  | skipped (tree : Tree Event) : Grows latest walked tree tree
  | copied (tree : Tree Event) : Grows latest walked tree (tree.map Event.copy)
  | passed {tree tree' : Tree Event} : walked tree → mergeTree latest tree = some tree' →
      Grows latest walked tree tree'

theorem Grows.evolves {latest : Bytes → Option (Tree Event)} {walked : Tree Event → Prop}
    {tree tree' : Tree Event} (grows : Grows latest walked tree tree') :
    Evolves latest tree tree' := by
  cases grows with
  | skipped => exact .skipped tree
  | copied => exact .copied tree
  | passed _ ok => exact .passed ok

/-- The kept names still have their definitions after a pass. -/
def Follows (latest latest' : Bytes → Option (Tree Event)) (walked : Tree Event → Prop)
    (kept : Bytes → Prop) : Prop :=
  ∀ name tree, kept name → latest name = some tree →
    ∃ tree', latest' name = some tree' ∧ Grows latest walked tree tree'

/-- The definitions after a pass come from those before it. -/
def ComesFrom (latest latest' : Bytes → Option (Tree Event)) (walked : Tree Event → Prop) : Prop :=
  ∀ name tree', latest' name = some tree' →
    ∃ tree, latest name = some tree ∧ Grows latest walked tree tree'

def GrowsPair (latest : Bytes → Option (Tree Event)) (walked : Tree Event → Prop)
    (pair pair' : Pair) : Prop :=
  Grows latest walked pair.1 pair'.1 ∧ Grows latest walked pair.2 pair'.2

/-! ### Keys -/

theorem keyText_of_mergeKeyed {pair : Pair} (keyed : mergeKeyed pair = true) :
    keyText pair.1 = some mergeText := by
  simp only [mergeKeyed, isMergeKey, Bool.and_eq_true, beq_iff_eq] at keyed
  simp [keyText, keyed.1.1, keyed.2, mergeText]

section

variable {latest latest' : Bytes → Option (Tree Event)} {walked : Tree Event → Prop}
  {kept : Bytes → Prop}

theorem Grows.keyText_eq {tree tree' : Tree Event} (grows : Grows latest walked tree tree') :
    keyText tree' = keyText tree := by
  rw [keyText, keyText, grows.evolves.type_eq, grows.evolves.value_eq]

theorem growsPair_refl (pair : Pair) : GrowsPair latest walked pair pair :=
  ⟨.skipped _, .skipped _⟩

theorem growsPair_copy (pair : Pair) : GrowsPair latest walked pair pair.copy :=
  ⟨.copied _, .copied _⟩

theorem forall₂_unpair {pairs pairs' : List Pair}
    (all : List.Forall₂ (GrowsPair latest walked) pairs pairs') :
    List.Forall₂ (Grows latest walked) (unpair pairs) (unpair pairs') := by
  induction all with
  | nil => exact .nil
  | cons head _ ih => exact .cons head.1 (.cons head.2 ih)

theorem forall₂_dedup {pairs pairs' : List Pair}
    (all : List.Forall₂ (GrowsPair latest walked) pairs pairs') (seen : List Bytes) :
    List.Forall₂ (GrowsPair latest walked) (dedup seen pairs) (dedup seen pairs') := by
  induction all generalizing seen with
  | nil => exact .nil
  | @cons pair pair' rest rest' head _ ih =>
      simp only [dedup, head.1.keyText_eq]
      cases keyText pair.1 with
      | none => exact .cons head (ih seen)
      | some text =>
          dsimp only
          split
          · exact ih seen
          · exact .cons head (ih _)

theorem keyTexts_evolves {pairs pairs' : List Pair}
    (all : List.Forall₂ (GrowsPair latest walked) pairs pairs') :
    keyTexts pairs' = keyTexts pairs := by
  induction all with
  | nil => rfl
  | @cons pair pair' rest rest' head _ ih =>
      simp only [keyTexts, List.filterMap_cons, head.1.keyText_eq] at ih ⊢
      rw [ih]

theorem explicit_evolves {pairs pairs' : List Pair}
    (all : List.Forall₂ (GrowsPair latest walked) pairs pairs') :
    List.Forall₂ (GrowsPair latest walked) (explicitPairs pairs) (explicitPairs pairs') := by
  induction all with
  | nil => exact .nil
  | @cons pair pair' rest rest' head _ ih =>
      have same : mergeKeyed pair' = mergeKeyed pair := by
        rw [mergeKeyed, mergeKeyed, head.1.evolves.isMergeKey_eq]
      simp only [explicitPairs, List.filter_cons, same] at ih ⊢
      cases mergeKeyed pair with
      | true => simpa using ih
      | false => simpa using List.Forall₂.cons head ih

/-- Keys that are left out twice are left out once. -/
theorem dedup_dedup {seen inner : List Bytes} (covers : ∀ text ∈ inner, text ∈ seen)
    (pairs : List Pair) : dedup seen (dedup inner pairs) = dedup seen pairs := by
  induction pairs generalizing seen inner with
  | nil => rfl
  | cons pair pairs ih =>
      simp only [dedup]
      cases text : keyText pair.1 with
      | none => simp only [dedup, text, ih covers]
      | some key =>
          by_cases old : key ∈ inner
          · simp [old, covers key old, ih covers]
          · simp only [List.contains_iff_mem, old, if_false, dedup, text]
            by_cases there : key ∈ seen
            · simp only [there, if_true]
              exact ih fun other member =>
                (List.mem_append.mp member).elim (covers other)
                  fun same => List.mem_singleton.mp same ▸ there
            · simp only [there, if_false]
              congr 1
              exact ih fun other member => by
                rcases List.mem_append.mp member with earlier | same
                · exact List.mem_append_left _ (covers other earlier)
                · exact List.mem_append_right _ same

/-- No explicit key reads like a merge key. -/
def Unhidden (pairs : List Pair) : Prop :=
  ∀ pair ∈ pairs, mergeKeyed pair = false → keyText pair.1 ≠ some mergeText

theorem dedup_explicit {pairs : List Pair} (unhidden : Unhidden pairs)
    (seen seen' : List Bytes) (same : ∀ text, text ≠ mergeText → (text ∈ seen ↔ text ∈ seen')) :
    explicitPairs (dedup seen pairs) = dedup seen' (explicitPairs pairs) := by
  induction pairs generalizing seen seen' with
  | nil => rfl
  | cons pair pairs ih =>
      have rest : Unhidden pairs := fun p member => unhidden p (List.mem_cons_of_mem pair member)
      cases keyed : mergeKeyed pair with
      | true =>
          have text := keyText_of_mergeKeyed keyed
          simp only [dedup, text, explicitPairs, List.filter_cons, keyed]
          split
          · simpa [explicitPairs] using ih rest seen seen' same
          · simpa [explicitPairs, keyed] using ih rest _ seen' fun other different => by
              simp [same other different, different]
      | false =>
          have differs := unhidden pair List.mem_cons_self keyed
          simp only [explicitPairs, List.filter_cons, keyed, Bool.not_false, if_true, dedup]
          cases text : keyText pair.1 with
          | none => simpa [explicitPairs, keyed] using ih rest seen seen' same
          | some key =>
              have other : key ≠ mergeText := fun equal => differs (by rw [text, equal])
              by_cases old : key ∈ seen
              · have old' := (same key other).mp old
                simpa [explicitPairs, old, old'] using ih rest seen seen' same
              · have old' : key ∉ seen' := fun member => old ((same key other).mpr member)
                simpa [explicitPairs, old, old', keyed] using
                  ih rest (seen ++ [key]) (seen' ++ [key])
                    fun text different => by simp [same text different]

/-- Of several merge keys the first is kept. -/
theorem dedup_keyed {pairs : List Pair} (unhidden : Unhidden pairs) (seen : List Bytes) :
    (dedup seen pairs).filter mergeKeyed =
      if mergeText ∈ seen then [] else (pairs.filter mergeKeyed).take 1 := by
  induction pairs generalizing seen with
  | nil => simp [dedup]
  | cons pair pairs ih =>
      have rest : Unhidden pairs := fun p member => unhidden p (List.mem_cons_of_mem pair member)
      cases keyed : mergeKeyed pair with
      | true =>
          have text := keyText_of_mergeKeyed keyed
          by_cases old : mergeText ∈ seen
          · simp [dedup, text, old, ih rest]
          · simp [dedup, text, old, ih rest, keyed]
      | false =>
          have differs := unhidden pair List.mem_cons_self keyed
          simp only [dedup, List.filter_cons, keyed]
          cases text : keyText pair.1 with
          | none => simpa [keyed] using ih rest seen
          | some key =>
              have other : mergeText ≠ key := fun equal => differs (by rw [text, equal])
              by_cases old : key ∈ seen
              · simpa [old] using ih rest seen
              · simpa [old, keyed, other] using ih rest (seen ++ [key])

/-! ### Sources after a pass -/

theorem sourcesOf_eq (pairs : List Pair) :
    sourcesOf latest pairs = (mergeCandidates pairs).mapM (sourceOf latest) := rfl

theorem candidates_copy (value : Tree Event) :
    candidates (value.map Event.copy) = (candidates value).map (Tree.map Event.copy) := by
  rw [candidates, candidates, Tree.head_map, children_map]
  by_cases isSeq : value.head.type = .sequenceStart <;> simp [Event.copy, isSeq]

theorem mergeCandidates_copy (pairs : List Pair) :
    mergeCandidates (pairs.map Pair.copy) =
      (mergeCandidates pairs).map (Tree.map Event.copy) := by
  induction pairs with
  | nil => rfl
  | cons pair pairs ih =>
      simp only [mergeCandidates, List.map_cons, List.filter_cons, mergeKeyed_copy] at ih ⊢
      cases mergeKeyed pair with
      | false => simpa using ih
      | true =>
          simp only [if_true, List.flatMap_cons, List.map_append, ih]
          rw [Pair.copy, candidates_copy]

theorem sourceOf_grows (follows : Follows latest latest' walked kept)
    {candidate candidate' source : Tree Event} (grows : Grows latest walked candidate candidate')
    (stays : candidate.head.type = .alias → kept candidate.head.value)
    (stands : sourceOf latest candidate = some source) :
    ∃ source', sourceOf latest' candidate' = some source' ∧
      Grows latest walked source source' := by
  obtain ⟨isMap, rfl | ⟨isAlias, defined⟩⟩ := sourceOf_eq_some stands
  · refine ⟨candidate', ?_, grows⟩
    rw [sourceOf, grows.evolves.type_eq, isMap]
    rfl
  · obtain ⟨source', defined', same⟩ := follows _ source (stays isAlias) defined
    refine ⟨source', ?_, same⟩
    rw [sourceOf, grows.evolves.type_eq, grows.evolves.value_eq, isAlias, defined']
    simp [Option.filter, same.evolves.type_eq, isMap]

theorem sources_grow (follows : Follows latest latest' walked kept) {list list' : List (Tree Event)}
    (grow : List.Forall₂ (Grows latest walked) list list')
    (stay : ∀ candidate ∈ list, candidate.head.type = .alias → kept candidate.head.value)
    {sources : List (Tree Event)} (found : list.mapM (sourceOf latest) = some sources) :
    ∃ sources', list'.mapM (sourceOf latest') = some sources' ∧
      List.Forall₂ (Grows latest walked) sources sources' := by
  induction grow generalizing sources with
  | nil =>
      obtain rfl : [] = sources := by simpa using found
      exact ⟨[], rfl, .nil⟩
  | @cons candidate candidate' list list' head _ ih =>
      rw [List.mapM_cons] at found
      obtain ⟨first, here, others⟩ := Option.bind_eq_some_iff.mp found
      obtain ⟨rest, there, same⟩ := Option.bind_eq_some_iff.mp others
      obtain rfl : first :: rest = sources := by simpa using same
      obtain ⟨first', here', grown⟩ :=
        sourceOf_grows follows head (stay candidate List.mem_cons_self) here
      obtain ⟨rest', there', more⟩ :=
        ih (fun c member => stay c (List.mem_cons_of_mem _ member)) there
      refine ⟨first' :: rest', ?_, .cons grown more⟩
      rw [List.mapM_cons, here', there']
      rfl

/-- The sources after a pass come from sources before it. -/
theorem sources_from (comes : ComesFrom latest latest' walked) {list list' : List (Tree Event)}
    (grow : List.Forall₂ (Grows latest walked) list list')
    {sources' : List (Tree Event)} (found' : list'.mapM (sourceOf latest') = some sources') :
    ∃ sources, list.mapM (sourceOf latest) = some sources ∧
      List.Forall₂ (Grows latest walked) sources sources' := by
  induction grow generalizing sources' with
  | nil =>
      obtain rfl : [] = sources' := by simpa using found'
      exact ⟨[], rfl, .nil⟩
  | @cons candidate candidate' list list' head _ ih =>
      rw [List.mapM_cons] at found'
      obtain ⟨first', here', others⟩ := Option.bind_eq_some_iff.mp found'
      obtain ⟨rest', there', same⟩ := Option.bind_eq_some_iff.mp others
      obtain rfl : first' :: rest' = sources' := by simpa using same
      obtain ⟨rest, there, more⟩ := ih there'
      have one : ∃ first, sourceOf latest candidate = some first ∧
          Grows latest walked first first' := by
        obtain ⟨isMap, rfl | ⟨isAlias, defined⟩⟩ := sourceOf_eq_some here'
        · refine ⟨candidate, ?_, head⟩
          rw [sourceOf, ← head.evolves.type_eq, isMap]
          rfl
        · obtain ⟨first, defined', grown⟩ := comes _ first' defined
          rw [head.evolves.type_eq] at isAlias
          rw [head.evolves.value_eq] at defined'
          refine ⟨first, ?_, grown⟩
          rw [sourceOf, isAlias, defined']
          simp [Option.filter, ← grown.evolves.type_eq, isMap]
      obtain ⟨first, here, grown⟩ := one
      refine ⟨first :: rest, ?_, .cons grown more⟩
      rw [List.mapM_cons, here, there]
      rfl

theorem candidates_copied (tree : Tree Event) :
    List.Forall₂ (Grows latest walked) (mergeCandidates tree.pairs)
      (mergeCandidates (tree.map Event.copy).pairs) := by
  rw [pairs_map_copy, mergeCandidates_copy]
  exact List.forall₂_map_right_iff.mpr (List.forall₂_same.mpr fun c _ => .copied c)

theorem filter_keyed_plain {tree : Tree Event} (isMap : tree.head.type = .mappingStart)
    (plain : tree.merging = false) : tree.pairs.filter mergeKeyed = [] := by
  rw [List.filter_eq_nil_iff]
  intro pair member keyed
  rw [Tree.merging_of_pair isMap member keyed] at plain
  cases plain

theorem explicitPairs_plain {tree : Tree Event} (isMap : tree.head.type = .mappingStart)
    (plain : tree.merging = false) : explicitPairs tree.pairs = tree.pairs := by
  rw [explicitPairs, List.filter_eq_self]
  intro pair member
  by_contra keyed
  rw [Tree.merging_of_pair isMap member (by simpa using keyed)] at plain
  cases plain

theorem sourcesOf_plain {tree : Tree Event} (isMap : tree.head.type = .mappingStart)
    (plain : tree.merging = false) : sourcesOf latest tree.pairs = some [] := by
  rw [sourcesOf, filter_keyed_plain isMap plain]
  rfl

theorem MergedPairs.of_plain {tree : Tree Event} (isMap : tree.head.type = .mappingStart)
    (plain : tree.merging = false) : MergedPairs latest tree tree.pairs := by
  have entries : MergedPairs latest tree (explicitPairs tree.pairs ++
      dedup (keyTexts (explicitPairs tree.pairs)) [].flatten) :=
    .entries (sourcesOf_plain isMap plain) .nil
  simpa [explicitPairs_plain isMap plain, dedup] using entries

theorem MergedSources.of_plain {sources : List (Tree Event)}
    (maps : ∀ source ∈ sources, source.head.type = .mappingStart)
    (plain : ∀ source ∈ sources, source.merging = false) :
    MergedSources latest sources (sources.map Tree.pairs) := by
  induction sources with
  | nil => exact .nil
  | cons source sources ih =>
      exact .cons
        (.of_plain (maps source List.mem_cons_self) (plain source List.mem_cons_self))
        (ih (fun s member => maps s (List.mem_cons_of_mem _ member))
          fun s member => plain s (List.mem_cons_of_mem _ member))

theorem MergedSources.append {left right : List (Tree Event)} {lists lists' : List (List Pair)}
    (first : MergedSources latest left lists) (second : MergedSources latest right lists') :
    MergedSources latest (left ++ right) (lists ++ lists') := by
  induction left generalizing lists with
  | nil => cases first; exact second
  | cons source left ih =>
      cases first with
      | cons head rest => exact .cons head (ih rest)

theorem source_types {pairs : List Pair} {sources : List (Tree Event)}
    (found : sourcesOf latest pairs = some sources) :
    ∀ source ∈ sources, source.head.type = .mappingStart := by
  intro source member
  obtain ⟨_, _, _, candidate, _, stands⟩ := mem_sourcesOf found member
  exact (sourceOf_eq_some stands).1

/-! ### Rebuilt mappings -/

theorem explicitPairs_append (left right : List Pair) :
    explicitPairs (left ++ right) = explicitPairs left ++ explicitPairs right :=
  List.filter_append left right

theorem explicitPairs_copy (pairs : List Pair) :
    explicitPairs (pairs.map Pair.copy) = (explicitPairs pairs).map Pair.copy := by
  induction pairs with
  | nil => rfl
  | cons pair pairs ih =>
      simp only [explicitPairs, List.map_cons, List.filter_cons, mergeKeyed_copy] at ih ⊢
      cases mergeKeyed pair <;> simp [ih]

theorem explicitPairs_idem (pairs : List Pair) :
    explicitPairs (explicitPairs pairs) = explicitPairs pairs := by
  simp [explicitPairs, List.filter_filter]

theorem filter_keyed_explicit (pairs : List Pair) :
    (explicitPairs pairs).filter mergeKeyed = [] := by
  simp [explicitPairs, List.filter_filter]

theorem filter_keyed_copy (pairs : List Pair) :
    (pairs.map Pair.copy).filter mergeKeyed = (pairs.filter mergeKeyed).map Pair.copy := by
  induction pairs with
  | nil => rfl
  | cons pair pairs ih =>
      simp only [List.map_cons, List.filter_cons, mergeKeyed_copy]
      cases mergeKeyed pair <;> simp [ih]

/-- The last source of a tidy mapping merges, or none does. -/
theorem Tidy.last {tree : Tree Event} {sources : List (Tree Event)}
    (tidy : Tidy latest tree sources) :
    (∀ source ∈ sources, source.merging = false) ∨
      ∃ front source pair, sources = front ++ [source] ∧
        (∀ other ∈ front, other.merging = false) ∧ source.merging = true ∧
        source.pairs.filter mergeKeyed = [pair] := by
  rcases List.eq_nil_or_concat sources with rfl | ⟨front, source, rfl⟩
  · exact .inl (by simp)
  · have plain := tidy.plain
    have single := tidy.single source
    simp only [List.concat_eq_append, List.dropLast_concat, List.getLast?_concat] at plain single
    cases merging : source.merging with
    | false =>
        left
        intro other member
        rw [List.concat_eq_append, List.mem_append, List.mem_singleton] at member
        exact member.elim (plain other) fun same => same ▸ merging
    | true =>
        obtain ⟨pair, one⟩ := List.length_eq_one_iff.mp (single trivial merging)
        exact .inr ⟨front, source, pair, by rw [List.concat_eq_append], plain, merging, one⟩

theorem Tidy.rebuilt {tree tree' : Tree Event} {sources : List (Tree Event)}
    (tidy : Tidy latest tree sources) (ok : mergeTree latest tree = some tree')
    (merging : tree.merging = true) :
    tree'.pairs = explicitPairs tree.pairs ++
      (dedup (keyTexts (explicitPairs tree.pairs)) (sources.flatMap Tree.pairs)).map
        Pair.copy := by
  have merged := mergeTree_merging ok merging
  rw [mergedPairs, tidy.found, Option.map_some, Option.some.injEq] at merged
  exact merged.symm

theorem flatMap_plain {sources : List (Tree Event)}
    (maps : ∀ source ∈ sources, source.head.type = .mappingStart)
    (plain : ∀ source ∈ sources, source.merging = false) :
    explicitPairs (sources.flatMap Tree.pairs) = sources.flatMap Tree.pairs := by
  induction sources with
  | nil => rfl
  | cons source sources ih =>
      rw [List.flatMap_cons, explicitPairs_append,
        explicitPairs_plain (maps source List.mem_cons_self) (plain source List.mem_cons_self),
        ih (fun s member => maps s (List.mem_cons_of_mem _ member))
          fun s member => plain s (List.mem_cons_of_mem _ member)]

/-- A rebuilt mapping whose sources do not merge has no merge keys. -/
theorem Tidy.rebuilt_plain {tree tree' : Tree Event} {sources : List (Tree Event)}
    (tidy : Tidy latest tree sources) (ok : mergeTree latest tree = some tree')
    (merging : tree.merging = true) (plain : ∀ source ∈ sources, source.merging = false) :
    tree'.merging = false := by
  rw [Tree.merging, head_mergeTree ok, Tree.merging_type merging, tidy.rebuilt ok merging]
  simp only [beq_self_eq_true, Bool.true_and, List.any_eq_false]
  intro pair member keyed
  rcases List.mem_append.mp member with explicit | inherited
  · simp [explicitPairs, keyed] at explicit
  · obtain ⟨original, kept', rfl⟩ := List.mem_map.mp inherited
    obtain ⟨source, among, inside⟩ := List.mem_flatMap.mp (mem_of_mem_dedup kept')
    have isMap := source_types tidy.found source among
    rw [mergeKeyed_copy] at keyed
    have merges := Tree.merging_of_pair isMap inside keyed
    rw [plain source among] at merges
    cases merges

section

variable {tree tree' source : Tree Event} {front : List (Tree Event)} {pair : Pair}
  (tidy : Tidy latest tree (front ++ [source])) (ok : mergeTree latest tree = some tree')
  (merging : tree.merging = true) (plain : ∀ other ∈ front, other.merging = false)
  (merges : source.merging = true) (single : source.pairs.filter mergeKeyed = [pair])

include tidy merges

theorem Tidy.unhidden : mergeText ∉ keyTexts (explicitPairs tree.pairs) ∧
    Unhidden ((front ++ [source]).flatMap Tree.pairs) := by
  obtain ⟨own, others⟩ := tidy.fresh source (by simp) merges
  refine ⟨own, fun p member explicit text => ?_⟩
  obtain ⟨other, among, inside⟩ := List.mem_flatMap.mp member
  refine others other among (List.mem_filterMap.mpr ⟨p, ?_, text⟩)
  simp [explicitPairs, inside, explicit]

include ok merging plain

/-- The explicit entries of a mapping rebuilt from a source that merges. -/
theorem Tidy.rebuilt_explicit :
    explicitPairs tree'.pairs = explicitPairs tree.pairs ++
      (dedup (keyTexts (explicitPairs tree.pairs))
        (front.flatMap Tree.pairs ++ explicitPairs source.pairs)).map Pair.copy := by
  have types := source_types tidy.found
  have before : explicitPairs (front.flatMap Tree.pairs) = front.flatMap Tree.pairs :=
    flatMap_plain (fun s member => types s (List.mem_append_left _ member)) plain
  rw [tidy.rebuilt ok merging, explicitPairs_append, explicitPairs_idem, explicitPairs_copy,
    dedup_explicit (tidy.unhidden merges).2 _ _ fun _ _ => Iff.rfl, List.flatMap_append,
    explicitPairs_append, before]
  simp

include single

/-- Its merge key is the source's. -/
theorem Tidy.rebuilt_keyed : tree'.pairs.filter mergeKeyed = [pair.copy] := by
  obtain ⟨own, unhidden⟩ := tidy.unhidden merges
  have types := source_types tidy.found
  have before : (front.flatMap Tree.pairs).filter mergeKeyed = [] := by
    rw [← flatMap_plain (fun s member => types s (List.mem_append_left _ member)) plain]
    exact filter_keyed_explicit _
  rw [tidy.rebuilt ok merging, List.filter_append, filter_keyed_explicit, List.nil_append,
    filter_keyed_copy, dedup_keyed unhidden, if_neg own, List.flatMap_append,
    List.filter_append, before]
  simp [single]

theorem Tidy.rebuilt_candidates :
    mergeCandidates tree'.pairs = (mergeCandidates source.pairs).map (Tree.map Event.copy) := by
  rw [← mergeCandidates_copy, mergeCandidates, mergeCandidates,
    tidy.rebuilt_keyed ok merging plain merges single, filter_keyed_copy, single]
  rfl

end

end

end Oyl
