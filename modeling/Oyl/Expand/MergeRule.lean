import Oyl.Expand.MergeExpansion

/-!
# The merge rule

What merge keys mean: a mapping has its own entries, and of its merge sources,
each with its own merges done, the entries whose scalar keys are not there yet.
-/

namespace Oyl

/-- The entries of a mapping that are not merge keys. -/
def explicitPairs (pairs : List Pair) : List Pair := pairs.filter fun pair => !mergeKeyed pair

mutual

/-- The entries of a mapping with all its merges done. -/
inductive MergedPairs (latest : Bytes → Option (Tree Event)) : Tree Event → List Pair → Prop
  | entries {tree : Tree Event} {sources : List (Tree Event)} {lists : List (List Pair)} :
      sourcesOf latest tree.pairs = some sources → MergedSources latest sources lists →
      MergedPairs latest tree (explicitPairs tree.pairs ++
        dedup (keyTexts (explicitPairs tree.pairs)) lists.flatten)

inductive MergedSources (latest : Bytes → Option (Tree Event)) :
    List (Tree Event) → List (List Pair) → Prop
  | nil : MergedSources latest [] []
  | cons {source : Tree Event} {sources : List (Tree Event)} {pairs : List Pair}
      {lists : List (List Pair)} : MergedPairs latest source pairs →
      MergedSources latest sources lists →
      MergedSources latest (source :: sources) (pairs :: lists)

end

mutual

/-- A tree with all merges done at every depth, without anchors. -/
inductive Merged (latest : Bytes → Option (Tree Event)) : Tree Event → Tree Event → Prop
  | leaf (evt : Event) : Merged latest (.leaf evt) (.leaf evt.copy)
  | node {start : Event} {children children' : List (Tree Event)} {stop : Event} :
      start.type ≠ .mappingStart → MergedTrees latest children children' →
      Merged latest (.node start children stop) (.node start.copy children' stop.copy)
  | mapping {start : Event} {children children' : List (Tree Event)} {stop : Event}
      {pairs : List Pair} : start.type = .mappingStart →
      MergedPairs latest (.node start children stop) pairs →
      MergedTrees latest (unpair pairs) children' →
      Merged latest (.node start children stop) (.node start.copy children' stop.copy)

inductive MergedTrees (latest : Bytes → Option (Tree Event)) :
    List (Tree Event) → List (Tree Event) → Prop
  | nil : MergedTrees latest [] []
  | cons {tree tree' : Tree Event} {trees trees' : List (Tree Event)} :
      Merged latest tree tree' → MergedTrees latest trees trees' →
      MergedTrees latest (tree :: trees) (tree' :: trees')

end

section

variable {latest : Bytes → Option (Tree Event)}

/-! ### The rule is a function -/

mutual

theorem MergedPairs.unique {tree : Tree Event} {left right : List Pair} :
    MergedPairs latest tree left → MergedPairs latest tree right → left = right
  | .entries found lists, .entries found' lists' => by
      cases found.symm.trans found'
      rw [lists.unique lists']

theorem MergedSources.unique {sources : List (Tree Event)} {left right : List (List Pair)} :
    MergedSources latest sources left → MergedSources latest sources right → left = right
  | .nil, .nil => rfl
  | .cons head rest, .cons head' rest' => by rw [head.unique head', rest.unique rest']

end

mutual

theorem Merged.unique {tree left right : Tree Event} :
    Merged latest tree left → Merged latest tree right → left = right
  | .leaf _, .leaf _ => rfl
  | .node _ children, .node _ children' => by rw [children.unique children']
  | .node notMap _, .mapping isMap _ _ => absurd isMap notMap
  | .mapping isMap _ _, .node notMap _ => absurd isMap notMap
  | .mapping _ pairs children, .mapping _ pairs' children' => by
      cases pairs.unique pairs'
      rw [children.unique children']

theorem MergedTrees.unique {trees left right : List (Tree Event)} :
    MergedTrees latest trees left → MergedTrees latest trees right → left = right
  | .nil, .nil => rfl
  | .cons head rest, .cons head' rest' => by rw [head.unique head', rest.unique rest']

end

/-! ### Lookups -/

/-- The value of a scalar key. -/
def lookupText (text : Bytes) (pairs : List Pair) : Option (Tree Event) :=
  (pairs.find? fun pair => keyText pair.1 == some text).map (·.2)

theorem lookupText_append (text : Bytes) (left right : List Pair) :
    lookupText text (left ++ right) = (lookupText text left).or (lookupText text right) := by
  rw [lookupText, List.find?_append]
  cases found : left.find? fun pair => keyText pair.1 == some text <;>
    simp [lookupText, found]

theorem lookupText_eq_none {text : Bytes} {pairs : List Pair} :
    lookupText text pairs = none ↔ text ∉ keyTexts pairs := by
  simp only [lookupText, Option.map_eq_none_iff, List.find?_eq_none, keyTexts,
    List.mem_filterMap, beq_iff_eq]
  exact ⟨fun none ⟨pair, member, same⟩ => none pair member same,
    fun none pair member same => none ⟨pair, member, same⟩⟩

theorem lookupText_dedup {text : Bytes} (pairs : List Pair) {seen : List Bytes}
    (fresh : text ∉ seen) : lookupText text (dedup seen pairs) = lookupText text pairs := by
  induction pairs generalizing seen with
  | nil => rfl
  | cons pair pairs ih =>
      simp only [dedup]
      cases found : keyText pair.1 with
      | none => simpa [lookupText, List.find?_cons, found] using ih fresh
      | some other =>
          by_cases same : other = text
          · subst same
            simp [fresh, lookupText, found]
          · by_cases old : other ∈ seen
            · simpa [old, lookupText, List.find?_cons, found, same] using ih fresh
            · have fresh' : text ∉ seen ++ [other] := by
                simp [fresh, Ne.symm same]
              simpa [old, lookupText, List.find?_cons, found, same] using ih fresh'

theorem lookupText_flatten (text : Bytes) (lists : List (List Pair)) :
    lookupText text lists.flatten = lists.findSome? (lookupText text) := by
  induction lists with
  | nil => rfl
  | cons pairs lists ih =>
      rw [List.flatten_cons, lookupText_append, ih, List.findSome?_cons]
      cases lookupText text pairs <;> rfl

/-- A key has the value of the mapping's own entry, else the one of the first
merge source that has it. -/
theorem MergedPairs.lookup {tree : Tree Event} {pairs : List Pair}
    (merged : MergedPairs latest tree pairs) (text : Bytes) :
    ∃ sources lists, sourcesOf latest tree.pairs = some sources ∧
      MergedSources latest sources lists ∧
      lookupText text pairs = (lookupText text (explicitPairs tree.pairs)).or
        (lists.findSome? (lookupText text)) := by
  cases merged with
  | @entries _ sources lists found merged =>
      refine ⟨sources, lists, found, merged, ?_⟩
      rw [lookupText_append]
      cases own : lookupText text (explicitPairs tree.pairs) with
      | some value => rfl
      | none =>
          rw [lookupText_dedup _ (lookupText_eq_none.mp own), lookupText_flatten]

/-! ### Lookups in the result -/

theorem Merged.head {tree tree' : Tree Event} (merged : Merged latest tree tree') :
    tree'.head = tree.head.copy := by
  cases merged <;> rfl

theorem Merged.keyText {key key' : Tree Event} (merged : Merged latest key key') :
    keyText key' = keyText key := by
  rw [Oyl.keyText, Oyl.keyText, merged.head]
  rfl

mutual

/-- Whatever lies in the result is the result of something. -/
theorem Merged.subtrees {tree tree' sub' : Tree Event} :
    Merged latest tree tree' → sub' ∈ tree'.subtrees → ∃ sub, Merged latest sub sub'
  | .leaf evt, member => by
      rw [List.mem_singleton.mp member]
      exact ⟨_, .leaf evt⟩
  | .node notMap inner, member => by
      rcases List.mem_cons.mp member with rfl | below
      · exact ⟨_, .node notMap inner⟩
      · exact inner.subtrees below
  | .mapping isMap pairs inner, member => by
      rcases List.mem_cons.mp member with rfl | below
      · exact ⟨_, .mapping isMap pairs inner⟩
      · exact inner.subtrees below

theorem MergedTrees.subtrees {trees trees' : List (Tree Event)} {sub' : Tree Event} :
    MergedTrees latest trees trees' → sub' ∈ Tree.subtreesList trees' →
      ∃ sub, Merged latest sub sub'
  | .nil, member => by cases member
  | .cons head rest, member => by
      rcases List.mem_append.mp member with first | others
      · exact head.subtrees first
      · exact rest.subtrees others

end

end

end Oyl
