import Oyl.Expand.MergeDocument
import Oyl.Logic.StateError

/-!
# Merge expansion on trees

`resolve_merges` as the passes on the trees of a document: at most 32 of them,
up to the first that finds no merge key.
-/

namespace Oyl

open StateError

/-! ### Shape -/

theorem pairsOf_unpair (pairs : List Pair) : pairsOf (unpair pairs) = pairs := by
  induction pairs with
  | nil => rfl
  | cons pair pairs ih => simp [unpair, pairsOf, ih]

theorem unpair_pairsOf {children : List (Tree Event)} (even : children.length % 2 = 0) :
    unpair (pairsOf children) = children := by
  induction children using pairsOf_induction with
  | pair key value rest ih =>
      simp only [List.length_cons] at even
      simp [pairsOf, unpair, ih (by omega)]
  | nil => rfl
  | single tree => simp at even

theorem mem_unpair {pairs : List Pair} {tree : Tree Event} :
    tree ∈ unpair pairs ↔ ∃ pair ∈ pairs, tree = pair.1 ∨ tree = pair.2 := by
  induction pairs with
  | nil => simp [unpair]
  | cons pair pairs ih => simp [unpair, ih, or_assoc]

theorem mem_of_mem_pairsOf {children : List (Tree Event)} {pair : Pair}
    (member : pair ∈ pairsOf children) : pair.1 ∈ children ∧ pair.2 ∈ children := by
  induction children using pairsOf_induction with
  | pair key value rest ih =>
      rcases List.mem_cons.mp member with rfl | later
      · simp
      · obtain ⟨left, right⟩ := ih later
        simp [left, right]
  | nil => simp [pairsOf] at member
  | single tree => simp [pairsOf] at member

theorem length_unpair (pairs : List Pair) : (unpair pairs).length % 2 = 0 := by
  induction pairs with
  | nil => rfl
  | cons pair pairs ih =>
      simp only [unpair, List.length_cons]
      omega

theorem mem_of_mem_dedup {seen : List Bytes} {pairs : List Pair} {pair : Pair}
    (member : pair ∈ dedup seen pairs) : pair ∈ pairs := by
  induction pairs generalizing seen with
  | nil => simp [dedup] at member
  | cons first rest ih =>
      simp only [dedup] at member
      cases text : keyText first.1 with
      | none =>
          simp only [text, List.mem_cons] at member
          exact member.elim (fun same => same ▸ List.mem_cons_self)
            fun later => List.mem_cons_of_mem _ (ih later)
      | some key =>
          simp only [text] at member
          split at member
          · exact List.mem_cons_of_mem _ (ih member)
          · exact (List.mem_cons.mp member).elim (fun same => same ▸ List.mem_cons_self)
              fun later => List.mem_cons_of_mem _ (ih later)

/-- The entries of a rebuilt mapping: an explicit one, or the copy of a
source's. -/
theorem mem_mergedPairs {defs : Bytes → Option (Tree Event)} {pairs merged : List Pair}
    (ok : mergedPairs defs pairs = some merged) {pair : Pair} (member : pair ∈ merged) :
    (pair ∈ pairs ∧ mergeKeyed pair = false) ∨
      ∃ sources, sourcesOf defs pairs = some sources ∧
        ∃ source ∈ sources, ∃ original ∈ source.pairs, pair = original.copy := by
  obtain ⟨sources, found, rfl⟩ := Option.map_eq_some_iff.mp ok
  rcases List.mem_append.mp member with explicit | inherited
  · left
    simpa using explicit
  · right
    obtain ⟨original, kept, rfl⟩ := List.mem_map.mp inherited
    obtain ⟨source, inSources, entry⟩ := List.mem_flatMap.mp (mem_of_mem_dedup kept)
    exact ⟨sources, found, source, inSources, original, entry, rfl⟩

theorem mapM_eq_some_mem {α β : Type} {f : α → Option β} {list : List α} {out : List β}
    (ok : list.mapM f = some out) {b : β} (member : b ∈ out) : ∃ a ∈ list, f a = some b := by
  induction list generalizing out with
  | nil =>
      obtain rfl : out = [] := by simpa using ok.symm
      simp at member
  | cons a list ih =>
      rw [List.mapM_cons] at ok
      obtain ⟨first, here, others⟩ := Option.bind_eq_some_iff.mp ok
      obtain ⟨rest, there, same⟩ := Option.bind_eq_some_iff.mp others
      obtain rfl : first :: rest = out := by simpa using same
      rcases List.mem_cons.mp member with rfl | later
      · exact ⟨a, List.mem_cons_self, here⟩
      · obtain ⟨other, inside, found⟩ := ih there later
        exact ⟨other, List.mem_cons_of_mem a inside, found⟩

/-- A merge source is written in the mapping's entries. -/
theorem mem_sourcesOf {defs : Bytes → Option (Tree Event)} {pairs : List Pair}
    {sources : List (Tree Event)} (ok : sourcesOf defs pairs = some sources)
    {source : Tree Event} (member : source ∈ sources) :
    ∃ pair ∈ pairs, mergeKeyed pair = true ∧
      ∃ candidate ∈ candidates pair.2, sourceOf defs candidate = some source := by
  obtain ⟨candidate, inside, stands⟩ := mapM_eq_some_mem ok member
  obtain ⟨pair, keyed, value⟩ := List.mem_flatMap.mp inside
  rw [List.mem_filter] at keyed
  exact ⟨pair, keyed.1, keyed.2, candidate, value, stands⟩

theorem sourceOf_eq_some {defs : Bytes → Option (Tree Event)} {candidate source : Tree Event}
    (stands : sourceOf defs candidate = some source) :
    source.head.type = .mappingStart ∧
      (candidate = source ∨
        candidate.head.type = .alias ∧ defs candidate.head.value = some source) := by
  simp only [sourceOf] at stands
  split at stands
  · rename_i isMap
    cases stands
    exact ⟨by simpa using isMap, .inl rfl⟩
  · split at stands
    · rename_i isAlias
      obtain ⟨defined, isMap⟩ := Option.filter_eq_some_iff.mp stands
      exact ⟨by simpa using isMap, .inr ⟨by simpa using isAlias, defined⟩⟩
    · cases stands

theorem mem_candidates {value candidate : Tree Event} (member : candidate ∈ candidates value) :
    candidate = value ∨ candidate ∈ value.children := by
  simp only [candidates] at member
  split at member
  · exact .inr member
  · exact .inl (List.mem_singleton.mp member)

mutual

theorem Tree.Paired.map_copy (tree : Tree Event) (paired : tree.Paired) :
    (tree.map Event.copy).Paired := by
  cases tree with
  | leaf evt => trivial
  | node start children stop =>
      refine ⟨fun isMap => ?_, Tree.PairedList.map_copy children paired.2⟩
      have even := paired.1 isMap
      rw [Tree.mapList_eq_map, List.length_map]
      exact even

theorem Tree.PairedList.map_copy (trees : List (Tree Event))
    (paired : Tree.PairedList trees) :
    Tree.PairedList (Tree.mapList Event.copy trees) := by
  cases trees with
  | nil => trivial
  | cons tree trees =>
      exact ⟨Tree.Paired.map_copy tree paired.1, Tree.PairedList.map_copy trees paired.2⟩

end

theorem EventTree.map_copy {tree : Tree Event} (shaped : EventTree tree) :
    EventTree (tree.map Event.copy) :=
  Tree.Shaped.map (fun _ leaf => leaf.copy) (fun _ _ pair => pair.copy) tree shaped

/-- A property of trees that a pass keeps. -/
structure Kept (P : Tree Event → Prop) : Prop where
  child : ∀ start children stop, P (.node start children stop) → ∀ tree ∈ children, P tree
  copy : ∀ tree, P tree → P (tree.map Event.copy)
  rebuild : ∀ start children children' stop, P (.node start children stop) →
    (∀ tree ∈ children', P tree) →
    (start.type = .mappingStart → children.length % 2 = 0 → children'.length % 2 = 0) →
    P (.node start children' stop)

namespace Kept

variable {P : Tree Event → Prop} {defs : Bytes → Option (Tree Event)}

theorem source (kept : Kept P) (inDefs : ∀ name tree, defs name = some tree → P tree)
    {children : List (Tree Event)} (here : ∀ tree ∈ children, P tree)
    {sources : List (Tree Event)} (ok : sourcesOf defs (pairsOf children) = some sources)
    {source : Tree Event} (member : source ∈ sources) : P source := by
  obtain ⟨pair, inside, _, candidate, among, stands⟩ := mem_sourcesOf ok member
  have value := here pair.2 (mem_of_mem_pairsOf inside).2
  have good : P candidate := by
    rcases mem_candidates among with rfl | deeper
    · exact value
    · cases whole : pair.2 with
      | leaf evt => simp [whole, Tree.children] at deeper
      | node start inner stop =>
          rw [whole] at value deeper
          exact kept.child start inner stop value candidate deeper
  rcases (sourceOf_eq_some stands).2 with rfl | ⟨_, defined⟩
  · exact good
  · exact inDefs _ _ defined

theorem mergedPairs (kept : Kept P)
    (inDefs : ∀ name tree, defs name = some tree → P tree)
    {children : List (Tree Event)} (here : ∀ tree ∈ children, P tree)
    {pairs : List Pair} (ok : mergedPairs defs (pairsOf children) = some pairs) :
    ∀ tree ∈ unpair pairs, P tree := by
  intro tree member
  obtain ⟨pair, inside, which⟩ := mem_unpair.mp member
  have both : P pair.1 ∧ P pair.2 := by
    rcases mem_mergedPairs ok inside with
      ⟨explicit, _⟩ | ⟨sources, found, source, among, original, entry, rfl⟩
    · obtain ⟨left, right⟩ := mem_of_mem_pairsOf explicit
      exact ⟨here _ left, here _ right⟩
    · have origin := kept.source inDefs here found among
      cases source with
      | leaf evt => simp [Tree.pairs, Tree.children, pairsOf] at entry
      | node start inner stop =>
          obtain ⟨left, right⟩ := mem_of_mem_pairsOf entry
          exact ⟨kept.copy _ (kept.child start inner stop origin _ left),
            kept.copy _ (kept.child start inner stop origin _ right)⟩
  rcases which with rfl | rfl
  · exact both.1
  · exact both.2

mutual

theorem mergeTree (kept : Kept P) (inDefs : ∀ name tree, defs name = some tree → P tree)
    (tree : Tree Event) (here : P tree) {tree' : Tree Event}
    (ok : mergeTree defs tree = some tree') : P tree' := by
  cases tree with
  | leaf evt =>
      obtain rfl : Tree.leaf evt = tree' := by simpa [Oyl.mergeTree] using ok
      exact here
  | node start children stop =>
      have inner := kept.child start children stop here
      rw [Oyl.mergeTree] at ok
      split at ok
      · obtain ⟨pairs, merged, rfl⟩ := Option.map_eq_some_iff.mp ok
        exact kept.rebuild start children _ stop here (kept.mergedPairs inDefs inner merged)
          fun _ _ => length_unpair pairs
      · obtain ⟨children', merged, rfl⟩ := Option.map_eq_some_iff.mp ok
        obtain ⟨all, length⟩ := mergeTrees kept inDefs children inner merged
        exact kept.rebuild start children _ stop here all fun _ even => length ▸ even

theorem mergeTrees (kept : Kept P) (inDefs : ∀ name tree, defs name = some tree → P tree)
    (trees : List (Tree Event)) (here : ∀ tree ∈ trees, P tree)
    {trees' : List (Tree Event)} (ok : mergeTrees defs trees = some trees') :
    (∀ tree ∈ trees', P tree) ∧ trees'.length = trees.length := by
  cases trees with
  | nil =>
      obtain rfl : [] = trees' := by simpa [Oyl.mergeTrees] using ok
      simp
  | cons tree trees =>
      rw [Oyl.mergeTrees] at ok
      obtain ⟨first, head, others⟩ := Option.bind_eq_some_iff.mp ok
      obtain ⟨rest, tail, rfl⟩ := Option.map_eq_some_iff.mp others
      have left := mergeTree kept inDefs tree (here tree List.mem_cons_self) head
      have right := mergeTrees kept inDefs trees
        (fun t m => here t (List.mem_cons_of_mem tree m)) tail
      exact ⟨fun t m => (List.mem_cons.mp m).elim (fun same => same ▸ left) (right.1 t),
        by simp [right.2]⟩

end

end Kept

theorem kept_eventTree : Kept EventTree where
  child _ _ _ shaped := Tree.shapedList_iff.mp shaped.2
  copy _ shaped := shaped.map_copy
  rebuild _ _ _ _ shaped inner _ := ⟨shaped.1, Tree.shapedList_iff.mpr inner⟩

theorem kept_paired : Kept Tree.Paired where
  child _ _ _ paired := Tree.pairedList_iff.mp paired.2
  copy tree paired := Tree.Paired.map_copy tree paired
  rebuild _ _ _ _ paired inner even :=
    ⟨fun isMap => even isMap (paired.1 isMap), Tree.pairedList_iff.mpr inner⟩

/-! ### Passes over a document -/

/-- The trees of an event list. -/
structure Forest (events : List Event) (trees : List (Tree Event)) : Prop where
  flat : events = Tree.flattenList trees
  shaped : EventTrees trees
  paired : Tree.PairedList trees

theorem definition_mem {trees : List (Tree Event)} {name : Bytes} {tree : Tree Event}
    (defined : definition trees name = some tree) :
    (name, tree) ∈ anchoredTrees trees := by
  obtain ⟨d, found, rfl⟩ := Option.map_eq_some_iff.mp defined
  have named : d.1 = name := by simpa using List.find?_some found
  have member := List.mem_of_find?_eq_some found
  rw [List.mem_reverse] at member
  rwa [← named]

/-- One pass over the trees of a document. -/
def passTrees (trees : List (Tree Event)) : Option (List (Tree Event)) :=
  mergeTrees (definition trees) trees

theorem Forest.passTrees {events : List Event} {trees trees' : List (Tree Event)}
    (forest : Forest events trees) (ok : passTrees trees = some trees') :
    Forest (Tree.flattenList trees') trees' := by
  have shapedDefs : ∀ name tree, definition trees name = some tree → EventTree tree :=
    fun name tree defined => Tree.ShapedList.subtrees trees forest.shaped tree
      (mem_anchoredTrees.mp (definition_mem defined)).1
  have pairedDefs : ∀ name tree, definition trees name = some tree → tree.Paired :=
    fun name tree defined => Tree.PairedList.subtrees trees forest.paired tree
      (mem_anchoredTrees.mp (definition_mem defined)).1
  exact ⟨rfl,
    Tree.shapedList_iff.mpr
      (kept_eventTree.mergeTrees shapedDefs trees (Tree.shapedList_iff.mp forest.shaped) ok).1,
    Tree.pairedList_iff.mpr
      (kept_paired.mergeTrees pairedDefs trees (Tree.pairedList_iff.mp forest.paired) ok).1⟩

/-- A pass of the code is a pass over the trees. -/
theorem mergePass_agrees {events : List Event} {trees : List (Tree Event)}
    (forest : Forest events trees) (limit : Int) :
    match Oyl.passTrees trees with
    | none => Fails (mergePass events limit)
    | some trees' =>
        let out := (EvtBuf.init events.length limit).pushAll (Tree.flattenList trees')
        if out.oom then Fails (mergePass events limit)
        else mergePass events limit = .ok (out, Tree.hasMergingList trees) := by
  obtain ⟨rfl, shaped, paired⟩ := forest
  have table := tableFor_document shaped paired
  have lies : LiesAt (Tree.flattenList trees) 0 trees := ⟨[], [], by simp, rfl⟩
  have loop := mergePassFrom_trees table trees shaped paired false lies (Nat.le_refl _)
    (rfl : (EvtBuf.init (Tree.flattenList trees).length limit).oom = false)
  rw [Oyl.passTrees]
  cases merged : mergeTrees (definition trees) trees with
  | none =>
      rw [merged] at loop
      exact loop
  | some trees' =>
      rw [merged] at loop
      simp only [Resumes, Option.map_some, Nat.sub_zero, Nat.zero_add, Bool.false_or] at loop
      dsimp only
      by_cases full : ((EvtBuf.init (Tree.flattenList trees).length limit).pushAll
          (Tree.flattenList trees')).oom = true
      · rw [if_pos full] at loop ⊢
        exact loop
      · rw [if_neg full] at loop ⊢
        obtain ⟨fuel, _, result⟩ := loop
        rw [mergePass, result]
        cases fuel <;> simp [mergePassFrom]

/-! ### Runs of passes -/

/-- Up to `n` passes, until one finds no merge key. -/
def expandMerges : Nat → List (Tree Event) → Option (List (Tree Event))
  | 0, trees => some trees
  | n + 1, trees =>
      (passTrees trees).bind fun trees' =>
        if Tree.hasMergingList trees then expandMerges n trees' else some trees

/-- What up to `n` passes write stays within the limit. -/
def FitsPasses (limit : Int) : Nat → List (Tree Event) → Prop
  | 0, _ => True
  | n + 1, trees => ∀ trees', passTrees trees = some trees' →
      ((Tree.flattenList trees').length : Int) ≤ limit ∧
        (Tree.hasMergingList trees = true → FitsPasses limit n trees')

/-- The passes of the code, where they succeed, are passes over the trees that stay
within the limit, and change nothing but the events. -/
theorem mergePasses_spec {limit : Int} {n : Nat} {p p' : Parser} {trees : List (Tree Event)}
    (forest : Forest p.events trees) (ok : mergePasses limit n p = .ok () p') :
    ∃ trees' cursor, expandMerges n trees = some trees' ∧
      p' = { p with events := Tree.flattenList trees', evtCursor := cursor } ∧
      Forest p'.events trees' ∧ (0 < limit → FitsPasses limit n trees) := by
  induction n generalizing p trees with
  | zero =>
      rw [mergePasses, run_pure] at ok
      cases ok
      exact ⟨trees, p'.evtCursor, rfl, by rw [← forest.flat], forest, fun _ => trivial⟩
  | succ n ih =>
      have pass := mergePass_agrees forest limit
      simp only [mergePasses, run_bind, run_get] at ok
      cases result : mergePass p.events limit with
      | error failure =>
          simp [result, run_bind, run_set, throwStatus, run_throw] at ok
      | ok value =>
          obtain ⟨out, changed⟩ := value
          cases full : out.oom with
          | true =>
              simp only [result, full, if_true] at ok
              exact absurd ok (expansionFailed_stops _)
          | false =>
              cases merged : passTrees trees with
              | none =>
                  rw [merged, result] at pass
                  simp [Fails, full] at pass
              | some trees' =>
                  rw [merged, result] at pass
                  dsimp only at pass
                  split at pass
                  · simp [Fails, full] at pass
                  rename_i room
                  cases pass
                  have written := EvtBuf.pushAll_of_room (by simpa using room)
                  have short (positive : 0 < limit) :
                      ((Tree.flattenList trees').length : Int) ≤ limit := by
                    have within := EvtBuf.pushAll_within
                      (b := .init p.events.length limit) (Tree.flattenList trees') positive
                      (Int.le_of_lt positive)
                    rw [written] at within
                    exact within
                  simp only [result, full, written, EvtBuf.init_data, List.nil_append,
                    Bool.false_eq_true, if_false, run_ite, run_bind, run_set, run_pure] at ok
                  cases changed : Tree.hasMergingList trees with
                  | false =>
                      rw [changed] at ok
                      cases ok
                      refine ⟨trees, p'.evtCursor, by simp [expandMerges, merged, changed],
                        by rw [← forest.flat], forest, fun positive next isNext => ?_⟩
                      obtain rfl : trees' = next := Option.some.inj (merged.symm.trans isNext)
                      exact ⟨short positive, fun merging =>
                        Bool.noConfusion (changed.symm.trans merging)⟩
                  | true =>
                      rw [changed] at ok
                      have next : Forest
                          { p with events := Tree.flattenList trees', evtCursor := 0 }.events
                          trees' := forest.passTrees merged
                      obtain ⟨last, cursor, expanded, isLast, ended, fits⟩ := ih next ok
                      refine ⟨last, cursor, by simp [expandMerges, merged, changed, expanded],
                        isLast, ended, fun positive found isFound => ?_⟩
                      obtain rfl : trees' = found := Option.some.inj (merged.symm.trans isFound)
                      exact ⟨short positive, fun _ => fits positive⟩

theorem mergePasses_ok {limit : Int} {n : Nat} {p p' : Parser} {trees : List (Tree Event)}
    (forest : Forest p.events trees) (ok : mergePasses limit n p = .ok () p') :
    ∃ trees', expandMerges n trees = some trees' ∧ Forest p'.events trees' := by
  obtain ⟨trees', _, expanded, _, ended, _⟩ := mergePasses_spec forest ok
  exact ⟨trees', expanded, ended⟩

/-- The code's passes succeed where the passes over the trees do and neither the limit
nor half of the range of `int` is reached. -/
theorem mergePasses_fits {limit : Int} {n : Nat} {p : Parser} {trees trees' : List (Tree Event)}
    (forest : Forest p.events trees) (expanded : expandMerges n trees = some trees')
    (fits : FitsPasses (min limit (intMax / 2)) n trees) :
    ∃ p', mergePasses limit n p = .ok () p' ∧ p'.events = Tree.flattenList trees' := by
  induction n generalizing p trees with
  | zero =>
      cases expanded
      exact ⟨p, rfl, forest.flat⟩
  | succ n ih =>
      obtain ⟨next, merged, rest⟩ := Option.bind_eq_some_iff.mp expanded
      obtain ⟨short, later⟩ := fits next merged
      have pass := mergePass_agrees forest limit
      rw [merged] at pass
      obtain ⟨within, small⟩ := Int.le_min.mp short
      obtain ⟨written, room, _⟩ := EvtBuf.pushAll_of_fits (b := .init p.events.length limit)
        (Tree.flattenList next) rfl (by simpa using within)
        (by simpa using small)
      simp only [room, Bool.false_eq_true, if_false] at pass
      simp only [mergePasses, run_bind, run_get, pass, room, written, EvtBuf.init_data,
        List.nil_append, Bool.false_eq_true, if_false, run_ite, run_set, run_pure]
      cases changed : Tree.hasMergingList trees with
      | false =>
          rw [changed] at rest
          cases rest
          exact ⟨p, rfl, forest.flat⟩
      | true =>
          rw [changed] at rest
          have step : Forest { p with events := Tree.flattenList next, evtCursor := 0 }.events
              next := forest.passTrees merged
          exact ih step rest (later changed)

end Oyl
