import Oyl.Expand.MergeTrees

/-!
# Merge passes refine the pass on trees

The loops of `resolve_merges` walk a mapping by positions.  On the linear form
of trees they visit its entries, so a pass over the list is a pass over the
trees, as far as the output buffer has room.
-/

namespace Oyl

/-! ### Entries -/

/-- An entry of the walk is an entry of the tree. -/
structure EntryAt (events : List Event) (e : Entry) (pair : Pair) : Prop where
  lies : LiesAt events e.keyStart [pair.1, pair.2]
  shapedKey : EventTree pair.1
  shapedValue : EventTree pair.2
  pairedValue : pair.2.Paired
  valStart : e.valStart = e.keyStart + pair.1.flatten.length
  valEnd : e.valEnd = e.valStart + pair.2.flatten.length

theorem nodeEnd_pos (tree : Tree Event) (pos : Nat) : pos < pos + tree.flatten.length := by
  have := tree.flatten_length_pos
  omega

theorem entriesFrom_pairs {events : List Event} (children : List (Tree Event))
    (shaped : EventTrees children) (paired : Tree.PairedList children)
    (even : children.length % 2 = 0) (pos fuel : Nat)
    (enough : children.length ≤ fuel) (lies : LiesAt events pos children) :
    List.Forall₂ (EntryAt events)
      (entriesFrom events (pos + (Tree.flattenList children).length) fuel pos)
      (pairsOf children) := by
  induction children using pairsOf_induction generalizing pos fuel with
  | pair key value rest ih =>
      obtain ⟨fuel, rfl⟩ : ∃ n, fuel = n + 1 := ⟨fuel - 1, by simp at enough; omega⟩
      have inside : pos < pos + (Tree.flattenList (key :: value :: rest)).length := by
        have := key.flatten_length_pos
        simp only [Tree.flattenList, List.length_append]
        omega
      have keyEnd := lies.nodeEnd_eq shaped.1
      have valEnd := lies.tail.nodeEnd_eq shaped.2.1
      have others := ih shaped.2.2 paired.2.2 (by simp at even; omega)
        (pos + key.flatten.length + value.flatten.length) fuel
        (by simp at enough; omega) lies.tail.tail
      have stop : pos + (Tree.flattenList (key :: value :: rest)).length =
          pos + key.flatten.length + value.flatten.length +
            (Tree.flattenList rest).length := by
        simp only [Tree.flattenList, List.length_append]
        omega
      rw [stop] at inside ⊢
      simp only [entriesFrom, if_pos inside, keyEnd, valEnd, pairsOf]
      refine .cons ⟨?_, shaped.1, shaped.2.1, paired.2.1, rfl, rfl⟩ others
      obtain ⟨before, after, whole, here⟩ := lies
      exact ⟨before, Tree.flattenList rest ++ after,
        by simp [whole, Tree.flattenList], here⟩
  | nil => cases fuel <;> simp [entriesFrom, Tree.flattenList, pairsOf]
  | single tree => simp at even

/-- The walk over a mapping visits its entries. -/
theorem entries_pairs {events : List Event} {pos : Nat} {start stop : Event}
    {children others : List (Tree Event)}
    (lies : LiesAt events pos (.node start children stop :: others))
    (shaped : EventTree (.node start children stop))
    (paired : (Tree.node start children stop).Paired) (isMap : start.type = .mappingStart) :
    List.Forall₂ (EntryAt events)
      (entries events pos (pos + (Tree.node start children stop).flatten.length))
      (pairsOf children) := by
  have length : (Tree.node start children stop).flatten.length =
      (Tree.flattenList children).length + 2 := by simp [Tree.flatten]
  have count : children.length ≤ (Tree.flattenList children).length := by
    clear shaped paired lies length
    induction children with
    | nil => simp
    | cons tree trees ih =>
        have := tree.flatten_length_pos
        simp only [Tree.flattenList, List.length_append, List.length_cons]
        omega
  have last : pos + ((Tree.flattenList children).length + 2) - 1 =
      pos + 1 + (Tree.flattenList children).length := by omega
  rw [entries, length, last]
  exact entriesFrom_pairs children shaped.2 paired.2 (paired.1 isMap) (pos + 1) _
    (by omega) lies.first.inner

namespace EntryAt

variable {events : List Event} {e : Entry} {pair : Pair}

theorem key_eq (entry : EntryAt events e pair) : e.key events = pair.1.head :=
  entry.lies.eventAt_eq

theorem scalarKey_eq (entry : EntryAt events e pair) :
    e.scalarKey events = (keyText pair.1).isSome := by
  have here := entry.lies.eventAt_eq
  have size : e.valStart - e.keyStart = pair.1.flatten.length := by
    rw [entry.valStart]
    omega
  simp only [Entry.scalarKey, keyText, here, size]
  cases key : pair.1 with
  | leaf evt => by_cases isScalar : evt.type = .scalar <;> simp [Tree.flatten, Tree.head, isScalar]
  | node start children stop =>
      have shaped := entry.shapedKey
      rw [key] at shaped
      have notScalar : start.type ≠ .scalar := fun same => by
        simpa [same, EventType.opens] using shaped.1.opens
      simp [Tree.head, notScalar]

theorem slice_eq (entry : EntryAt events e pair) :
    slice events e.keyStart e.valEnd = pair.1.flatten ++ pair.2.flatten := by
  have segment := entry.lies.slice_eq
  have stop : e.keyStart + (Tree.flattenList [pair.1, pair.2]).length = e.valEnd := by
    rw [entry.valEnd, entry.valStart]
    simp [Tree.flattenList]
    omega
  rw [stop] at segment
  simpa [Tree.flattenList] using segment

theorem value (entry : EntryAt events e pair) : LiesAt events e.valStart [pair.2] := by
  have next := entry.lies.tail
  rwa [← entry.valStart] at next

end EntryAt

/-! ### Copying the entries of a source -/

/-- The keys seen after some entries. -/
def seenAfter : List Bytes → List Pair → List Bytes
  | seen, [] => seen
  | seen, pair :: rest =>
      match keyText pair.1 with
      | none => seenAfter seen rest
      | some text => seenAfter (ksetAdd seen text) rest

def flattenPairs (pairs : List Pair) : List Event := Tree.flattenList (unpair pairs)

theorem flattenPairs_cons (pair : Pair) (pairs : List Pair) :
    flattenPairs (pair :: pairs) = pair.1.flatten ++ pair.2.flatten ++ flattenPairs pairs := by
  simp [flattenPairs, unpair, Tree.flattenList]

theorem flattenPairs_append (left right : List Pair) :
    flattenPairs (left ++ right) = flattenPairs left ++ flattenPairs right := by
  induction left with
  | nil => rfl
  | cons pair left ih => simp [flattenPairs_cons, ih]

theorem flattenPairs_copy (pairs : List Pair) :
    flattenPairs (pairs.map Pair.copy) = (flattenPairs pairs).map Event.copy := by
  induction pairs with
  | nil => rfl
  | cons pair pairs ih =>
      simp [flattenPairs_cons, Pair.copy, Tree.flatten_map, ih]

/-- Copying the entries of one mapping. -/
theorem mergeEntries_eq {events : List Event} {list : List Entry} {pairs : List Pair}
    (entries : List.Forall₂ (EntryAt events) list pairs) (st : MergeState) :
    list.foldl (mergeEntry events) st =
      { out := st.out.pushAll (flattenPairs ((dedup st.seen pairs).map Pair.copy))
        seen := seenAfter st.seen pairs } := by
  induction entries generalizing st with
  | nil => rfl
  | @cons e pair list pairs entry _ ih =>
      rw [List.foldl_cons, ih]
      simp only [mergeEntry, entry.key_eq, entry.scalarKey_eq, entry.slice_eq, dedup,
        seenAfter]
      cases text : keyText pair.1 with
      | none =>
          simp [EvtBuf.pushAll_append, flattenPairs_cons, Pair.copy, Tree.flatten_map]
      | some text' =>
          have value : pair.1.head.value = text' := by
            by_cases isScalar : pair.1.head.type = .scalar
            · simpa [keyText, isScalar] using text
            · simp [keyText, isScalar] at text
          by_cases seen : text' ∈ st.seen
          · simp [value, seen, ksetAdd]
          · simp [value, seen, ksetAdd, EvtBuf.pushAll_append, flattenPairs_cons,
              Pair.copy, Tree.flatten_map]

theorem dedup_append (seen : List Bytes) (left right : List Pair) :
    dedup seen (left ++ right) = dedup seen left ++ dedup (seenAfter seen left) right := by
  induction left generalizing seen with
  | nil => rfl
  | cons pair left ih =>
      simp only [List.cons_append, dedup, seenAfter]
      cases text : keyText pair.1 with
      | none => simp [ih]
      | some text' =>
          by_cases member : text' ∈ seen
          · simp [member, ksetAdd, ih]
          · simp [member, ksetAdd, ih]

theorem seenAfter_append (seen : List Bytes) (left right : List Pair) :
    seenAfter seen (left ++ right) = seenAfter (seenAfter seen left) right := by
  induction left generalizing seen with
  | nil => rfl
  | cons pair left ih =>
      simp only [List.cons_append, seenAfter]
      cases keyText pair.1 with
      | none => exact ih seen
      | some text => exact ih _

/-- What copying the sources `sources` does to a state. -/
def MergeState.inherit (st : MergeState) (sources : List (Tree Event)) : MergeState :=
  { out := st.out.pushAll
      (flattenPairs ((dedup st.seen (sources.flatMap Tree.pairs)).map Pair.copy))
    seen := seenAfter st.seen (sources.flatMap Tree.pairs) }

theorem MergeState.inherit_nil (st : MergeState) : st.inherit [] = st := rfl

theorem MergeState.inherit_append (st : MergeState) (left right : List (Tree Event)) :
    (st.inherit left).inherit right = st.inherit (left ++ right) := by
  simp [MergeState.inherit, List.flatMap_append, dedup_append, seenAfter_append,
    EvtBuf.pushAll_append, flattenPairs_append]

/-! ### Sources -/

/-- The table finds the definitions where they lie. -/
structure TableFor (events : List Event) (anchors : List AnchorEntry)
    (defs : Bytes → Option (Tree Event)) : Prop where
  missing : ∀ name, atblLookup anchors name = none → defs name = none
  found : ∀ name idx, atblLookup anchors name = some idx →
    ∃ tree, defs name = some tree ∧ EventTree tree ∧ tree.Paired ∧
      LiesAt events (anchors.getD idx default).start [tree] ∧
      (anchors.getD idx default).stop =
        (anchors.getD idx default).start + tree.flatten.length

/-- The value of a fallible step, where the reference has one; otherwise the
step fails. -/
def AgreesWith {ε α β : Type} (actual : Except ε α) (expected : Option β) (f : β → α) :
    Prop :=
  match expected with
  | some b => actual = .ok (f b)
  | none => ∃ e, actual = .error e

theorem mapping_of_head {tree : Tree Event} (shaped : EventTree tree)
    (isMap : tree.head.type = .mappingStart) :
    ∃ start children stop, tree = .node start children stop := by
  cases tree with
  | leaf evt =>
      have leaf : EventLeaf evt := shaped
      have notOpens := leaf.opens
      rw [show evt.type = .mappingStart from isMap] at notOpens
      simp [EventType.opens] at notOpens
  | node start children stop => exact ⟨start, children, stop, rfl⟩

theorem mergeFromMapping_eq {events : List Event} {pos : Nat} {tree : Tree Event}
    (lies : LiesAt events pos [tree]) (shaped : EventTree tree) (paired : tree.Paired)
    (isMap : tree.head.type = .mappingStart) (st : MergeState) :
    mergeFromMapping events pos (pos + tree.flatten.length) st = st.inherit [tree] := by
  obtain ⟨start, children, stop, rfl⟩ := mapping_of_head shaped isMap
  have walk := entries_pairs lies shaped paired isMap
  rw [mergeFromMapping, mergeEntries_eq walk st]
  simp [MergeState.inherit, Tree.pairs, Tree.children]

/-- `merge_source` on the node that lies at `pos`. -/
theorem mergeSource_agrees {events : List Event} {anchors : List AnchorEntry}
    {defs : Bytes → Option (Tree Event)} (table : TableFor events anchors defs)
    {pos : Nat} {source : Tree Event} (lies : LiesAt events pos [source])
    (shaped : EventTree source) (paired : source.Paired) (st : MergeState) :
    AgreesWith (mergeSource events anchors pos st) (sourceOf defs source)
      fun mapping => st.inherit [mapping] := by
  have here := lies.eventAt_eq
  have extent := lies.nodeEnd_eq shaped
  simp only [mergeSource, here, extent, sourceOf]
  by_cases isMap : source.head.type = .mappingStart
  · simp only [isMap, beq_self_eq_true, if_true, AgreesWith]
    rw [mergeFromMapping_eq lies shaped paired isMap]
  · by_cases isAlias : source.head.type = .alias
    · simp only [isAlias, beq_self_eq_true, if_true]
      cases lookup : atblLookup anchors source.head.value with
      | none => simp [table.missing _ lookup, AgreesWith]
      | some idx =>
          obtain ⟨tree, defined, isTree, isPaired, liesTree, stop⟩ := table.found _ idx lookup
          dsimp only
          generalize anchors.getD idx default = anchor at liesTree stop ⊢
          have first := liesTree.eventAt_eq
          by_cases target : tree.head.type = .mappingStart
          · have copied := mergeFromMapping_eq liesTree isTree isPaired target st
            rw [← stop] at copied
            have kept : (defs source.head.value).filter
                (fun tree => tree.head.type == .mappingStart) = some tree := by
              simp [defined, Option.filter, target]
            simp [kept, first, target, copied, AgreesWith]
          · have dropped : (defs source.head.value).filter
                (fun tree => tree.head.type == .mappingStart) = none := by
              simp [defined, Option.filter, target]
            simp [dropped, first, target, AgreesWith]
    · cases type : source.head.type <;> simp_all [AgreesWith]

/-- The loop over the nodes of a sequence of sources. -/
theorem mergeSources_agrees {events : List Event} {anchors : List AnchorEntry}
    {defs : Bytes → Option (Tree Event)} (table : TableFor events anchors defs)
    (sources : List (Tree Event)) (shaped : EventTrees sources)
    (paired : Tree.PairedList sources) (pos fuel : Nat) (enough : sources.length ≤ fuel)
    (lies : LiesAt events pos sources) (st : MergeState) :
    AgreesWith
      (mergeSources events anchors (pos + (Tree.flattenList sources).length) fuel pos st)
      (sources.mapM (sourceOf defs)) st.inherit := by
  induction sources generalizing pos fuel st with
  | nil =>
      cases fuel <;> simp [mergeSources, Tree.flattenList, AgreesWith, MergeState.inherit_nil]
  | cons source sources ih =>
      obtain ⟨fuel, rfl⟩ : ∃ n, fuel = n + 1 := ⟨fuel - 1, by simp at enough; omega⟩
      have positive := source.flatten_length_pos
      have stop : pos + (Tree.flattenList (source :: sources)).length =
          pos + source.flatten.length + (Tree.flattenList sources).length := by
        simp only [Tree.flattenList, List.length_append]
        omega
      have inside : pos < pos + source.flatten.length + (Tree.flattenList sources).length := by
        omega
      have extent := lies.nodeEnd_eq shaped.1
      have head := mergeSource_agrees table lies.first shaped.1 paired.1 st
      rw [stop, mergeSources, if_pos inside, extent, List.mapM_cons]
      cases source' : sourceOf defs source with
      | none =>
          rw [source'] at head
          obtain ⟨e, failed⟩ := head
          exact ⟨e, by rw [failed]; rfl⟩
      | some mapping =>
          rw [source'] at head
          have ok : mergeSource events anchors pos st = .ok (st.inherit [mapping]) := head
          have rest := ih shaped.2 paired.2 (pos + source.flatten.length) fuel
            (by simp at enough; omega) lies.tail (st.inherit [mapping])
          rw [ok]
          cases others : sources.mapM (sourceOf defs) with
          | none =>
              rw [others] at rest
              exact rest
          | some mappings =>
              rw [others] at rest
              refine Eq.trans rest ?_
              rw [MergeState.inherit_append]
              rfl

/-- `process_merge_value` on an entry with a merge key. -/
theorem processMergeValue_agrees {events : List Event} {anchors : List AnchorEntry}
    {defs : Bytes → Option (Tree Event)} (table : TableFor events anchors defs)
    {e : Entry} {pair : Pair} (entry : EntryAt events e pair) (st : MergeState) :
    AgreesWith (processMergeValue events anchors e st)
      ((candidates pair.2).mapM (sourceOf defs)) st.inherit := by
  have lies := entry.value
  have here := lies.eventAt_eq
  simp only [processMergeValue, here, candidates]
  by_cases isSeq : pair.2.head.type = .sequenceStart
  · obtain ⟨start, children, stop, whole⟩ :
        ∃ start children stop, pair.2 = .node start children stop := by
      cases value : pair.2 with
      | leaf evt =>
          have leaf : EventLeaf evt := by
            have shaped := entry.shapedValue
            rwa [value] at shaped
          have notOpens := leaf.opens
          rw [value] at isSeq
          rw [show evt.type = .sequenceStart from isSeq] at notOpens
          simp [EventType.opens] at notOpens
      | node start children stop => exact ⟨start, children, stop, rfl⟩
    have shaped := entry.shapedValue
    have paired := entry.pairedValue
    have stop' := entry.valEnd
    rw [whole] at shaped paired stop' lies isSeq
    have length : (Tree.node start children stop).flatten.length =
        (Tree.flattenList children).length + 2 := by simp [Tree.flatten]
    have last : e.valEnd - 1 = e.valStart + 1 + (Tree.flattenList children).length := by
      omega
    have count : children.length ≤ (Tree.flattenList children).length := by
      clear * -
      induction children with
      | nil => simp
      | cons tree trees ih =>
          have := tree.flatten_length_pos
          simp only [Tree.flattenList, List.length_append, List.length_cons]
          omega
    simp only [whole, isSeq, bne_self_eq_false, Bool.false_eq_true, if_false,
      beq_self_eq_true, if_true, last, Tree.children]
    exact mergeSources_agrees table children shaped.2 paired.2 (e.valStart + 1) _ (by omega)
      lies.inner st
  · have single := mergeSource_agrees table lies entry.shapedValue entry.pairedValue st
    simp only [isSeq, bne_iff_ne, ne_eq, not_false_eq_true, if_true, beq_iff_eq, if_false]
    cases source : sourceOf defs pair.2 with
    | none =>
        rw [source] at single
        simpa [List.mapM_cons, source, AgreesWith] using single
    | some mapping =>
        rw [source] at single
        simpa [List.mapM_cons, source, AgreesWith] using single

end Oyl
