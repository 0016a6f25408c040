import Oyl.Expand.MergePass
import Mathlib.Data.List.Induction

/-!
# A merge pass over a document

The main loop of `resolve_merges`: what it writes is the linear form of the
trees after one pass, unless a source is invalid or the limit is reached.
-/

namespace Oyl

/-! ### Rebuilding a mapping -/

theorem dedup_congr {left right : List Bytes} (same : ∀ text, text ∈ left ↔ text ∈ right)
    (pairs : List Pair) : dedup left pairs = dedup right pairs := by
  induction pairs generalizing left right with
  | nil => rfl
  | cons pair pairs ih =>
      simp only [dedup]
      cases keyText pair.1 with
      | none => simp only [ih same]
      | some text =>
          have grown : ∀ other, other ∈ left ++ [text] ↔ other ∈ right ++ [text] :=
            fun other => by simp [same other]
          by_cases seen : text ∈ left
          · simp [seen, (same text).mp seen, ih same]
          · have seen' : text ∉ right := fun member => seen ((same text).mpr member)
            simp [seen, seen', ih grown]

theorem mem_seenAfter {seen : List Bytes} {pairs : List Pair} {text : Bytes} :
    text ∈ seenAfter seen pairs ↔ text ∈ seen ∨ text ∈ keyTexts pairs := by
  induction pairs generalizing seen with
  | nil => simp [seenAfter, keyTexts]
  | cons pair pairs ih =>
      simp only [seenAfter, keyTexts, List.filterMap_cons]
      cases found : keyText pair.1 with
      | none => exact ih
      | some other =>
          rw [ih]
          by_cases member : other ∈ seen
          · simp only [ksetAdd, List.contains_iff_mem, member, if_true, keyTexts, List.mem_cons]
            constructor
            · rintro (old | later)
              · exact .inl old
              · exact .inr (.inr later)
            · rintro (old | rfl | later)
              · exact .inl old
              · exact .inl member
              · exact .inr later
          · simp only [ksetAdd, List.contains_iff_mem, member, if_false, keyTexts,
              List.mem_cons, List.mem_append, List.not_mem_nil, or_false, or_assoc]

theorem sourcesOf_cons (defs : Bytes → Option (Tree Event)) (pair : Pair)
    (rest : List Pair) :
    sourcesOf defs (pair :: rest) =
      if mergeKeyed pair then
        ((candidates pair.2).mapM (sourceOf defs)).bind fun first =>
          (sourcesOf defs rest).map (first ++ ·)
      else sourcesOf defs rest := by
  by_cases keyed : mergeKeyed pair = true
  · simp only [sourcesOf, List.filter_cons, keyed, if_true, List.flatMap_cons,
      List.mapM_append]
    cases (candidates pair.2).mapM (sourceOf defs) with
    | none => rfl
    | some first =>
        cases ((rest.filter mergeKeyed).flatMap fun pair => candidates pair.2).mapM
          (sourceOf defs) <;> rfl
  · simp [sourcesOf, keyed]

section

variable {events : List Event} {anchors : List AnchorEntry}
variable {defs : Bytes → Option (Tree Event)}

theorem isMergeKey_key {e : Entry} {pair : Pair} (entry : EntryAt events e pair) :
    isMergeKey (e.key events) = mergeKeyed pair := by
  rw [entry.key_eq, mergeKeyed]

/-- The walk over the merge keys of a mapping. -/
theorem processMergeKeys_agrees (table : TableFor events anchors defs)
    {list : List Entry} {pairs : List Pair}
    (entries : List.Forall₂ (EntryAt events) list pairs) (st : MergeState) :
    AgreesWith (processMergeKeys events anchors list st) (sourcesOf defs pairs)
      st.inherit := by
  induction entries generalizing st with
  | nil => rfl
  | @cons e pair list pairs entry _ ih =>
      rw [processMergeKeys, isMergeKey_key entry, sourcesOf_cons]
      by_cases keyed : mergeKeyed pair = true
      · simp only [keyed, if_true]
        have value := processMergeValue_agrees table entry st
        cases first : (candidates pair.2).mapM (sourceOf defs) with
        | none =>
            rw [first] at value
            obtain ⟨msg, failed⟩ := value
            exact ⟨_, by rw [failed]⟩
        | some sources =>
            rw [first] at value
            have ok : processMergeValue events anchors e st = .ok (st.inherit sources) :=
              value
            have others := ih (st.inherit sources)
            rw [ok]
            cases rest : sourcesOf defs pairs with
            | none =>
                rw [rest] at others
                exact others
            | some more =>
                rw [rest] at others
                refine Eq.trans others ?_
                rw [MergeState.inherit_append]
      · simp only [keyed, Bool.false_eq_true, if_false]
        exact ih st

theorem explicit_entries {list : List Entry} {pairs : List Pair}
    (entries : List.Forall₂ (EntryAt events) list pairs) :
    List.Forall₂ (EntryAt events)
      (list.filter fun e => !isMergeKey (e.key events))
      (pairs.filter fun pair => !mergeKeyed pair) := by
  induction entries with
  | nil => exact .nil
  | @cons e pair list pairs entry _ ih =>
      simp only [List.filter_cons, isMergeKey_key entry]
      cases mergeKeyed pair with
      | true => simpa using ih
      | false => simpa using List.Forall₂.cons entry ih

theorem scalarKeys_seen {list : List Entry} {pairs : List Pair}
    (entries : List.Forall₂ (EntryAt events) list pairs) (seen : List Bytes) :
    (list.filter (·.scalarKey events)).foldl
        (fun seen e => ksetAdd seen (e.key events).value) seen =
      seenAfter seen pairs := by
  induction entries generalizing seen with
  | nil => rfl
  | @cons e pair list pairs entry _ ih =>
      simp only [List.filter_cons, entry.scalarKey_eq, seenAfter]
      cases text : keyText pair.1 with
      | none => simpa using ih seen
      | some text' =>
          have value : pair.1.head.value = text' := by
            by_cases isScalar : pair.1.head.type = .scalar
            · simpa [keyText, isScalar] using text
            · simp [keyText, isScalar] at text
          simpa [entry.key_eq, value] using ih (ksetAdd seen text')

theorem explicit_slices {list : List Entry} {pairs : List Pair}
    (entries : List.Forall₂ (EntryAt events) list pairs) (out : EvtBuf) :
    list.foldl (fun out e => out.pushAll (slice events e.keyStart e.valEnd)) out =
      out.pushAll (flattenPairs pairs) := by
  induction entries generalizing out with
  | nil => rfl
  | cons entry _ ih =>
      rw [List.foldl_cons, ih, entry.slice_eq, EvtBuf.pushAll_append, flattenPairs_cons]

theorem any_mergeKey {list : List Entry} {pairs : List Pair}
    (entries : List.Forall₂ (EntryAt events) list pairs) :
    (list.any fun e => isMergeKey (e.key events)) = pairs.any mergeKeyed := by
  induction entries with
  | nil => rfl
  | cons entry _ ih => simp [isMergeKey_key entry, ih]

/-- A mapping with merge keys is rebuilt as the pass on trees says. -/
theorem rebuildMapping_agrees (table : TableFor events anchors defs) {pos : Nat}
    {start stop : Event} {children others : List (Tree Event)}
    (lies : LiesAt events pos (.node start children stop :: others))
    (shaped : EventTree (.node start children stop))
    (paired : (Tree.node start children stop).Paired) (isMap : start.type = .mappingStart)
    (out : EvtBuf) :
    AgreesWith
      (rebuildMapping events anchors pos
        (pos + (Tree.node start children stop).flatten.length) out)
      (mergedPairs defs (pairsOf children))
      fun pairs => out.pushAll (Tree.node start (unpair pairs) stop).flatten := by
  have walk := entries_pairs lies shaped paired isMap
  have explicit := explicit_entries walk
  have here : eventAt events pos = start := lies.eventAt_eq
  simp only [rebuildMapping, here, lies.eventAt_close, scalarKeys_seen explicit,
    explicit_slices explicit, mergedPairs]
  generalize hst : ({ out := _, seen := _ } : MergeState) = st
  have keys := processMergeKeys_agrees table walk st
  cases sources : sourcesOf defs (pairsOf children) with
  | none =>
      rw [sources] at keys
      obtain ⟨failure, failed⟩ := keys
      exact ⟨failure, by rw [failed]; rfl⟩
  | some list =>
      rw [sources] at keys
      have ok : processMergeKeys events anchors _ st = .ok (st.inherit list) := keys
      rw [ok, ← hst]
      have same : dedup (seenAfter [] ((pairsOf children).filter fun pair => !mergeKeyed pair))
          (list.flatMap Tree.pairs) =
          dedup (keyTexts ((pairsOf children).filter fun pair => !mergeKeyed pair))
            (list.flatMap Tree.pairs) :=
        dedup_congr (fun text => by simp [mem_seenAfter]) _
      simp only [AgreesWith, Option.map_some, MergeState.inherit, same, inherited,
        Tree.flatten, EvtBuf.push_eq_pushAll, EvtBuf.pushAll_append]
      have whole : Tree.flattenList (unpair
          (((pairsOf children).filter fun pair => !mergeKeyed pair) ++
            (dedup (keyTexts ((pairsOf children).filter fun pair => !mergeKeyed pair))
              (list.flatMap Tree.pairs)).map Pair.copy)) =
          flattenPairs ((pairsOf children).filter fun pair => !mergeKeyed pair) ++
            flattenPairs ((dedup (keyTexts
              ((pairsOf children).filter fun pair => !mergeKeyed pair))
                (list.flatMap Tree.pairs)).map Pair.copy) :=
        flattenPairs_append _ _
      rw [whole]
      simp [pure, Except.pure, bind, Except.bind, EvtBuf.pushAll_append]

/-! ### The main loop -/

/-- A pass that stops with an error or at the limit. -/
def Fails (result : Except (String × Mark) (EvtBuf × Bool)) : Prop :=
  match result with
  | .error _ => True
  | .ok (out, _) => out.oom = true

/-- `result` is what the loop gives that reached index `pos` and wrote
`produced` on the way, or a failure where there is nothing to write or no
room for it. -/
def Resumes (events : List Event) (anchors : List AnchorEntry)
    (result : Except (String × Mark) (EvtBuf × Bool)) (out : EvtBuf)
    (produced : Option (List Event)) (pos : Nat) (changed : Bool) : Prop :=
  match produced with
  | none => Fails result
  | some written =>
      if (out.pushAll written).oom then Fails result
      else ∃ fuel, events.length - pos ≤ fuel ∧
        result = mergePassFrom events anchors fuel pos (out.pushAll written) changed

theorem fails_of_oom (fuel pos : Nat) {out : EvtBuf} (changed : Bool)
    (full : out.oom = true) :
    Fails (mergePassFrom events anchors fuel pos out changed) := by
  cases fuel <;> simp [mergePassFrom, Fails, full]

/-- The loop at an event that is written unchanged. -/
theorem mergePassFrom_push (anchors : List AnchorEntry) (changed : Bool)
    {fuel pos : Nat} {out : EvtBuf} (enough : events.length - pos ≤ fuel)
    (inside : pos < events.length)
    (room : out.oom = false)
    (plain : ((eventAt events pos).type == .mappingStart &&
      (entries events pos (nodeEnd events pos)).any fun e => isMergeKey (e.key events)) =
        false) :
    Resumes events anchors (mergePassFrom events anchors fuel pos out changed) out
      (some [eventAt events pos]) (pos + 1) changed := by
  obtain ⟨fuel, rfl⟩ : ∃ n, fuel = n + 1 := ⟨fuel - 1, by omega⟩
  have step : mergePassFrom events anchors (fuel + 1) pos out changed =
      mergePassFrom events anchors fuel (pos + 1) (out.push (eventAt events pos))
        changed := by
    simp [mergePassFrom, inside, room, plain]
  rw [step, Resumes, ← EvtBuf.push_eq_pushAll]
  by_cases full : (out.push (eventAt events pos)).oom = true
  · simpa [full] using fails_of_oom fuel (pos + 1) changed full
  · simp only [full, Bool.false_eq_true, if_false]
    exact ⟨fuel, by omega, rfl⟩

theorem Resumes.trans {result : Except (String × Mark) (EvtBuf × Bool)} {out : EvtBuf}
    {first second : Option (List Event)} {mid pos : Nat} {changed changed' : Bool}
    (head : Resumes events anchors result out first mid changed)
    (tail : ∀ written, first = some written → (out.pushAll written).oom = false →
      ∀ fuel, events.length - mid ≤ fuel →
        Resumes events anchors
          (mergePassFrom events anchors fuel mid (out.pushAll written) changed)
          (out.pushAll written) second pos changed') :
    Resumes events anchors result out
      (first.bind fun left => second.map fun right => left ++ right) pos changed' := by
  cases first with
  | none => exact head
  | some left =>
      simp only [Resumes] at head
      by_cases full : (out.pushAll left).oom = true
      · rw [if_pos full] at head
        cases second with
        | none => exact head
        | some right =>
            have full' : (out.pushAll (left ++ right)).oom = true := by
              rw [← EvtBuf.pushAll_append, EvtBuf.pushAll_oom full, full]
            simpa [Resumes, full'] using head
      · rw [if_neg full] at head
        obtain ⟨fuel, enough, rfl⟩ := head
        have next := tail left rfl (by simpa using full) fuel enough
        cases second with
        | none => exact next
        | some right =>
            simpa [Resumes, EvtBuf.pushAll_append] using next

mutual

/-- The loop passes over a tree. -/
theorem mergePassFrom_tree (table : TableFor events anchors defs) (tree : Tree Event)
    (shaped : EventTree tree) (paired : tree.Paired) {fuel pos : Nat} {out : EvtBuf}
    (changed : Bool) (lies : LiesAt events pos [tree])
    (enough : events.length - pos ≤ fuel) (room : out.oom = false) :
    Resumes events anchors (mergePassFrom events anchors fuel pos out changed) out
      ((mergeTree defs tree).map Tree.flatten) (pos + tree.flatten.length)
      (changed || tree.hasMerging) := by
  have here := lies.eventAt_eq
  have inside : pos < events.length := by
    have := lies.bound
    have := tree.flatten_length_pos
    simp only [Tree.flattenList, List.append_nil] at *
    omega
  cases tree with
  | leaf evt =>
      have leaf : EventLeaf evt := shaped
      have notMap : evt.type ≠ .mappingStart := fun same => by
        have notOpens := leaf.opens
        rw [same] at notOpens
        simp [EventType.opens] at notOpens
      have step := mergePassFrom_push anchors changed enough inside room
        (by simp [here, Tree.head, notMap])
      simpa [mergeTree, Tree.hasMerging, Tree.flatten, here, Tree.head] using step
  | node start children stop =>
      have extent := lies.nodeEnd_eq shaped
      have head : eventAt events pos = start := here
      by_cases merging :
          (start.type == .mappingStart && (pairsOf children).any mergeKeyed) = true
      · obtain ⟨fuel, rfl⟩ : ∃ n, fuel = n + 1 := ⟨fuel - 1, by omega⟩
        have isMap : start.type = .mappingStart := by
          simp only [Bool.and_eq_true, beq_iff_eq] at merging
          exact merging.1
        have keys : (pairsOf children).any mergeKeyed = true := by
          simp only [Bool.and_eq_true] at merging
          exact merging.2
        have walk := entries_pairs lies shaped paired isMap
        have step : mergePassFrom events anchors (fuel + 1) pos out changed =
            (rebuildMapping events anchors pos
              (pos + (Tree.node start children stop).flatten.length) out >>= fun out =>
                mergePassFrom events anchors fuel
                  (pos + (Tree.node start children stop).flatten.length) out true) := by
          simp only [mergePassFrom, inside, room, head, extent, isMap, any_mergeKey walk, keys]
          rfl
        have built := rebuildMapping_agrees table lies shaped paired isMap out
        rw [step]
        simp only [mergeTree, merging, if_true, Tree.hasMerging, Tree.merging, Tree.head,
          Tree.pairs, Tree.children, Bool.true_or, Bool.or_true]
        cases merged : mergedPairs defs (pairsOf children) with
        | none =>
            rw [merged] at built
            obtain ⟨failure, failed⟩ := built
            simp only [failed, Resumes, Option.map_none]
            exact trivial
        | some pairs =>
            rw [merged] at built
            have ok : rebuildMapping events anchors pos
                (pos + (Tree.node start children stop).flatten.length) out =
                .ok (out.pushAll (Tree.node start (unpair pairs) stop).flatten) := built
            rw [ok]
            simp only [Option.map_some, Resumes]
            by_cases full :
                (out.pushAll (Tree.node start (unpair pairs) stop).flatten).oom = true
            · rw [if_pos full]
              exact fails_of_oom _ _ true full
            · rw [if_neg full]
              exact ⟨fuel, by have := nodeEnd_pos (Tree.node start children stop) pos; omega,
                rfl⟩
      · have keys : start.type = .mappingStart →
            (entries events pos (nodeEnd events pos)).any
              (fun e => isMergeKey (e.key events)) = false := fun isMap => by
          rw [extent, any_mergeKey (entries_pairs lies shaped paired isMap)]
          simpa [isMap] using merging
        have opening := mergePassFrom_push anchors changed enough inside room (by
          by_cases isMap : start.type = .mappingStart
          · simp [keys isMap]
          · simp [head, isMap])
        rw [head] at opening
        have length : (Tree.node start children stop).flatten.length =
            (Tree.flattenList children).length + 2 := by simp [Tree.flatten]
        have bound := lies.bound
        simp only [Tree.flattenList, List.append_nil, length] at bound
        have last : eventAt events (pos + 1 + (Tree.flattenList children).length) = stop := by
          have close := lies.eventAt_close
          rwa [length, show pos + ((Tree.flattenList children).length + 2) - 1 =
            pos + 1 + (Tree.flattenList children).length by omega] at close
        have notMap : stop.type ≠ .mappingStart := fun same => by
          have closes := shaped.1.closes
          rw [same] at closes
          cases type : start.type <;> rw [type] at closes <;>
            simp [EventType.closing] at closes
        have body : Resumes events anchors
            (mergePassFrom events anchors fuel pos out changed) out
            ((some [start]).bind fun left =>
              ((mergeTrees defs children).map Tree.flattenList).map fun right => left ++ right)
            (pos + 1 + (Tree.flattenList children).length)
            (changed || Tree.hasMergingList children) :=
          opening.trans fun written _ room' fuel' enough' =>
            mergePassFrom_trees table children shaped.2 paired.2 changed lies.inner enough'
              room'
        have whole : Resumes events anchors
            (mergePassFrom events anchors fuel pos out changed) out
            (((some [start]).bind fun left =>
              ((mergeTrees defs children).map Tree.flattenList).map fun right =>
                left ++ right).bind fun left => (some [stop]).map fun right => left ++ right)
            (pos + (Tree.node start children stop).flatten.length)
            (changed || Tree.hasMergingList children) :=
          body.trans fun written _ room' fuel' enough' => by
            have closing := mergePassFrom_push anchors
              (changed || Tree.hasMergingList children) enough' (by omega) room'
              (by simp [last, notMap])
            rw [last] at closing
            rw [length, show pos + ((Tree.flattenList children).length + 2) =
              pos + 1 + (Tree.flattenList children).length + 1 by omega]
            exact closing
        simp only [Tree.hasMerging, Tree.merging, Tree.head, Tree.pairs, Tree.children,
          merging, Bool.false_or]
        cases inner : mergeTrees defs children with
        | none => simpa [mergeTree, merging, inner] using whole
        | some children' =>
            simpa [mergeTree, merging, inner, Tree.flatten] using whole

theorem mergePassFrom_trees (table : TableFor events anchors defs)
    (trees : List (Tree Event)) (shaped : EventTrees trees)
    (paired : Tree.PairedList trees) {fuel pos : Nat} {out : EvtBuf}
    (changed : Bool) (lies : LiesAt events pos trees)
    (enough : events.length - pos ≤ fuel) (room : out.oom = false) :
    Resumes events anchors (mergePassFrom events anchors fuel pos out changed) out
      ((mergeTrees defs trees).map Tree.flattenList)
      (pos + (Tree.flattenList trees).length) (changed || Tree.hasMergingList trees) := by
  cases trees with
  | nil =>
      have none : out.pushAll [] = out := rfl
      simp only [mergeTrees, Option.map_some, Tree.flattenList, Resumes, none, room,
        Bool.false_eq_true, if_false, Tree.hasMergingList, Bool.or_false, List.length_nil,
        Nat.add_zero]
      exact ⟨fuel, enough, rfl⟩
  | cons tree trees =>
      have first := mergePassFrom_tree table tree shaped.1 paired.1 changed lies.first
        enough room
      have whole : Resumes events anchors
          (mergePassFrom events anchors fuel pos out changed) out
          (((mergeTree defs tree).map Tree.flatten).bind fun left =>
            ((mergeTrees defs trees).map Tree.flattenList).map fun right => left ++ right)
          (pos + (Tree.flattenList (tree :: trees)).length)
          (changed || Tree.hasMergingList (tree :: trees)) :=
        first.trans fun written _ room' fuel' enough' => by
          have rest := mergePassFrom_trees table trees shaped.2 paired.2
            (changed || tree.hasMerging) lies.tail enough' room'
          simpa [Tree.flattenList, Tree.hasMergingList, Nat.add_assoc, Bool.or_assoc]
            using rest
      cases head : mergeTree defs tree with
      | none => simpa [mergeTrees, head] using whole
      | some tree' =>
          cases others : mergeTrees defs trees with
          | none => simpa [mergeTrees, head, others] using whole
          | some trees' => simpa [mergeTrees, head, others, Tree.flattenList] using whole

end

end

/-! ### The anchor table of a document -/

mutual

theorem Tree.Paired.subtrees (tree : Tree Event) (paired : tree.Paired) :
    ∀ sub ∈ tree.subtrees, sub.Paired := by
  cases tree with
  | leaf evt =>
      intro sub member
      rw [List.mem_singleton.mp member]
      exact paired
  | node start children stop =>
      intro sub member
      rcases List.mem_cons.mp member with rfl | inner
      · exact paired
      · exact Tree.PairedList.subtrees children paired.2 sub inner

theorem Tree.PairedList.subtrees (trees : List (Tree Event))
    (paired : Tree.PairedList trees) :
    ∀ sub ∈ Tree.subtreesList trees, sub.Paired := by
  cases trees with
  | nil => simp [Tree.subtreesList]
  | cons tree trees =>
      intro sub member
      rcases List.mem_append.mp member with first | others
      · exact Tree.Paired.subtrees tree paired.1 sub first
      · exact Tree.PairedList.subtrees trees paired.2 sub others

end

theorem mem_anchoredTrees {trees : List (Tree Event)} {d : Bytes × Tree Event} :
    d ∈ anchoredTrees trees ↔
      d.2 ∈ Tree.subtreesList trees ∧ d.2.head.anchorName = some d.1 := by
  simp only [anchoredTrees, List.mem_filterMap, Tree.anchored, Option.map_eq_some_iff]
  constructor
  · rintro ⟨tree, member, name, named, rfl⟩
    exact ⟨member, named⟩
  · rintro ⟨member, named⟩
    exact ⟨d.2, member, d.1, named, rfl⟩

theorem find?_congr_of_mem {α : Type} {p q : α → Bool} {list : List α}
    (same : ∀ a ∈ list, p a = q a) : list.find? p = list.find? q := by
  induction list with
  | nil => rfl
  | cons a list ih =>
      have rest := ih fun b member => same b (List.mem_cons_of_mem a member)
      rw [List.find?_cons, List.find?_cons, same a List.mem_cons_self, rest]

theorem atblLookup_concat (entries : List AnchorEntry) (last : AnchorEntry)
    (name : Bytes) :
    atblLookup (entries ++ [last]) name =
      if last.name == name then some entries.length else atblLookup entries name := by
  have before : (List.range entries.length).reverse.find? (fun i =>
      ((entries ++ [last]).getD i default).name == name) =
      atblLookup entries name := by
    refine find?_congr_of_mem fun i member => ?_
    have bound : i < entries.length := by simpa using member
    simp [List.getElem?_append_left bound]
  rw [atblLookup, List.length_append, List.length_singleton, List.range_succ,
    List.reverse_append, List.reverse_singleton, List.singleton_append, List.find?_cons,
    before]
  simp only [List.getD_eq_getElem?_getD, List.getElem?_concat_length, Option.getD_some]
  cases last.name == name <;> rfl

/-- The table finds the latest definition. -/
theorem TableOf.latest {events : List Event} {entries : List AnchorEntry}
    {defs : List (Bytes × Tree Event)} (table : TableOf events entries defs)
    (name : Bytes) :
    (atblLookup entries name = none → (defs.reverse.find? fun d => d.1 == name) = none) ∧
      ∀ idx, atblLookup entries name = some idx →
        ∃ d, defs[idx]? = some d ∧ (defs.reverse.find? fun d => d.1 == name) = some d := by
  have names := table.names
  clear table
  induction entries using List.reverseRecOn generalizing defs with
  | nil =>
      have none : defs = [] := by simpa using names.symm
      subst none
      simp [atblLookup]
  | append_singleton entries last ih =>
      obtain ⟨defs, d, rfl⟩ : ∃ front d, defs = front ++ [d] := by
        rcases List.eq_nil_or_concat defs with rfl | ⟨front, d, rfl⟩
        · simp at names
        · exact ⟨front, d, by simp⟩
      simp only [List.map_append, List.map_cons, List.map_nil] at names
      obtain ⟨front, same⟩ := List.append_inj' names rfl
      have length : entries.length = defs.length := by simpa using congrArg List.length front
      have same : last.name = d.1 := by simpa using same
      obtain ⟨missing, found⟩ := ih front
      rw [atblLookup_concat, same]
      by_cases here : d.1 = name
      · simp [here, length]
      · have next : (d.1 == name) = false := by simpa using here
        simp only [next, Bool.false_eq_true, if_false, List.reverse_append,
          List.reverse_singleton, List.singleton_append, List.find?_cons]
        refine ⟨missing, fun idx at' => ?_⟩
        obtain ⟨e, inside, latest⟩ := found idx at'
        exact ⟨e, by rw [List.getElem?_append_left (List.getElem?_eq_some_iff.mp inside).1,
          inside], latest⟩

theorem liesAt_of_slice {events : List Event} {start stop : Nat} {tree : Tree Event}
    (same : slice events start stop = tree.flatten) : LiesAt events start [tree] := by
  have positive := tree.flatten_length_pos
  have inside : start < events.length := by
    have length := congrArg List.length same
    simp only [slice, List.length_take, List.length_drop] at length
    omega
  refine ⟨events.take start, (events.drop start).drop (stop - start), ?_, by simp; omega⟩
  rw [Tree.flattenList, Tree.flattenList, List.append_nil, ← same, slice,
    List.take_append_drop, List.take_append_drop]

theorem tableFor_document {trees : List (Tree Event)} (shaped : EventTrees trees)
    (paired : Tree.PairedList trees) :
    TableFor (Tree.flattenList trees) (atblBuild (Tree.flattenList trees))
      (definition trees) where
  missing name lookup := by
    have table : TableOf (Tree.flattenList trees) (atblBuild (Tree.flattenList trees))
        (anchoredTrees trees) := atblBuild_flatten trees shaped
    rw [definition, (table.latest name).1 lookup, Option.map_none]
  found name idx lookup := by
    have table : TableOf (Tree.flattenList trees) (atblBuild (Tree.flattenList trees))
        (anchoredTrees trees) := atblBuild_flatten trees shaped
    obtain ⟨d, at', latest⟩ := (table.latest name).2 idx lookup
    have member := (mem_anchoredTrees.mp (List.mem_of_getElem? at')).1
    have isTree := Tree.ShapedList.subtrees trees shaped d.2 member
    have lies := liesAt_of_slice (table.slice_eq at').2
    refine ⟨d.2, by rw [definition, latest, Option.map_some], isTree,
      Tree.PairedList.subtrees trees paired d.2 member, lies, ?_⟩
    rw [← lies.nodeEnd_eq isTree]
    have bound := (atblLookup_eq_some lookup).1
    have entry : (atblBuild (Tree.flattenList trees)).getD idx default ∈
        atblBuild (Tree.flattenList trees) := by
      simp [bound]
    obtain ⟨i, _, made⟩ := List.mem_filterMap.mp entry
    obtain ⟨_, _, same⟩ := Option.map_eq_some_iff.mp made
    rw [← same]

end Oyl
