import Oyl.Expand.Nodes
import Oyl.Logic.Tree

/-!
# Event lists as trees

A document's events are the linear form of trees whose brackets are the start
and end events of collections.  On such lists `node_end` finds the end of a
subtree, and the anchor table lists the anchored subtrees.
-/

namespace Oyl

def EventType.closes : EventType → Bool
  | .mappingEnd | .sequenceEnd => true
  | _ => false

/-- An event that is no bracket; aliases carry no anchor. -/
structure EventLeaf (evt : Event) : Prop where
  opens : evt.type.opens = false
  closes : evt.type.closes = false
  bare : evt.type = .alias → evt.anchor = none

/-- The start and the end event of a collection; only the start is anchored. -/
structure EventPair (start stop : Event) : Prop where
  opens : start.type.opens = true
  closes : stop.type = start.type.closing
  anchor : stop.anchor = none

instance : DecidablePred EventLeaf := fun evt =>
  decidable_of_iff (evt.type.opens = false ∧ evt.type.closes = false ∧
      (evt.type = .alias → evt.anchor = none))
    ⟨fun ⟨opens, closes, bare⟩ => ⟨opens, closes, bare⟩,
      fun leaf => ⟨leaf.opens, leaf.closes, leaf.bare⟩⟩

instance : DecidableRel EventPair := fun start stop =>
  decidable_of_iff (start.type.opens = true ∧ stop.type = start.type.closing ∧
      stop.anchor = none)
    ⟨fun ⟨opens, closes, anchor⟩ => ⟨opens, closes, anchor⟩,
      fun pair => ⟨pair.opens, pair.closes, pair.anchor⟩⟩

/-- The trees whose linear forms are event lists. -/
def EventTree (tree : Tree Event) : Prop := tree.Shaped EventLeaf EventPair

def EventTrees (trees : List (Tree Event)) : Prop :=
  Tree.ShapedList EventLeaf EventPair trees

instance (trees : List (Tree Event)) : Decidable (EventTrees trees) :=
  inferInstanceAs (Decidable (Tree.ShapedList EventLeaf EventPair trees))

theorem EventLeaf.copy {evt : Event} (leaf : EventLeaf evt) : EventLeaf evt.copy :=
  ⟨leaf.opens, leaf.closes, fun _ => rfl⟩

theorem EventPair.copy {start stop : Event} (pair : EventPair start stop) :
    EventPair start.copy stop.copy :=
  ⟨pair.opens, pair.closes, rfl⟩

/-! ### Extents -/

theorem EventType.closing_opens {type : EventType} (opens : type.opens = true) :
    type.closing.opens = false := by
  cases type <;> simp_all [EventType.opens, EventType.closing]

theorem EventType.closing_closes {type : EventType} (opens : type.opens = true) :
    type.closing.closes = true := by
  cases type <;> simp_all [EventType.opens, EventType.closing, EventType.closes]

theorem EventType.closing_inj {left right : EventType} (opensLeft : left.opens = true)
    (opensRight : right.opens = true) (same : left.closing = right.closing) :
    left = right := by
  cases left <;> cases right <;> simp_all [EventType.opens, EventType.closing]

/-- An event that neither opens nor closes a collection of type `start`. -/
theorem findClose_skip {start : EventType} {evt : Event} {depth j : Nat}
    {rest : List Event} (notStart : evt.type ≠ start) (notStop : evt.type ≠ start.closing) :
    findClose start start.closing depth j (evt :: rest) =
      findClose start start.closing depth (j + 1) rest := by
  simp [findClose, notStart, notStop]

mutual

/-- The search for an end event passes over whole subtrees. -/
theorem findClose_flatten {start : EventType} (opens : start.opens = true)
    (tree : Tree Event) (shaped : EventTree tree) (depth j : Nat) (positive : 0 < depth)
    (rest : List Event) :
    findClose start start.closing depth j (tree.flatten ++ rest) =
      findClose start start.closing depth (j + tree.flatten.length) rest := by
  cases tree with
  | leaf evt =>
      have leaf : EventLeaf evt := shaped
      have notStart : evt.type ≠ start := fun same => by
        simpa [same, opens] using leaf.opens
      have notStop : evt.type ≠ start.closing := fun same => by
        simpa [same, EventType.closing_closes opens] using leaf.closes
      simpa [Tree.flatten] using findClose_skip notStart notStop
  | node first children last =>
      obtain ⟨pair, inner⟩ := shaped
      have notStopFirst : first.type ≠ start.closing := fun same => by
        simpa [same, EventType.closing_opens opens] using pair.opens
      have notStartLast : last.type ≠ start := fun same => by
        rw [← same, pair.closes, EventType.closing_opens pair.opens] at opens
        simp at opens
      have len : j + (Tree.node first children last).flatten.length =
          j + 1 + (Tree.flattenList children).length + 1 := by
        simp [Tree.flatten]
        omega
      rw [len]
      simp only [Tree.flatten, List.cons_append, List.append_assoc, List.nil_append]
      by_cases same : first.type = start
      · have lastCloses : last.type = start.closing := by rw [pair.closes, same]
        have step : findClose start start.closing depth j
            (first :: (Tree.flattenList children ++ last :: rest)) =
            findClose start start.closing (depth + 1) (j + 1)
              (Tree.flattenList children ++ last :: rest) := by
          simp [findClose, same]
        rw [step, findClose_flattenList opens children inner (depth + 1) (j + 1)
          (by omega) (last :: rest)]
        have notStart : start.closing ≠ start := lastCloses ▸ notStartLast
        have deep : depth ≠ 0 := by omega
        simp [findClose, lastCloses, notStart, deep]
      · have notStopLast : last.type ≠ start.closing := fun closing =>
          same (EventType.closing_inj pair.opens opens (pair.closes ▸ closing))
        rw [findClose_skip same notStopFirst,
          findClose_flattenList opens children inner depth (j + 1) positive (last :: rest),
          findClose_skip notStartLast notStopLast]

theorem findClose_flattenList {start : EventType} (opens : start.opens = true)
    (trees : List (Tree Event)) (shaped : EventTrees trees) (depth j : Nat)
    (positive : 0 < depth) (rest : List Event) :
    findClose start start.closing depth j (Tree.flattenList trees ++ rest) =
      findClose start start.closing depth (j + (Tree.flattenList trees).length) rest := by
  cases trees with
  | nil => simp [Tree.flattenList]
  | cons tree trees =>
      simp only [Tree.flattenList, List.append_assoc, List.length_append]
      rw [findClose_flatten opens tree shaped.1 depth j positive,
        findClose_flattenList opens trees shaped.2 depth _ positive, Nat.add_assoc]

end

theorem eventAt_append (before : List Event) (evt : Event) (after : List Event) :
    eventAt (before ++ evt :: after) before.length = evt := by
  simp [eventAt]

/-- The first event of a subtree. -/
theorem eventAt_flatten (before : List Event) (tree : Tree Event) (after : List Event) :
    eventAt (before ++ (tree.flatten ++ after)) before.length = tree.head := by
  obtain ⟨rest, flat⟩ := tree.flatten_eq_cons
  rw [flat]
  exact eventAt_append before tree.head (rest ++ after)

/-- `node_end` of the start of a subtree is its end. -/
theorem nodeEnd_flatten (before : List Event) (tree : Tree Event) (shaped : EventTree tree)
    (after : List Event) :
    nodeEnd (before ++ (tree.flatten ++ after)) before.length =
      before.length + tree.flatten.length := by
  have here := eventAt_flatten before tree after
  simp only [nodeEnd, here]
  cases tree with
  | leaf evt =>
      have leaf : EventLeaf evt := shaped
      simp [Tree.head, leaf.opens, Tree.flatten]
  | node start children stop =>
      obtain ⟨pair, inner⟩ := shaped
      have notStart : stop.type ≠ start.type := fun same => by
        have opens := pair.opens
        rw [← same, pair.closes, EventType.closing_opens pair.opens] at opens
        simp at opens
      have tail : (before ++ ((Tree.node start children stop).flatten ++ after)).drop
          (before.length + 1) = Tree.flattenList children ++ stop :: after := by
        simp [Tree.flatten, List.drop_append]
      rw [Tree.head, if_pos pair.opens, tail,
        findClose_flattenList pair.opens children inner 1 _ (by omega)]
      simp [findClose, pair.closes, pair.closes ▸ notStart, Tree.flatten]
      omega

/-- The events of a subtree. -/
theorem slice_flatten (before : List Event) (tree : Tree Event) (after : List Event) :
    slice (before ++ (tree.flatten ++ after)) before.length
      (before.length + tree.flatten.length) = tree.flatten := by
  simp [slice]

/-! ### Output buffers -/

namespace EvtBuf

@[simp] theorem init_data (evtLen : Nat) (limit : Int) : (init evtLen limit).data = [] := rfl

@[simp] theorem init_limit (evtLen : Nat) (limit : Int) : (init evtLen limit).limit = limit := rfl

theorem push_of_fits {b : EvtBuf} (evt : Event) (notFull : b.oom = false)
    (fits : (b.data.length : Int) < b.limit) (small : (b.data.length : Int) < intMax / 2) :
    (b.push evt).data = b.data ++ [evt] ∧ (b.push evt).oom = false ∧
      (b.push evt).limit = b.limit := by
  rw [push, if_neg (by simp [notFull]), if_neg (by simp; omega)]
  split
  · rw [if_neg (by omega)]
    exact ⟨rfl, notFull, rfl⟩
  · exact ⟨rfl, notFull, rfl⟩

theorem pushAll_of_fits {b : EvtBuf} (events : List Event) (notFull : b.oom = false)
    (fits : ((b.data.length + events.length : Nat) : Int) ≤ b.limit)
    (small : ((b.data.length + events.length : Nat) : Int) ≤ intMax / 2) :
    (b.pushAll events).data = b.data ++ events ∧ (b.pushAll events).oom = false ∧
      (b.pushAll events).limit = b.limit := by
  induction events generalizing b with
  | nil => exact ⟨(List.append_nil _).symm, notFull, rfl⟩
  | cons evt events ih =>
      rw [List.length_cons] at fits small
      obtain ⟨data, notFull', limit⟩ := push_of_fits evt notFull (by omega) (by omega)
      have length : (b.push evt).data.length = b.data.length + 1 := by
        rw [data, List.length_append, List.length_singleton]
      have rest := ih notFull' (by rw [length, limit]; omega) (by rw [length]; omega)
      rw [data, limit, List.append_assoc, List.singleton_append] at rest
      exact rest

theorem pushAll_append (b : EvtBuf) (left right : List Event) :
    (b.pushAll left).pushAll right = b.pushAll (left ++ right) := by
  simp [pushAll, List.foldl_append]

theorem push_eq_pushAll (b : EvtBuf) (evt : Event) : b.push evt = b.pushAll [evt] := rfl

theorem push_oom {b : EvtBuf} {evt : Event} (full : b.oom = true) : b.push evt = b := by
  simp [push, full]

theorem pushAll_oom {b : EvtBuf} {events : List Event} (full : b.oom = true) :
    b.pushAll events = b := by
  induction events with
  | nil => rfl
  | cons evt events ih => rw [pushAll, List.foldl_cons, push_oom full, ← pushAll, ih]

/-- A buffer that still has room has taken every event. -/
theorem pushAll_of_room {b : EvtBuf} {events : List Event}
    (room : (b.pushAll events).oom = false) : (b.pushAll events).data = b.data ++ events := by
  induction events generalizing b with
  | nil => exact (List.append_nil _).symm
  | cons evt events ih =>
      rw [pushAll, List.foldl_cons, ← pushAll] at room ⊢
      have kept : (b.push evt).oom = false := by
        by_contra full
        rw [pushAll_oom (by simpa using full)] at room
        exact full room
      have first : (b.push evt).data = b.data ++ [evt] := by
        simp only [push] at kept ⊢
        split_ifs at kept ⊢ <;> simp_all
      rw [ih room, first, List.append_assoc, List.singleton_append]

/-- A buffer stays within its limit. -/
theorem pushAll_within {b : EvtBuf} (events : List Event) (positive : 0 < b.limit)
    (within : (b.data.length : Int) ≤ b.limit) :
    ((b.pushAll events).data.length : Int) ≤ b.limit := by
  induction events generalizing b with
  | nil => exact within
  | cons evt events ih =>
      rw [pushAll, List.foldl_cons, ← pushAll]
      have one : (b.push evt).limit = b.limit ∧ ((b.push evt).data.length : Int) ≤ b.limit := by
        unfold push
        split
        · exact ⟨rfl, within⟩
        split
        · exact ⟨rfl, within⟩
        rename_i room
        simp only [Bool.and_eq_true, decide_eq_true_eq, not_and, ge_iff_le, Int.not_le] at room
        have longer : (((b.data ++ [evt]).length : Nat) : Int) ≤ b.limit := by
          have := room positive
          rw [List.length_append, List.length_singleton]
          omega
        split
        · split
          · exact ⟨rfl, within⟩
          · exact ⟨rfl, longer⟩
        · exact ⟨rfl, longer⟩
      rw [← one.1]
      exact ih (one.1 ▸ positive) (one.1 ▸ one.2)

/-- A buffer that cannot grow takes no more than its capacity. -/
theorem pushAll_over {b : EvtBuf} {events : List Event} (large : intMax / 2 < b.cap)
    (within : (b.data.length : Int) ≤ b.cap)
    (beyond : b.cap < (b.data.length + events.length : Nat)) : (b.pushAll events).oom = true := by
  have capped (list : List Event) {b : EvtBuf} (large : intMax / 2 < b.cap)
      (within : (b.data.length : Int) ≤ b.cap) :
      ((b.pushAll list).data.length : Int) ≤ b.cap := by
    induction list generalizing b with
    | nil => exact within
    | cons evt list ih =>
        rw [pushAll, List.foldl_cons, ← pushAll]
        have one : (b.push evt).cap = b.cap ∧ ((b.push evt).data.length : Int) ≤ b.cap := by
          unfold push
          split
          · exact ⟨rfl, within⟩
          split
          · exact ⟨rfl, within⟩
          split
          · exact ⟨rfl, within⟩
          · refine ⟨rfl, ?_⟩
            rw [List.length_append, List.length_singleton]
            omega
        rw [← one.1]
        exact ih (one.1 ▸ large) (one.1 ▸ one.2)
  by_contra room
  have short := capped events large within
  rw [pushAll_of_room (by simpa using room), List.length_append] at short
  omega

end EvtBuf

theorem expansionFailed_stops {p p' : Parser} {a : Unit} (b : EvtBuf) :
    expansionFailed b p ≠ .ok a p' := by
  rw [expansionFailed]
  cases b.limited <;> exact nofun

/-! ### Anchors -/

/-- The name a subtree is anchored by, with the subtree. -/
def Tree.anchored (tree : Tree Event) : Option (Bytes × Tree Event) :=
  tree.head.anchorName.map fun name => (name, tree)

/-- The anchored subtrees in document order. -/
def anchoredTrees (trees : List (Tree Event)) : List (Bytes × Tree Event) :=
  (Tree.subtreesList trees).filterMap Tree.anchored

/-- What the anchor table says about event `i`. -/
def anchoredSlice (events : List Event) (i : Nat) : Option (Bytes × List Event) :=
  (eventAt events i).anchorName.map fun name =>
    (name, slice events i (nodeEnd events i))

theorem anchorName_of_anchor {evt : Event} (noAnchor : evt.anchor = none) :
    evt.anchorName = none := by
  simp [Event.anchorName, noAnchor]

mutual

theorem filterMap_anchoredSlice {events : List Event} (before after : List Event)
    (tree : Tree Event)
    (shaped : EventTree tree) (whole : events = before ++ (tree.flatten ++ after)) :
    (List.range' before.length tree.flatten.length).filterMap (anchoredSlice events) =
      tree.subtrees.filterMap fun sub => sub.anchored.map fun d => (d.1, d.2.flatten) := by
  have here : anchoredSlice events before.length =
      tree.anchored.map fun d => (d.1, d.2.flatten) := by
    simp only [anchoredSlice, whole, eventAt_flatten, nodeEnd_flatten before tree shaped after,
      slice_flatten, Tree.anchored, Option.map_map]
    rfl
  cases tree with
  | leaf evt =>
      simp only [Tree.subtrees, List.filterMap_cons, List.filterMap_nil, ← here]
      simp only [Tree.flatten, List.length_singleton, List.range'_one, List.filterMap_cons,
        List.filterMap_nil]
  | node start children stop =>
      obtain ⟨pair, inner⟩ := shaped
      have whole' : events = (before ++ [start]) ++
          (Tree.flattenList children ++ (stop :: after)) := by
        rw [whole]
        simp [Tree.flatten]
      have children' := filterMap_anchoredSliceList _ _ children inner whole'
      have last : anchoredSlice events
          (before.length + 1 + (Tree.flattenList children).length) = none := by
        have at' : eventAt events (before.length + 1 + (Tree.flattenList children).length) =
            stop := by
          have split : events = (before ++ start :: Tree.flattenList children) ++
              stop :: after := by
            rw [whole]
            simp [Tree.flatten]
          have length : before.length + 1 + (Tree.flattenList children).length =
              (before ++ start :: Tree.flattenList children).length := by
            simp
            omega
          rw [split, length, eventAt_append]
        simp [anchoredSlice, at', anchorName_of_anchor pair.anchor]
      have indices : List.range' before.length (Tree.node start children stop).flatten.length =
          before.length :: (List.range' (before.length + 1)
            (Tree.flattenList children).length ++
              [before.length + 1 + (Tree.flattenList children).length]) := by
        rw [Tree.flatten, List.length_cons, List.range'_succ, List.length_append,
          List.length_singleton, List.range'_concat, Nat.one_mul]
      simp only [List.length_append, List.length_singleton] at children'
      simp only [Tree.subtrees, List.filterMap_cons, ← here, indices, List.filterMap_append,
        children', last, List.filterMap_nil, List.append_nil]

theorem filterMap_anchoredSliceList {events : List Event} (before after : List Event)
    (trees : List (Tree Event)) (shaped : EventTrees trees)
    (whole : events = before ++ (Tree.flattenList trees ++ after)) :
    (List.range' before.length (Tree.flattenList trees).length).filterMap
        (anchoredSlice events) =
      (Tree.subtreesList trees).filterMap fun sub =>
        sub.anchored.map fun d => (d.1, d.2.flatten) := by
  cases trees with
  | nil => simp [Tree.flattenList, Tree.subtreesList]
  | cons tree trees =>
      have first := filterMap_anchoredSlice before (Tree.flattenList trees ++ after)
        tree shaped.1 (whole.trans (by simp [Tree.flattenList]))
      have others := filterMap_anchoredSliceList (before ++ tree.flatten) after
        trees shaped.2 (whole.trans (by simp [Tree.flattenList]))
      rw [List.length_append] at others
      rw [Tree.subtreesList, List.filterMap_append, ← first, ← others, Tree.flattenList,
        List.length_append, ← List.filterMap_append, List.range'_append_1]

end

/-- The anchor table lists the anchored subtrees with their events. -/
theorem atblBuild_flatten (trees : List (Tree Event)) (shaped : EventTrees trees) :
    (atblBuild (Tree.flattenList trees)).map (fun entry =>
        (entry.name, slice (Tree.flattenList trees) entry.start entry.stop)) =
      (anchoredTrees trees).map fun d => (d.1, d.2.flatten) := by
  have whole : Tree.flattenList trees = [] ++ (Tree.flattenList trees ++ []) := by simp
  have table := filterMap_anchoredSliceList [] [] trees shaped whole
  rw [List.length_nil, ← List.range_eq_range'] at table
  rw [anchoredTrees, List.map_filterMap, ← table, atblBuild, List.map_filterMap]
  refine List.filterMap_congr fun i _ => ?_
  simp [anchoredSlice]
  rfl

/-! ### Lookup -/

/-- Index of the latest name in a list. -/
theorem atblLookup_eq_some {entries : List AnchorEntry} {name : Bytes} {idx : Nat}
    (found : atblLookup entries name = some idx) :
    idx < entries.length ∧ (entries.getD idx default).name = name := by
  have member := List.mem_of_find?_eq_some found
  have named := List.find?_some found
  exact ⟨by simpa using member, by simpa using named⟩

theorem atblLookup_eq_none {entries : List AnchorEntry} {name : Bytes} :
    atblLookup entries name = none ↔ ∀ entry ∈ entries, entry.name ≠ name := by
  rw [atblLookup, List.find?_eq_none]
  constructor
  · intro missing entry member same
    obtain ⟨i, bound, rfl⟩ := List.mem_iff_getElem.mp member
    exact missing i (by simpa using bound) (by simp [bound, same])
  · intro missing i member same
    have bound : i < entries.length := by simpa using member
    exact missing entries[i] (List.getElem_mem bound) (by simpa [bound] using same)

/-- Where all names differ, a lookup finds the one entry with the name. -/
theorem atblLookup_of_name {entries : List AnchorEntry}
    (distinct : (entries.map (·.name)).Nodup) (idx : Nat) (bound : idx < entries.length) :
    atblLookup entries (entries.getD idx default).name = some idx := by
  cases found : atblLookup entries (entries.getD idx default).name with
  | none =>
      rw [atblLookup_eq_none] at found
      have here : entries.getD idx default = entries[idx] := by simp [bound]
      exact absurd rfl (here ▸ found _ (List.getElem_mem bound))
  | some other =>
      obtain ⟨boundOther, same⟩ := atblLookup_eq_some found
      have equal : (entries.map (·.name))[other]? = (entries.map (·.name))[idx]? := by
        simpa [bound, boundOther] using same
      rw [(List.getElem?_inj (by simpa using boundOther) distinct).mp equal]

/-! ### Tables of definitions -/

/-- The entries of a table list the definitions `defs` of an event list. -/
def TableOf (events : List Event) (entries : List AnchorEntry)
    (defs : List (Bytes × Tree Event)) : Prop :=
  entries.map (fun entry => (entry.name, slice events entry.start entry.stop)) =
    defs.map fun d => (d.1, d.2.flatten)

namespace TableOf

variable {events : List Event} {entries : List AnchorEntry}
  {defs : List (Bytes × Tree Event)}

theorem names (table : TableOf events entries defs) :
    entries.map (·.name) = defs.map (·.1) := by
  have first := congrArg (List.map Prod.fst) table
  simpa [Function.comp_def] using first

theorem length (table : TableOf events entries defs) : entries.length = defs.length := by
  simpa using congrArg List.length table

theorem slice_eq (table : TableOf events entries defs) {idx : Nat} {d : Bytes × Tree Event}
    (at' : defs[idx]? = some d) :
    (entries.getD idx default).name = d.1 ∧
      slice events (entries.getD idx default).start (entries.getD idx default).stop =
        d.2.flatten := by
  have here := congrArg (fun l => l[idx]?) table
  simp only [List.getElem?_map, at', Option.map_some] at here
  obtain ⟨entry, found, same⟩ := Option.map_eq_some_iff.mp here
  have entryAt : entries.getD idx default = entry := by
    simp [List.getD_eq_getElem?_getD, found]
  rw [entryAt]
  exact ⟨congrArg Prod.fst same, congrArg Prod.snd same⟩

end TableOf

/-- A lookup only reads the names. -/
theorem atblLookup_congr {left right : List AnchorEntry}
    (names : left.map (·.name) = right.map (·.name)) (name : Bytes) :
    atblLookup left name = atblLookup right name := by
  have length : left.length = right.length := by simpa using congrArg List.length names
  have same (i : Nat) : (left.getD i default).name = (right.getD i default).name := by
    have here := congrArg (fun l => l.getD i (default : AnchorEntry).name) names
    simpa [List.getD_eq_getElem?_getD, Option.getD_map] using here
  simp only [atblLookup, length, same]

end Oyl
