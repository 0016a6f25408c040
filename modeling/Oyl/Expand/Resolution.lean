import Oyl.Expand.Unfolded
import Oyl.Expand.Bind
import Oyl.Logic.StateError

/-!
# The passes of alias resolution

Each pass of `resolve_aliases` is one round of the doubling substitution, so
the result is the unfolded document.
-/

namespace Oyl

open StateError

/-! ### Rounds -/

section Document

variable {trees : List (Tree Event)} (shaped : EventTrees trees)
  (distinct : ((anchoredTrees trees).map (·.1)).Nodup)

include shaped

theorem unfold_shaped (n : Nat) {evt : Event} (leaf : EventLeaf evt) :
    EventTree ((aliasRefs trees).unfold n evt) := by
  induction n generalizing evt with
  | zero => exact leaf
  | succ n ih =>
      cases body : (aliasRefs trees).body evt with
      | none =>
          rw [RefSystem.unfold_of_none body]
          exact leaf
      | some tree =>
          rw [RefSystem.unfold, RefSystem.expand_of_some body]
          have bound : EventTree (tree.bind ((aliasRefs trees).unfold n)) :=
            Tree.Shaped.bind (fun _ => ih) tree (aliasBody_shaped shaped body)
          exact bound.map (fun _ leaf => leaf.copy) (fun _ _ pair => pair.copy)

theorem rounds_shaped (k : Nat) :
    EventTrees (Tree.bindList ((aliasRefs trees).rounds k) trees) := by
  rw [RefSystem.rounds_eq_unfold]
  exact Tree.ShapedList.bindList (fun _ => unfold_shaped shaped _) trees shaped

/-- A round keeps the anchors and unfolds their nodes. -/
theorem tableOf_rounds (k : Nat) :
    TableOf (Tree.flattenList (Tree.bindList ((aliasRefs trees).rounds k) trees))
      (atblBuild (Tree.flattenList (Tree.bindList ((aliasRefs trees).rounds k) trees)))
      ((anchoredTrees trees).map fun d => (d.1, d.2.bind ((aliasRefs trees).rounds k))) := by
  have table := atblBuild_flatten _ (rounds_shaped shaped k)
  rw [anchoredTrees_bind trees fun evt member => ?_] at table
  · exact table
  · rw [RefSystem.rounds_eq_unfold]
    cases body : (aliasRefs trees).body evt with
    | none => exact .inl (RefSystem.unfold_of_none body)
    | some tree =>
        have bare : evt.anchorName = none := anchorName_of_anchor
          ((Tree.ShapedList.leaves trees shaped evt member).bare (aliasBody_type body))
        cases levels : 2 ^ k - 1 with
        | zero => exact .inl rfl
        | succ n =>
            rw [RefSystem.unfold, RefSystem.expand_of_some body]
            exact .inr ⟨bare, Tree.anchored_map_copy _⟩

/-- What a pass does with one event, if there is room. -/
theorem resolveEvent_eq (k : Nat) {out : EvtBuf} (changed : Bool) (evt : Event)
    (notFull : out.oom = false) :
    let events := Tree.flattenList (Tree.bindList ((aliasRefs trees).rounds k) trees)
    resolveEvent events (atblBuild events)
        (cyclicFlags (Tree.flattenList trees) (atblBuild (Tree.flattenList trees)))
        (out, changed) evt =
      (out.pushAll ((aliasRefs trees).expand ((aliasRefs trees).rounds k) evt).flatten,
        changed || ((aliasRefs trees).body evt).isSome) := by
  intro events
  have table := tableOf_rounds shaped k
  have lookup : atblLookup (atblBuild events) evt.value =
      atblLookup (atblBuild (Tree.flattenList trees)) evt.value := by
    refine atblLookup_congr ?_ _
    rw [table.names, (tableOf_self shaped).names]
    simp
  have pushOne : out.push evt = out.pushAll [evt] := rfl
  simp only [resolveEvent, notFull, lookup, Bool.false_eq_true, if_false, pushOne]
  by_cases isAlias : evt.type = .alias
  · simp only [isAlias, beq_self_eq_true, if_true]
    cases found : atblLookup (atblBuild (Tree.flattenList trees)) evt.value with
    | none =>
        have body : (aliasRefs trees).body evt = none := by
          simp [aliasRefs, aliasBody, found]
        simp [RefSystem.expand_of_none body, body, Tree.flatten]
    | some idx =>
        have within : idx < (anchoredTrees trees).length :=
          (tableOf_self shaped).length ▸ (atblLookup_eq_some found).1
        cases flag : (cyclicFlags (Tree.flattenList trees)
            (atblBuild (Tree.flattenList trees))).getD idx false with
        | true =>
            have body : (aliasRefs trees).body evt = none := by
              simp only [aliasRefs, aliasBody, isAlias, beq_self_eq_true, if_true, found,
                Option.bind_some, flag]
            simp only [flag, if_true, RefSystem.expand_of_none body, body, Tree.flatten,
              Option.isSome_none, Bool.or_false]
        | false =>
            have body : (aliasRefs trees).body evt = some (anchoredTrees trees)[idx].2 :=
              aliasBody_eq_some.mpr ⟨isAlias, idx, _, found, flag,
                List.getElem?_eq_getElem within⟩
            have here : ((anchoredTrees trees).map fun d =>
                (d.1, d.2.bind ((aliasRefs trees).rounds k)))[idx]? =
                some ((anchoredTrees trees)[idx].1,
                  (anchoredTrees trees)[idx].2.bind ((aliasRefs trees).rounds k)) := by
              simp [within]
            have slices := (table.slice_eq here).2
            simp only [flag, Bool.false_eq_true, if_false, body, Option.isSome_some,
              Bool.or_true, RefSystem.expand_of_some body, Tree.flatten_map]
            rw [← slices]
            rfl
  · have body : (aliasRefs trees).body evt = none := by
      simp [aliasRefs, aliasBody, isAlias]
    simp [isAlias, RefSystem.expand_of_none body, body, Tree.flatten]

/-- What a round writes for each event. -/
theorem flattenList_rounds_succ (k : Nat) :
    Tree.flattenList (Tree.bindList ((aliasRefs trees).rounds (k + 1)) trees) =
      (Tree.flattenList (Tree.bindList ((aliasRefs trees).rounds k) trees)).flatMap fun evt =>
        ((aliasRefs trees).expand ((aliasRefs trees).rounds k) evt).flatten := by
  rw [← flattenList_bind_expand (fun _ => RefSystem.expand_of_none) _
    (rounds_shaped shaped k), Tree.bindList_assoc]
  rfl

/-- A pass writes the events of the next round, as far as there is room. -/
theorem resolvePass_out (k : Nat) (limit : Int) :
    (resolvePass (Tree.flattenList (Tree.bindList ((aliasRefs trees).rounds k) trees))
        (cyclicFlags (Tree.flattenList trees) (atblBuild (Tree.flattenList trees))) limit).1 =
      (EvtBuf.init (Tree.flattenList
          (Tree.bindList ((aliasRefs trees).rounds k) trees)).length limit).pushAll
        (Tree.flattenList (Tree.bindList ((aliasRefs trees).rounds (k + 1)) trees)) := by
  generalize isEvents : Tree.flattenList (Tree.bindList ((aliasRefs trees).rounds k) trees) =
    events
  have fold (list : List Event) (out : EvtBuf × Bool) :
      (list.foldl (resolveEvent events (atblBuild events)
          (cyclicFlags (Tree.flattenList trees) (atblBuild (Tree.flattenList trees)))) out).1 =
        out.1.pushAll (list.flatMap fun evt =>
          ((aliasRefs trees).expand ((aliasRefs trees).rounds k) evt).flatten) := by
    induction list generalizing out with
    | nil => rfl
    | cons evt list ih =>
        rw [List.foldl_cons, ih, List.flatMap_cons, ← EvtBuf.pushAll_append]
        congr 1
        cases full : out.1.oom with
        | true => rw [EvtBuf.pushAll_oom full, resolveEvent, if_pos full]
        | false =>
            have step := resolveEvent_eq shaped k out.2 evt full
            rw [isEvents] at step
            rw [step]
  rw [resolvePass, fold, flattenList_rounds_succ shaped k, isEvents]

/-- There is room for a round that fits. -/
theorem resolvePass_room (k : Nat) {limit : Int}
    (fits : ((Tree.flattenList (Tree.bindList ((aliasRefs trees).rounds (k + 1)) trees)).length :
      Int) ≤ min limit (intMax / 2)) :
    (resolvePass (Tree.flattenList (Tree.bindList ((aliasRefs trees).rounds k) trees))
      (cyclicFlags (Tree.flattenList trees) (atblBuild (Tree.flattenList trees)))
      limit).1.oom = false := by
  obtain ⟨within, small⟩ := Int.le_min.mp fits
  rw [resolvePass_out shaped k limit]
  refine (EvtBuf.pushAll_of_fits _ rfl ?_ ?_).2.1 <;>
    rw [EvtBuf.init_data, List.length_nil, Nat.zero_add] <;> assumption

/-- A pass with room for its output is one round. -/
theorem resolvePass_eq (k : Nat) {limit : Int}
    (room : (resolvePass (Tree.flattenList (Tree.bindList ((aliasRefs trees).rounds k) trees))
      (cyclicFlags (Tree.flattenList trees) (atblBuild (Tree.flattenList trees)))
      limit).1.oom = false) :
    let events := Tree.flattenList (Tree.bindList ((aliasRefs trees).rounds k) trees)
    ∃ out : EvtBuf, resolvePass events
        (cyclicFlags (Tree.flattenList trees) (atblBuild (Tree.flattenList trees))) limit =
      (out, events.any fun evt => ((aliasRefs trees).body evt).isSome) ∧ out.oom = false ∧
      out.data = Tree.flattenList (Tree.bindList ((aliasRefs trees).rounds (k + 1)) trees) := by
  intro events
  have written := resolvePass_out shaped k limit
  have stays (list : List Event) (out : EvtBuf) (changed : Bool) (full : out.oom = true) :
      list.foldl (resolveEvent events (atblBuild events)
        (cyclicFlags (Tree.flattenList trees) (atblBuild (Tree.flattenList trees))))
        (out, changed) = (out, changed) := by
    induction list with
    | nil => rfl
    | cons evt list ih => rw [List.foldl_cons, resolveEvent, if_pos full, ih]
  have fold (list : List Event) (out : EvtBuf) (changed : Bool)
      (room : (list.foldl (resolveEvent events (atblBuild events)
        (cyclicFlags (Tree.flattenList trees) (atblBuild (Tree.flattenList trees))))
        (out, changed)).1.oom = false) :
      (list.foldl (resolveEvent events (atblBuild events)
          (cyclicFlags (Tree.flattenList trees) (atblBuild (Tree.flattenList trees))))
          (out, changed)).2 =
        (changed || list.any fun evt => ((aliasRefs trees).body evt).isSome) := by
    induction list generalizing out changed with
    | nil => simp
    | cons evt list ih =>
        cases full : out.oom with
        | true =>
            rw [stays _ out changed full, full] at room
            cases room
        | false =>
            rw [List.foldl_cons, resolveEvent_eq shaped k changed evt full] at room ⊢
            rw [ih _ _ room, List.any_cons, Bool.or_assoc]
  refine ⟨_, Prod.ext rfl ?_, room, ?_⟩
  · rw [resolvePass, fold events _ false room, Bool.false_or]
  · rw [written] at room
    exact (congrArg EvtBuf.data written).trans (EvtBuf.pushAll_of_room room)

/-- The list that alias resolution ends with. -/
def unfoldedList (trees : List (Tree Event)) : List Event :=
  Tree.flattenList
    (Tree.bindList ((aliasRefs trees).unfold ((anchoredTrees trees).length + 1)) trees)

/-- The length of an alias's unfolding is that of its node's. -/
theorem length_unfold {evt : Event} {body : List Event}
    (isBody : (aliasBody trees evt).map Tree.flatten = some body) (n : Nat) :
    ((aliasRefs trees).unfold (n + 1) evt).flatten.length =
      (body.map fun inner => ((aliasRefs trees).unfold n inner).flatten.length).sum := by
  obtain ⟨tree, found, rfl⟩ := Option.map_eq_some_iff.mp isBody
  have flat := flattenList_bind_expand (f := (aliasRefs trees).unfold n)
    (fun _ => RefSystem.unfold_of_none) [tree] ⟨aliasBody_shaped shaped found, trivial⟩
  simp only [Tree.bindList, Tree.flattenList, List.append_nil] at flat
  rw [RefSystem.unfold, RefSystem.expand_of_some found, Tree.flatten_map, List.length_map, flat,
    List.length_flatMap]

omit shaped in
theorem length_unfold_other {evt : Event} (other : evt.type ≠ .alias) (n : Nat) :
    ((aliasRefs trees).unfold n evt).flatten.length = 1 := by
  have noBody : (aliasRefs trees).body evt = none := by
    simp [aliasRefs, aliasBody, other]
  rw [RefSystem.unfold_of_none noBody]
  rfl

theorem length_unfoldedList :
    (unfoldedList trees).length = ((Tree.flattenList trees).map fun evt =>
      ((aliasRefs trees).unfold ((anchoredTrees trees).length + 1) evt).flatten.length).sum := by
  rw [unfoldedList, flattenList_bind_expand (fun _ => RefSystem.unfold_of_none) trees shaped,
    List.length_flatMap]

include distinct

theorem unfold_deeper {n : Nat} (deep : (anchoredTrees trees).length < n) :
    (aliasRefs trees).unfold n =
      (aliasRefs trees).unfold ((anchoredTrees trees).length + 1) := by
  funext evt
  exact (RefSystem.unfold_stable (aliasRank_ranked shaped distinct)
    (Nat.lt_succ_of_le (aliasRank_le evt)) deep).symm

theorem unfolds_unfoldedList :
    Unfolds (Tree.flattenList trees) (Tree.flattenList trees) (unfoldedList trees) := by
  rw [unfoldedList, flattenList_bind_expand (fun _ => RefSystem.unfold_of_none) trees shaped]
  exact unfolds_flatMap shaped distinct _ _ fun evt _ _ =>
    Nat.lt_succ_of_le (aliasRank_le evt)

/-- Every round is on the way to the unfolded list. -/
theorem unfold_rounds (k : Nat) :
    Tree.bindList ((aliasRefs trees).unfold ((anchoredTrees trees).length + 1))
        (Tree.bindList ((aliasRefs trees).rounds k) trees) =
      Tree.bindList ((aliasRefs trees).unfold ((anchoredTrees trees).length + 1)) trees := by
  rw [Tree.bindList_assoc, RefSystem.rounds_eq_unfold]
  simp only [RefSystem.unfold_add]
  have deeper := unfold_deeper shaped distinct
    (n := 2 ^ k - 1 + ((anchoredTrees trees).length + 1)) (by omega)
  exact Tree.bindList_congr trees fun evt _ => congrFun deeper evt

theorem length_rounds_le (k : Nat) :
    (Tree.flattenList (Tree.bindList ((aliasRefs trees).rounds k) trees)).length ≤
      (unfoldedList trees).length := by
  rw [unfoldedList, ← unfold_rounds shaped distinct k]
  exact Tree.flattenList_length_le_bind _ _

/-- A round after which no alias can be resolved is the last one needed. -/
theorem rounds_closed (k : Nat)
    (closed : (Tree.flattenList (Tree.bindList ((aliasRefs trees).rounds k) trees)).any
      (fun evt => ((aliasRefs trees).body evt).isSome) = false) :
    Tree.flattenList (Tree.bindList ((aliasRefs trees).rounds k) trees) =
      unfoldedList trees := by
  rw [unfoldedList, ← unfold_rounds shaped distinct k, RefSystem.unfold_bind_closed]
  intro evt member
  have none := List.any_eq_false.mp closed evt
    (Tree.mem_flattenList_of_mem_leaves _ member)
  simpa using none

/-- So many rounds are enough for any document that fits the machine. -/
theorem rounds_enough (few : (anchoredTrees trees).length < 2 ^ 31) :
    Tree.flattenList (Tree.bindList ((aliasRefs trees).rounds 32) trees) =
      unfoldedList trees := by
  rw [RefSystem.rounds_eq_unfold, unfold_deeper shaped distinct (by omega)]
  rfl

/-- The passes from round `k` on end with the unfolded list. -/
theorem resolvePasses_eq (few : (anchoredTrees trees).length < 2 ^ 31) {limit : Int}
    (fits : ((unfoldedList trees).length : Int) ≤ min limit (intMax / 2)) (n k : Nat)
    (total : k + n = 32)
    (p : Parser)
    (events : p.events =
      Tree.flattenList (Tree.bindList ((aliasRefs trees).rounds k) trees)) :
    ∃ cursor, resolvePasses
        (cyclicFlags (Tree.flattenList trees) (atblBuild (Tree.flattenList trees)))
        limit n p =
      .ok () { p with events := unfoldedList trees, evtCursor := cursor } := by
  induction n generalizing k p with
  | zero =>
      obtain rfl : k = 32 := by omega
      rw [rounds_enough shaped distinct few] at events
      exact ⟨p.evtCursor, by simp [resolvePasses, run_pure, ← events]⟩
  | succ n ih =>
      have room : ((Tree.flattenList
          (Tree.bindList ((aliasRefs trees).rounds (k + 1)) trees)).length : Int) ≤
            min limit (intMax / 2) := by
        have shorter := length_rounds_le shaped distinct (k + 1)
        omega
      obtain ⟨out, pass, notFull, data⟩ := resolvePass_eq shaped k (resolvePass_room shaped k room)
      simp only [← events] at pass
      cases changed : p.events.any fun evt => ((aliasRefs trees).body evt).isSome with
      | false =>
          rw [changed] at pass
          have done := rounds_closed shaped distinct k (events ▸ changed)
          refine ⟨p.evtCursor, ?_⟩
          simp [resolvePasses, run_bind, run_get, pass, notFull, run_pure, ← done, ← events]
      | true =>
          rw [changed] at pass
          obtain ⟨cursor, rest⟩ := ih (k + 1) (by omega)
            { p with
              events := Tree.flattenList
                (Tree.bindList ((aliasRefs trees).rounds (k + 1)) trees)
              evtCursor := 0 } rfl
          refine ⟨cursor, ?_⟩
          simp [resolvePasses, run_bind, run_get, run_set, pass, notFull, data, rest]

/-- The passes, where they succeed, end with the unfolded list, within the limit
if they replaced an alias. -/
theorem resolvePasses_ok (few : (anchoredTrees trees).length < 2 ^ 31) {limit : Int}
    (positive : 0 < limit) (n k : Nat) (total : k + n = 32) {p p' : Parser}
    (events : p.events =
      Tree.flattenList (Tree.bindList ((aliasRefs trees).rounds k) trees))
    (ok : resolvePasses
      (cyclicFlags (Tree.flattenList trees) (atblBuild (Tree.flattenList trees)))
      limit n p = .ok () p') :
    p'.events = unfoldedList trees ∧
      (p'.events = p.events ∨ (p'.events.length : Int) ≤ limit) := by
  induction n generalizing k p with
  | zero =>
      obtain rfl : k = 32 := by omega
      cases ok
      exact ⟨events.trans (rounds_enough shaped distinct few), .inl rfl⟩
  | succ n ih =>
      have written := resolvePass_out shaped k limit
      rw [← events] at written
      cases full : (resolvePass p.events
          (cyclicFlags (Tree.flattenList trees) (atblBuild (Tree.flattenList trees)))
          limit).1.oom with
      | true =>
          rw [resolvePasses, get_bind_eq] at ok
          simp only [full, if_true] at ok
          exact absurd ok (expansionFailed_stops _)
      | false =>
          rw [events] at full
          obtain ⟨out, pass, notFull, data⟩ := resolvePass_eq shaped k full
          simp only [← events] at pass
          have within : (out.data.length : Int) ≤ limit := by
            have out_eq : out = _ := (congrArg Prod.fst pass).symm.trans written
            rw [out_eq]
            exact EvtBuf.pushAll_within _ positive (Int.le_of_lt positive)
          rw [data] at within
          simp only [resolvePasses, run_bind, run_get, pass, notFull, data, Bool.false_eq_true,
            if_false, run_ite] at ok
          cases changed : p.events.any fun evt => ((aliasRefs trees).body evt).isSome with
          | false =>
              rw [changed] at ok
              cases ok
              exact ⟨events.trans (rounds_closed shaped distinct k (events ▸ changed)), .inl rfl⟩
          | true =>
              rw [changed] at ok
              have next : ({ p with
                  events := Tree.flattenList
                    (Tree.bindList ((aliasRefs trees).rounds (k + 1)) trees)
                  evtCursor := 0 } : Parser).events = _ := rfl
              obtain ⟨ended, short⟩ := ih (k + 1) (by omega) next ok
              refine ⟨ended, .inr ?_⟩
              rcases short with same | short
              · rw [same]
                simpa using within
              · exact short

end Document

/-! ### Alias resolution -/

theorem DocumentMark.leaf {evt : Event} (mark : DocumentMark evt) : EventLeaf evt := by
  refine ⟨?_, ?_, fun _ => mark.anchor⟩ <;>
    rcases mark.type with h | h | h | h <;> simp [h, EventType.opens, EventType.closes]

theorem flattenList_leaves (events : List Event) :
    Tree.flattenList (events.map Tree.leaf) = events := by
  induction events with
  | nil => rfl
  | cons evt events ih => simp [Tree.flattenList, Tree.flatten, ih]

/-- A bound document is the linear form of trees with distinct definitions. -/
theorem BoundDocument.trees {events : List Event} (bound : BoundDocument events) :
    ∃ trees, events = Tree.flattenList trees ∧ EventTrees trees ∧
      ((anchoredTrees trees).map (·.1)).Nodup := by
  obtain ⟨before, node, after, whole, isTree, marks⟩ := bound.shape
  have leaves (list : List Event) (inside : ∀ evt ∈ list, evt ∈ before ++ after) :
      EventTrees (list.map Tree.leaf) := by
    refine Tree.shapedList_iff.mpr fun tree member => ?_
    obtain ⟨evt, isMark, rfl⟩ := List.mem_map.mp member
    exact (marks evt (inside evt isMark)).leaf
  have shaped : EventTrees (before.map Tree.leaf ++ node :: after.map Tree.leaf) := by
    refine Tree.shapedList_iff.mpr fun tree member => ?_
    rcases List.mem_append.mp member with first | later
    · exact Tree.shapedList_iff.mp (leaves before (by simp +contextual)) tree first
    · rcases List.mem_cons.mp later with rfl | last
      · exact isTree
      · exact Tree.shapedList_iff.mp (leaves after (by simp +contextual)) tree last
  have flat : events =
      Tree.flattenList (before.map Tree.leaf ++ node :: after.map Tree.leaf) := by
    simp [whole, Tree.flattenList, flattenList_leaves]
  refine ⟨_, flat, shaped, ?_⟩
  rw [anchored_namesList _ shaped, ← flat]
  exact bound.distinct

theorem resolveAliases_run (p : Parser) :
    resolveAliases p =
      if (atblBuild p.events).isEmpty then .ok () p
      else resolvePasses (cyclicFlags p.events (atblBuild p.events))
        (p.expansionLimit p.evtLen) 32 p := by
  rw [resolveAliases, run_bind_ok (run_get p), run_ite]
  rfl

section

variable {trees : List (Tree Event)} (shaped : EventTrees trees)
  (distinct : ((anchoredTrees trees).map (·.1)).Nodup)

include shaped distinct

/-- A name has one definition. -/
theorem defines_unique (name : Bytes) (left right : List Event)
    (first : Defines (Tree.flattenList trees) name left)
    (second : Defines (Tree.flattenList trees) name right) : left = right := by
  obtain ⟨tree, inTable, rfl⟩ := (defines_iff shaped).mp first
  obtain ⟨tree', inTable', rfl⟩ := (defines_iff shaped).mp second
  obtain ⟨i, atI⟩ := List.getElem?_of_mem inTable
  obtain ⟨k, atK⟩ := List.getElem?_of_mem inTable'
  obtain rfl := index_unique distinct atI atK
  obtain ⟨_, rfl⟩ := Prod.mk.inj (Option.some.inj (atI.symm.trans atK))
  rfl

/-- A document has one unfolding. -/
theorem eq_unfoldedList {out : List Event}
    (unfolds : Unfolds (Tree.flattenList trees) (Tree.flattenList trees) out) :
    out = unfoldedList trees :=
  unfolds.unique (defines_unique shaped distinct) (unfolds_unfoldedList shaped distinct)

omit distinct in
theorem anchoredTrees_few (few : (Tree.flattenList trees).length < 2 ^ 31) :
    (anchoredTrees trees).length < 2 ^ 31 := by
  have names := congrArg List.length (anchored_namesList trees shaped)
  have shorter := List.length_filterMap_le Event.anchorName (Tree.flattenList trees)
  rw [List.length_map] at names
  omega

omit distinct in
/-- Without definitions nothing is unfolded. -/
theorem unfoldedList_of_isEmpty
    (none : (atblBuild (Tree.flattenList trees)).isEmpty = true) :
    unfoldedList trees = Tree.flattenList trees := by
  have noDefs : anchoredTrees trees = [] := by
    have length := (tableOf_self shaped).length
    rw [List.isEmpty_iff.mp none] at length
    exact List.eq_nil_of_length_eq_zero length.symm
  rw [unfoldedList, RefSystem.unfold_bind_closed]
  intro evt _
  cases body : (aliasRefs trees).body evt with
  | none => rfl
  | some tree =>
      obtain ⟨_, idx, name, _, _, here⟩ := aliasBody_eq_some.mp body
      simp [noDefs] at here

/-- `resolve_aliases` with room for the unfolded list. -/
theorem resolveAliases_fits {p : Parser} (flat : p.events = Tree.flattenList trees)
    (few : p.events.length < 2 ^ 31)
    (fits : ((unfoldedList trees).length : Int) ≤ min (p.expansionLimit p.evtLen) (intMax / 2)) :
    ∃ cursor, resolveAliases p =
      .ok () { p with events := unfoldedList trees, evtCursor := cursor } := by
  rw [flat] at few
  cases none : (atblBuild p.events).isEmpty with
  | true =>
      have same := unfoldedList_of_isEmpty shaped (flat ▸ none)
      exact ⟨p.evtCursor, by rw [resolveAliases_run, if_pos none, same, ← flat]⟩
  | false =>
      have passes := resolvePasses_eq shaped distinct (anchoredTrees_few shaped few) fits 32 0 rfl p
        (by simpa [RefSystem.rounds] using flat)
      rw [← flat] at passes
      obtain ⟨cursor, ended⟩ := passes
      refine ⟨cursor, ?_⟩
      rw [resolveAliases_run, if_neg (by simp [none])]
      exact ended

/-- `resolve_aliases`, where it succeeds. -/
theorem resolveAliases_ok {p p' : Parser} (flat : p.events = Tree.flattenList trees)
    (few : p.events.length < 2 ^ 31) (positive : 0 < p.expansionLimit p.evtLen)
    (ok : resolveAliases p = .ok () p') :
    p'.events = unfoldedList trees ∧
      (p'.events = p.events ∨ (p'.events.length : Int) ≤ p.expansionLimit p.evtLen) := by
  rw [flat] at few
  rw [resolveAliases_run] at ok
  split at ok
  · rename_i none
    cases ok
    exact ⟨flat.trans (unfoldedList_of_isEmpty shaped (flat ▸ none)).symm, .inl rfl⟩
  · rw [flat] at ok
    exact resolvePasses_ok shaped distinct (anchoredTrees_few shaped few) positive 32 0 rfl
      (by simpa [RefSystem.rounds] using flat) (flat ▸ ok)

end

/-- Alias resolution is full recursive unfolding: a bound document has exactly
one unfolding, its aliases that are left cannot be expanded, and
`resolve_aliases` succeeds with it if it stays within the event limit and within
half of the range of `int`. -/
theorem resolveAliases_unfolds (p : Parser) (bound : BoundDocument p.events)
    (few : p.events.length < 2 ^ 31) :
    ∃ out, Unfolds p.events p.events out ∧
      (∀ other, Unfolds p.events p.events other → other = out) ∧
      (∀ evt ∈ out, ∀ node, ¬ Expandable p.events evt node) ∧
      ((out.length : Int) ≤ p.expansionLimit p.evtLen → (out.length : Int) ≤ intMax / 2 →
        ∃ cursor, resolveAliases p = .ok () { p with events := out, evtCursor := cursor }) := by
  obtain ⟨trees, flat, shaped, distinct⟩ := bound.trees
  have unfolds := unfolds_unfoldedList shaped distinct
  refine ⟨unfoldedList trees, ?_, ?_, ?_, fun within small =>
    resolveAliases_fits shaped distinct flat few (Int.le_min.mpr ⟨within, small⟩)⟩ <;> rw [flat]
  · exact unfolds
  · exact fun other h => eq_unfoldedList shaped distinct h
  · exact unfolds.closed

/-- A sequence of an anchored scalar and two aliases of it. -/
def twoAliases : List Event :=
  [{ type := .docStart }, { type := .sequenceStart },
    { type := .scalar, value := ascii "x", anchor := some (boundName (ascii "a") 1) },
    { type := .alias, value := boundName (ascii "a") 1 },
    { type := .alias, value := ascii "b" }, { type := .sequenceEnd }]

theorem twoAliases_unfolds :
    ∃ out, Unfolds twoAliases twoAliases out ∧
      (∀ other, Unfolds twoAliases twoAliases other → other = out) ∧
      (∀ evt ∈ out, ∀ node, ¬ Expandable twoAliases evt node) ∧
      ((out.length : Int) ≤ 10000 → (out.length : Int) ≤ intMax / 2 →
        ∃ cursor, resolveAliases { Parser.new [] with events := twoAliases } =
          .ok () { Parser.new [] with events := out, evtCursor := cursor }) := by
  refine resolveAliases_unfolds { Parser.new [] with events := twoAliases } ⟨?_, ?_⟩ ?_
  · refine ⟨[{ type := .docStart }], .node { type := .sequenceStart }
      ((twoAliases.drop 2).dropLast.map .leaf) { type := .sequenceEnd }, [], rfl, ?_, ?_⟩
    · exact ⟨⟨rfl, rfl, rfl⟩, ⟨rfl, rfl, nofun⟩, ⟨rfl, rfl, fun _ => rfl⟩,
        ⟨rfl, rfl, fun _ => rfl⟩, trivial⟩
    · simpa using ⟨by simp, rfl⟩
  · decide
  · decide

/-! ### A list that its buffer cannot hold -/

def longName : Bytes := boundName (ascii "a") 1

/-- A sequence of `m` scalars, anchored. -/
def longNode (m : Nat) : List Event :=
  { type := .sequenceStart, anchor := some longName } ::
    (List.replicate m { type := .scalar } ++ [{ type := .sequenceEnd }])

def longAlias : Event := { type := .alias, value := longName }

/-- A sequence of the long one and of two aliases of it. -/
def longAliases (m : Nat) : List Event :=
  [{ type := .docStart }, { type := .sequenceStart }] ++ longNode m ++
    [longAlias, longAlias, { type := .sequenceEnd }]

section

variable {m : Nat}

/-- The long node as a tree. -/
def longTree (m : Nat) : Tree Event :=
  .node { type := .sequenceStart, anchor := some longName }
    ((List.replicate m { type := .scalar }).map .leaf) { type := .sequenceEnd }

theorem longTree_flatten : (longTree m).flatten = longNode m := by
  rw [longTree, Tree.flatten, flattenList_leaves, longNode]

theorem longNode_length : (longNode m).length = m + 2 := by simp [longNode]

theorem longAliases_length : (longAliases m).length = m + 7 := by
  simp only [longAliases, List.length_append, longNode_length, List.length_cons, List.length_nil]
  omega

theorem longNode_noAlias : ∀ evt ∈ longNode m, evt.type ≠ .alias := by
  intro evt member
  rcases List.mem_cons.mp member with rfl | rest
  · nofun
  rcases List.mem_append.mp rest with scalar | close
  · rw [List.eq_of_mem_replicate scalar]
    nofun
  · rw [List.mem_singleton.mp close]
    nofun

theorem longTree_shaped : EventTree (longTree m) := by
  refine ⟨⟨rfl, rfl, rfl⟩, Tree.shapedList_iff.mpr fun tree member => ?_⟩
  obtain ⟨evt, isScalar, rfl⟩ := List.mem_map.mp member
  obtain rfl := List.eq_of_mem_replicate isScalar
  exact ⟨rfl, rfl, nofun⟩

theorem longAliases_bound : BoundDocument (longAliases m) := by
  refine ⟨⟨[{ type := .docStart }], .node { type := .sequenceStart }
    [longTree m, .leaf longAlias, .leaf longAlias] { type := .sequenceEnd }, [], ?_, ?_, ?_⟩, ?_⟩
  · simp [longAliases, Tree.flatten, Tree.flattenList, longTree_flatten]
  · exact ⟨⟨rfl, rfl, rfl⟩, longTree_shaped, ⟨rfl, rfl, fun _ => rfl⟩, ⟨rfl, rfl, fun _ => rfl⟩,
      trivial⟩
  · simpa using ⟨by simp, rfl⟩
  · have scalars : (List.replicate m { type := .scalar : Event }).filterMap Event.anchorName = [] :=
      List.filterMap_eq_nil_iff.mpr fun evt member => by
        rw [List.eq_of_mem_replicate member]
        rfl
    have names : (longAliases m).filterMap Event.anchorName = [longName] := by
      simp only [longAliases, longNode, List.filterMap_append, List.filterMap_cons, scalars]
      rfl
    rw [names]
    exact List.nodup_singleton _

theorem longAliases_expandable : Expandable (longAliases m) longAlias (longNode m) := by
  obtain ⟨trees, flat, shaped, distinct⟩ := longAliases_bound (m := m).trees
  have defined : Defines (longAliases m) longName (longNode m) :=
    ⟨_, longTree m, _, by rw [longAliases, longTree_flatten, List.append_assoc], longTree_shaped, rfl,
      longTree_flatten.symm⟩
  refine ⟨rfl, defined, fun reaches => ?_⟩
  obtain ⟨_, ⟨node, other, evt, member, isAlias, _⟩, _⟩ := reaches.successor
  rw [flat] at defined other
  obtain rfl := defines_unique shaped distinct _ _ _ defined other
  exact longNode_noAlias evt member isAlias

/-- Events that are no aliases stay. -/
theorem Unfolds.keepAll {events list rest out : List Event}
    (none : ∀ evt ∈ list, evt.type ≠ .alias) (unfolds : Unfolds events rest out) :
    Unfolds events (list ++ rest) (list ++ out) := by
  induction list with
  | nil => exact unfolds
  | cons evt list ih =>
      refine .keep (fun node expandable => none evt List.mem_cons_self expandable.isAlias) ?_
      exact ih fun other member => none other (List.mem_cons_of_mem _ member)

/-- What the unfolding of the list is. -/
def longUnfolded (m : Nat) : List Event :=
  [{ type := .docStart }, { type := .sequenceStart }] ++ (longNode m ++
    ((longNode m).map Event.copy ++ ((longNode m).map Event.copy ++
      [{ type := .sequenceEnd }])))

theorem longUnfolded_length : (longUnfolded m).length = 3 * m + 9 := by
  simp only [longUnfolded, List.length_append, List.length_map, longNode_length, List.length_cons,
    List.length_nil]
  omega

theorem longAliases_unfold : Unfolds (longAliases m) (longAliases m) (longUnfolded m) := by
  have unfolded : Unfolds (longAliases m) (longNode m) (longNode m) := by
    have kept : Unfolds (longAliases m) (longNode m ++ []) (longNode m ++ []) :=
      .keepAll longNode_noAlias .nil
    rw [List.append_nil] at kept
    exact kept
  have rest : Unfolds (longAliases m)
      ([{ type := .docStart }, { type := .sequenceStart }] ++ (longNode m ++
        [longAlias, longAlias, { type := .sequenceEnd }])) (longUnfolded m) := by
    refine .keepAll (by simp) (.keepAll longNode_noAlias ?_)
    refine .expand longAliases_expandable unfolded (.expand longAliases_expandable unfolded ?_)
    exact .keep (fun _ expandable => nomatch expandable.isAlias) .nil
  rw [← List.append_assoc] at rest
  exact rest

/-- The first pass over the list writes its unfolding. -/
theorem longAliases_round {trees : List (Tree Event)} (flat : longAliases m = Tree.flattenList trees)
    (shaped : EventTrees trees) (distinct : ((anchoredTrees trees).map (·.1)).Nodup) :
    Tree.flattenList (Tree.bindList ((aliasRefs trees).rounds 1) trees) = longUnfolded m := by
  have other {evt : Event} (noAlias : evt.type ≠ .alias) :
      ((aliasRefs trees).expand ((aliasRefs trees).rounds 0) evt).flatten = [evt] := by
    have noBody : (aliasRefs trees).body evt = none := by simp [aliasRefs, aliasBody, noAlias]
    rw [RefSystem.expand_of_none noBody]
    rfl
  have copied : ((aliasRefs trees).expand ((aliasRefs trees).rounds 0) longAlias).flatten =
      (longNode m).map Event.copy := by
    obtain ⟨tree, body, node⟩ := (aliasBody_iff shaped distinct).mpr
      (flat ▸ longAliases_expandable (m := m))
    rw [RefSystem.expand_of_some body, RefSystem.rounds, Tree.bind_leaf, Tree.flatten_map, node]
    rfl
  have kept (list : List Event) (none : ∀ evt ∈ list, evt.type ≠ .alias) :
      (list.flatMap fun evt =>
        ((aliasRefs trees).expand ((aliasRefs trees).rounds 0) evt).flatten) = list := by
    induction list with
    | nil => rfl
    | cons evt list ih =>
        rw [List.flatMap_cons, other (none evt List.mem_cons_self),
          ih fun evt member => none evt (List.mem_cons_of_mem _ member)]
        rfl
  have start : Tree.bindList ((aliasRefs trees).rounds 0) trees = trees := Tree.bindList_leaf trees
  rw [flattenList_rounds_succ shaped 0, start, ← flat, longAliases, List.flatMap_append,
    List.flatMap_append, kept _ (by simp), kept _ longNode_noAlias]
  simp only [List.flatMap_cons, copied, List.flatMap_nil, List.append_nil]
  rw [other (by simp), List.append_assoc]
  rfl

/-- The buffer of the first pass has more than half of the range of `int` as its
capacity, and does not grow. -/
theorem longAliases_stops (large : intMax / 2 < 2 * (m + 7)) (small : (2 * (m + 7) : Int) ≤ intMax)
    {p p' : Parser} (events : p.events = longAliases m) : resolveAliases p ≠ .ok () p' := by
  intro ok
  have many : 25 ≤ m := by
    rw [intMax] at large
    omega
  obtain ⟨trees, flat, shaped, distinct⟩ := longAliases_bound (m := m).trees
  have full (limit : Int) : (resolvePass (longAliases m)
      (cyclicFlags (longAliases m) (atblBuild (longAliases m))) limit).1.oom = true := by
    have out := resolvePass_out shaped 0 limit
    have start : Tree.bindList ((aliasRefs trees).rounds 0) trees = trees := Tree.bindList_leaf trees
    rw [start, longAliases_round flat shaped distinct, ← flat] at out
    have cap : (EvtBuf.init (longAliases m).length limit).cap = 2 * (m + 7) := by
      change max (asInt ((longAliases m).length * 2)) 64 = _
      rw [longAliases_length, asInt_of_le (by omega)]
      omega
    rw [out]
    refine EvtBuf.pushAll_over ?_ ?_ ?_ <;> rw [cap]
    · exact large
    · rw [EvtBuf.init_data, List.length_nil]
      omega
    · rw [EvtBuf.init_data, List.length_nil, longUnfolded_length]
      omega
  have defined : (atblBuild (longAliases m)).isEmpty = false := by
    by_contra none
    have empty : atblBuild (longAliases m) = [] := List.isEmpty_iff.mp (by simpa using none)
    have inside : 2 ∈ List.range (longAliases m).length := by
      rw [List.mem_range, longAliases_length]
      omega
    exact nomatch List.filterMap_eq_nil_iff.mp empty 2 inside
  rw [resolveAliases_run, events, if_neg (by simp [defined])] at ok
  simp only [resolvePasses, run_bind, run_get, events, full, if_true] at ok
  exact expansionFailed_stops _ ok

end

/-- Fewer than `2 ^ 31` events whose unfolding is within the event limit, but
not within half of the range of `int`. -/
theorem longAliases_refused :
    let p := { Parser.new [] with events := longAliases (2 ^ 29), maxEvents := intMax }
    BoundDocument p.events ∧ p.events.length < 2 ^ 31 ∧
      (∃ out, Unfolds p.events p.events out ∧ (out.length : Int) ≤ p.expansionLimit p.evtLen) ∧
      ∀ p', resolveAliases p ≠ .ok () p' := by
  generalize isLength : 2 ^ 29 = m
  refine ⟨longAliases_bound, ?_, ⟨_, longAliases_unfold, ?_⟩, fun p' => longAliases_stops ?_ ?_ rfl⟩
  · rw [longAliases_length]
    omega
  · rw [longUnfolded_length, ← isLength]
    decide
  · rw [← isLength]
    decide
  · rw [← isLength]
    decide

end Oyl
