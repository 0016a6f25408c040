import Mathlib.Algebra.Ring.Int.Defs
import Oyl.Events.Audit
import Oyl.Events.EagerDocuments

/-!
# Runs of the eager parser

The events that calls of `oyl_parse_next` deliver are the beginning of a stream, and a
whole one once its end is delivered; they nest no deeper than the limit.
-/

namespace Oyl

open StateError

/-- The parser is in state `p` after calls of `oyl_parse_next` that all succeeded and
delivered these events. -/
inductive Succeeding (start : Parser) : List Event → Parser → Prop where
  | start : Succeeding start [] start
  | event {delivered : List Event} {p p' : Parser} {fuel : Nat} {evt : Event} :
      Succeeding start delivered p → nextEvent fuel p = .ok (some evt) p' →
      Succeeding start (delivered ++ [evt]) p'
  | noEvent {delivered : List Event} {p p' : Parser} {fuel : Nat} :
      Succeeding start delivered p → nextEvent fuel p = .ok none p' →
      Succeeding start delivered p'

/-- What the next `n` calls deliver, if each of them delivers an event. -/
def takeEvents (fuel : Nat) (start : Parser) : Nat → Option (List Event × Parser)
  | 0 => some ([], start)
  | n + 1 => do
      let (delivered, p) ← takeEvents fuel start n
      match nextEvent fuel p with
      | .ok (some evt) p' => some (delivered ++ [evt], p')
      | _ => none

theorem succeeding_of_takeEvents {fuel n : Nat} {start p : Parser} {delivered : List Event}
    (taken : takeEvents fuel start n = some (delivered, p)) : Succeeding start delivered p := by
  induction n generalizing delivered p with
  | zero =>
      cases taken
      exact .start
  | succ n ih =>
      rw [takeEvents, Option.bind_eq_bind, Option.bind_eq_some_iff] at taken
      obtain ⟨⟨before, q⟩, isBefore, last⟩ := taken
      dsimp only at last
      split at last
      · rename_i ok
        cases last
        exact (ih isBefore).event ok
      · cases last

/-- Calls found by evaluation. -/
theorem exists_succeeding (fuel : Nat) (start : Parser) (n : Nat)
    (holds : List Event → Parser → Prop) [∀ delivered p, Decidable (holds delivered p)]
    (found : ((takeEvents fuel start n).any fun run => holds run.1 run.2) = true) :
    ∃ delivered p, Succeeding start delivered p ∧ holds delivered p := by
  obtain ⟨run, isRun, property⟩ := (Option.any_eq_true _ _).mp found
  exact ⟨run.1, run.2, succeeding_of_takeEvents isRun, of_decide_eq_true property⟩

/-! ### Depth -/

/-- How many more collections are open after an event. -/
def EventType.step : EventType → Int
  | .mappingStart | .sequenceStart => 1
  | .mappingEnd | .sequenceEnd => -1
  | _ => 0

/-- How many more collections are open after these events. -/
def openCollections (types : List EventType) : Int := (types.map EventType.step).sum

/-- No more than `limit` collections are open at any event, from `depth` on. -/
def NestsWithin (limit depth : Int) (types : List EventType) : Prop :=
  ∀ before after, types = before ++ after → depth + openCollections before ≤ limit

theorem Place.fill_depth {place next : Place} {opened : List Cell}
    (filled : place.fill opened = some next) : next.depth = place.depth + opened.length := by
  obtain ⟨cell, cell', cells, rfl, _, rfl⟩ := Place.fill_eq_some filled
  simp only [Place.depth, List.length_append, List.length_cons]
  omega

theorem Place.feed_depth {place next : Place} {type : EventType}
    (fed : place.feed type = some next) : next.depth = place.depth + type.step := by
  cases type <;> simp only [Place.feed] at fed
  case none => cases fed
  case scalar => exact Place.fill_depth fed
  case «alias» => exact Place.fill_depth fed
  case sequenceStart => exact Place.fill_depth fed
  case mappingStart => exact Place.fill_depth fed
  case sequenceEnd =>
    split at fed <;> cases fed
    simp only [Place.depth, EventType.step, List.length_cons]
    omega
  case mappingEnd =>
    split at fed <;> cases fed
    simp only [Place.depth, EventType.step, List.length_cons]
    omega
  all_goals
    split at fed <;> cases fed
    subst place
    rfl

theorem Place.feedAll_depth {first last : Place} {types : List EventType}
    (fed : first.feedAll types = some last) :
    last.depth = first.depth + openCollections types := by
  induction types generalizing first with
  | nil =>
      cases fed
      simp [openCollections]
  | cons type types ih =>
      obtain ⟨next, one, rest⟩ := Option.bind_eq_some_iff.mp fed
      rw [ih rest, Place.feed_depth one]
      simp [openCollections, Int.add_assoc]

theorem NestsWithin.cons {limit depth : Int} {type : EventType} {types : List EventType}
    (start : depth ≤ limit) (rest : NestsWithin limit (depth + type.step) types) :
    NestsWithin limit depth (type :: types) := by
  intro before after split
  cases before with
  | nil => simpa [openCollections] using start
  | cons first before =>
      obtain ⟨rfl, rfl⟩ := List.cons.inj split
      have deeper := rest before after rfl
      simpa [openCollections, Int.add_assoc] using deeper

theorem NestsWithin.append {limit depth : Int} {left right : List EventType}
    (first : NestsWithin limit depth left)
    (second : NestsWithin limit (depth + openCollections left) right) :
    NestsWithin limit depth (left ++ right) := by
  intro before after split
  rcases List.append_eq_append_iff.mp split with ⟨more, rfl, isRight⟩ | ⟨more, isLeft, rfl⟩
  · have deeper := second more after isRight
    simpa [openCollections, Int.add_assoc] using deeper
  · exact first before more isLeft

theorem depthWithin_nests {limit depth : Int} {events : List Event} (start : depth ≤ limit)
    (within : depthWithin limit depth events = true) :
    NestsWithin limit depth (events.map (·.type)) := by
  induction events generalizing depth with
  | nil =>
      intro before after split
      obtain ⟨rfl, rfl⟩ := List.append_eq_nil_iff.mp split.symm
      simpa [openCollections] using start
  | cons evt events ih =>
      rw [depthWithin] at within
      rw [List.map_cons]
      refine .cons start ?_
      cases type : evt.type <;> rw [type] at within <;> simp only [EventType.step]
      case mappingStart =>
        obtain ⟨fits, rest⟩ := Bool.and_eq_true_iff.mp within
        exact ih (of_decide_eq_true fits) rest
      case sequenceStart =>
        obtain ⟨fits, rest⟩ := Bool.and_eq_true_iff.mp within
        exact ih (of_decide_eq_true fits) rest
      case mappingEnd => exact ih (by omega) within
      case sequenceEnd => exact ih (by omega) within
      all_goals exact ih (by omega) (by simpa using within)

/-! ### Beginnings of streams -/

/-- These events begin a stream, and are a whole one once its end is among them. -/
def BeginsStream (types : List EventType) : Prop :=
  (∃ rest, WellFormedStream (types ++ rest)) ∧
    (.streamEnd ∈ types → WellFormedStream types)

/-- Nothing follows the end of the stream. -/
theorem Place.feedAll_streamEnd {first last : Place} {types : List EventType}
    (fed : first.feedAll types = some last) (ended : .streamEnd ∈ types) : last = .ended := by
  obtain ⟨before, after, rfl⟩ := List.append_of_mem ended
  rw [Place.feedAll_append] at fed
  obtain ⟨place, _, rest⟩ := Option.bind_eq_some_iff.mp fed
  obtain ⟨next, one, rest⟩ := Option.bind_eq_some_iff.mp rest
  simp only [Place.feed] at one
  split at one <;> cases one
  cases after with
  | nil =>
      cases rest
      rfl
  | cons type after =>
      obtain ⟨_, impossible, _⟩ := Option.bind_eq_some_iff.mp rest
      cases type <;> cases impossible

/-- Collections are open in one document. -/
def OpenCells : List Cell → Prop
  | [] => False
  | .document :: cells => cells = []
  | .closed :: cells => cells = []
  | _ :: cells => OpenCells cells

/-- A place that a stream can get to. -/
def Place.Proper : Place → Prop
  | .inside cells => OpenCells cells
  | _ => True

theorem OpenCells.filled {cell cell' : Cell} {cells : List Cell}
    (proper : OpenCells (cell :: cells)) (filled : cell.filled = some cell') :
    OpenCells (cell' :: cells) := by
  cases cell <;> cases filled <;> exact proper

theorem Place.feed_proper {place next : Place} {type : EventType} (proper : place.Proper)
    (fed : place.feed type = some next) : next.Proper := by
  have filled {opened : List Cell} (fed : place.fill opened = some next)
      (collection : ∀ cells, OpenCells cells → OpenCells (opened ++ cells)) : next.Proper := by
    obtain ⟨cell, cell', cells, rfl, filled, rfl⟩ := Place.fill_eq_some fed
    exact collection _ (OpenCells.filled proper filled)
  cases type <;> simp only [Place.feed] at fed
  case none => cases fed
  case scalar => exact filled fed fun _ => id
  case «alias» => exact filled fed fun _ => id
  case sequenceStart => exact filled fed fun _ => id
  case mappingStart => exact filled fed fun _ => id
  case docStart =>
    split at fed <;> cases fed
    rfl
  all_goals
    split at fed <;> cases fed
    first | exact trivial | exact proper

theorem Place.feedAll_proper {first last : Place} {types : List EventType} (proper : first.Proper)
    (fed : first.feedAll types = some last) : last.Proper := by
  induction types generalizing first with
  | nil =>
      cases fed
      exact proper
  | cons type types ih =>
      obtain ⟨next, one, rest⟩ := Option.bind_eq_some_iff.mp fed
      exact ih (Place.feed_proper proper one) rest

/-- From there the stream can be completed. -/
theorem Place.Proper.completed {place : Place} (proper : place.Proper) :
    ∃ types, place.feedAll types = some .ended := by
  cases place with
  | start => exact ⟨[.streamStart, .streamEnd], rfl⟩
  | between => exact ⟨[.streamEnd], rfl⟩
  | ended => exact ⟨[], rfl⟩
  | inside cells =>
      induction cells with
      | nil => exact False.elim proper
      | cons cell cells ih =>
          cases cell with
          | document =>
              obtain rfl : cells = [] := proper
              exact ⟨[.scalar, .docEnd, .streamEnd], rfl⟩
          | closed =>
              obtain rfl : cells = [] := proper
              exact ⟨[.docEnd, .streamEnd], rfl⟩
          | items =>
              obtain ⟨types, completed⟩ := ih proper
              exact ⟨.sequenceEnd :: types, completed⟩
          | key =>
              obtain ⟨types, completed⟩ := ih proper
              exact ⟨.mappingEnd :: types, completed⟩
          | value =>
              obtain ⟨types, completed⟩ := ih proper
              exact ⟨.scalar :: .mappingEnd :: types, completed⟩

theorem beginsStream_of_feedAll {types : List EventType} {last : Place}
    (fed : Place.start.feedAll types = some last) : BeginsStream types := by
  have start : Place.start.Proper := trivial
  have proper := Place.feedAll_proper start fed
  constructor
  · obtain ⟨rest, completed⟩ := proper.completed
    exact ⟨rest, wellFormed_of_feedAll (Place.feedAll_trans last fed completed)⟩
  · intro ended
    exact wellFormed_of_feedAll (Place.feedAll_streamEnd fed ended ▸ fed)

/-! ### Runs -/

/-- The eager parser after it delivered these events. -/
structure EagerRun (limit : Int) (delivered : List Event) (p : Parser) : Prop where
  rests : p.Rests
  noSkip : p.skipN = 0
  bounded : p.maxDepth = limit
  fed : Place.start.feedAll ((delivered ++ p.events.drop p.evtCursor).map (·.type)) = some p.place
  nests : 0 < limit →
    NestsWithin limit 0 ((delivered ++ p.events.drop p.evtCursor).map (·.type))

theorem Parser.place_depth (p : Parser) : p.place.depth = 0 := by
  rw [Parser.place]
  split
  · rfl
  split
  · rw [docPlace]
    split <;> rfl
  · rfl

/-- Expansion changes neither what the parser rests on nor its place. -/
theorem Redraws.rests {first last : Place} {p p' : Parser} (redraws : Redraws first last p p')
    (rests : p.Rests) : p'.Rests ∧ p'.place = p.place ∧ p'.maxDepth = p.maxDepth := by
  obtain ⟨names, isNext⟩ := redraws.other
  rw [isNext]
  exact ⟨⟨rests.eager, rests.contexts, rests.fresh, rests.ahead⟩, rfl, rfl⟩

/-- A refill parses a document and expands it, and then skips what was delivered. -/
theorem eagerRefill_parts {n : Nat} {p p' : Parser} (ok : eagerRefill (eager n) p = .ok () p') :
    ∃ q r, parseStream (eager n)
        { p with evtBase := p.evtBase + p.evtLen, events := [], evtCursor := 0 } = .ok () q ∧
      expandDocument q = .ok () r ∧ Audited p r ∧
      (if r.skipN > 0 then skipDelivered else pure ()) r = .ok () p' := by
  obtain ⟨_, start, emptied, rest⟩ := bind_eq_ok ok
  cases emptied
  obtain ⟨_, q, parsed, rest⟩ := bind_eq_ok rest
  obtain ⟨_, r, expanded, rest⟩ := bind_eq_ok rest
  have kept := audited_parseStream n
    { p with evtBase := p.evtBase + p.evtLen, events := [], evtCursor := 0 }
  have kept' := audited_expandDocument q
  rw [after_ok parsed] at kept
  rw [after_ok expanded] at kept'
  exact ⟨q, r, parsed, expanded, audited_preorder.trans kept kept', rest⟩

/-- What the eager parser has parsed when it goes on to the next document. -/
structure Reparsed (p r : Parser) : Prop where
  rests : r.Rests
  cursor : r.evtCursor = 0
  bounded : r.maxDepth = p.maxDepth
  fed : p.place.feedAll (r.events.map (·.type)) = some r.place
  within : 0 < p.maxDepth → depthWithin p.maxDepth 0 r.events = true

theorem reparsed {n : Nat} {p q r : Parser} (rests : p.Rests) (running : p.streamEnded = false)
    (parsed : parseStream (eager n)
      { p with evtBase := p.evtBase + p.evtLen, events := [], evtCursor := 0 } = .ok () q)
    (expanded : expandDocument q = .ok () r) : Reparsed p r := by
  obtain ⟨rests', _, leads⟩ := parseStream_leads
    (p := { p with evtBase := p.evtBase + p.evtLen, events := [], evtCursor := 0 })
    ⟨rests.eager, rests.contexts, rests.fresh, rests.ahead⟩ running parsed
  obtain ⟨_, trees, rfl, chunk⟩ := leads.chunk
  have cursor : q.evtCursor = 0 := congrArg Prod.fst leads.window
  have deep : q.maxDepth = p.maxDepth := congrArg Prod.snd leads.window
  obtain ⟨redraws, within⟩ := expandDocument_redraws chunk cursor expanded
  obtain ⟨rests'', place, deep'⟩ := redraws.rests rests'
  obtain ⟨trees', chunk'⟩ := redraws.chunk
  have bounded := deep'.trans deep
  exact ⟨rests'', redraws.cursor.trans cursor, bounded, place ▸ chunk'.types,
    fun limited => bounded ▸ within (bounded ▸ limited)⟩

/-- The next document. -/
theorem EagerRun.refill {limit : Int} {delivered : List Event} {p p' : Parser} {n : Nat}
    (run : EagerRun limit delivered p) (read : p.events[p.evtCursor]? = none)
    (running : p.streamEnded = false) (ok : eagerRefill (eager n) p = .ok () p') :
    EagerRun limit delivered p' := by
  obtain ⟨q, r, parsed, expanded, same, rest⟩ := eagerRefill_parts ok
  have noSkip : r.skipN = 0 := (congrArg Audit.skipN same).trans run.noSkip
  rw [noSkip] at rest
  cases rest
  have next := reparsed run.rests running parsed expanded
  have bounded : p'.maxDepth = limit := next.bounded.trans run.bounded
  have consumed : p.events.drop p.evtCursor = [] :=
    List.drop_eq_nil_of_le (List.getElem?_eq_none_iff.mp read)
  have fed := run.fed
  have nests := run.nests
  rw [consumed, List.append_nil] at fed nests
  have queued : p'.events.drop p'.evtCursor = p'.events := by
    rw [next.cursor, List.drop_zero]
  -- before this document no collection is open
  have closed : openCollections (delivered.map (·.type)) = 0 := by
    have depth := Place.feedAll_depth fed
    rw [p.place_depth] at depth
    change 0 = 0 + openCollections (delivered.map (·.type)) at depth
    omega
  refine ⟨next.rests, noSkip, bounded, ?_, fun limited => ?_⟩
  · rw [queued, List.map_append]
    exact Place.feedAll_trans p.place fed next.fed
  · rw [queued, List.map_append]
    refine (nests limited).append ?_
    rw [closed]
    exact depthWithin_nests (by omega) (run.bounded ▸ next.within (run.bounded ▸ limited))

/-- One call of `eager_next_event`. -/
theorem EagerRun.next {limit : Int} {delivered : List Event} {p p' : Parser} {n fuel : Nat}
    {result : Option Event} (run : EagerRun limit delivered p)
    (ok : eagerNextEvent (eager n) fuel p = .ok result p') :
    EagerRun limit (delivered ++ result.toList) p' := by
  induction fuel generalizing p with
  | zero => cases ok
  | succ fuel ih =>
      rw [eagerNextEvent, get_bind_eq] at ok
      cases read : p.events[p.evtCursor]? with
      | some evt =>
          rw [read] at ok
          cases ok
          obtain ⟨inside, rfl⟩ := List.getElem?_eq_some_iff.mp read
          have queued := List.drop_eq_getElem_cons inside
          have fed := run.fed
          have nests := run.nests
          rw [queued, List.append_cons] at fed nests
          exact ⟨⟨run.rests.eager, run.rests.contexts, run.rests.fresh, run.rests.ahead⟩,
            run.noSkip, run.bounded, fed, nests⟩
      | none =>
          rw [read] at ok
          dsimp only at ok
          cases ended : p.streamEnded with
          | true =>
              rw [ended] at ok
              cases ok
              exact (List.append_nil delivered).symm ▸ run
          | false =>
              rw [ended] at ok
              obtain ⟨_, q, refilled, rest⟩ := bind_eq_ok ok
              exact ih (run.refill read ended refilled) rest

/-- `oyl_parser_set_schema`, `…_set_merge` or `…_set_resolve` makes the parser eager. -/
def Options.eager (o : Options) : Bool := o.schema.isSome || o.merge || o.resolve

theorem EagerRun.new {o : Options} (input : Bytes) (eager : o.eager = true) :
    EagerRun o.maxDepth [] ((Parser.new input).configure o) where
  rests := by
    refine ⟨?_, rfl, fun _ => rfl, fun impossible => Bool.noConfusion impossible⟩
    simp only [Options.eager, Bool.or_eq_true, Option.isSome_iff_ne_none] at eager
    rw [Parser.configure]
    rcases eager with (schema | merge) | resolve
    · simp [schema]
    · simp [merge]
    · simp [resolve]
  noSkip := rfl
  bounded := rfl
  fed := rfl
  nests limited before after split := by
    obtain ⟨rfl, rfl⟩ := List.append_eq_nil_iff.mp split.symm
    change 0 + 0 ≤ o.maxDepth
    omega

/-- The eager parser keeps what holds of its runs. -/
theorem eagerRun {o : Options} {input : Bytes} {delivered : List Event} {p : Parser}
    (eager : o.eager = true)
    (calls : Succeeding ((Parser.new input).configure o) delivered p) :
    EagerRun o.maxDepth delivered p := by
  have next {delivered : List Event} {p p' : Parser} {fuel : Nat} {result : Option Event}
      (run : EagerRun o.maxDepth delivered p) (ok : nextEvent fuel p = .ok result p') :
      EagerRun o.maxDepth (delivered ++ result.toList) p' := by
    rw [nextEvent, get_bind_eq, run.rests.eager] at ok
    exact run.next ok
  induction calls with
  | start => exact .new input eager
  | event _ ok run => exact next run ok
  | noEvent _ ok run => simpa using next run ok

/-- What the eager parser delivers begins a stream, and is a whole one once its end is
delivered. -/
theorem eager_wellFormed {o : Options} {input : Bytes} {delivered : List Event} {p : Parser}
    (eager : o.eager = true)
    (calls : Succeeding ((Parser.new input).configure o) delivered p) :
    BeginsStream (delivered.map (·.type)) := by
  have fed := (eagerRun eager calls).fed
  rw [List.map_append, Place.feedAll_append] at fed
  obtain ⟨place, fed, _⟩ := Option.bind_eq_some_iff.mp fed
  exact beginsStream_of_feedAll fed

/-- `a` -/
theorem eager_wellFormed_scalar :
    ∃ delivered p, Succeeding ((Parser.new [97]).configure { resolve := true }) delivered p ∧
      WellFormedStream (delivered.map (·.type)) := by
  obtain ⟨delivered, p, calls, ended⟩ := exists_succeeding 8
    ((Parser.new [97]).configure { resolve := true }) 5
    (fun delivered _ => .streamEnd ∈ delivered.map (·.type)) (by decide +kernel)
  exact ⟨delivered, p, calls, (eager_wellFormed rfl calls).2 ended⟩

/-- The events that the eager parser delivers nest no deeper than the depth limit. -/
theorem eager_nestsWithin {o : Options} {input : Bytes} {delivered : List Event} {p : Parser}
    (eager : o.eager = true) (limited : 0 < o.maxDepth)
    (calls : Succeeding ((Parser.new input).configure o) delivered p) :
    NestsWithin o.maxDepth 0 (delivered.map (·.type)) := by
  intro before after split
  refine (eagerRun eager calls).nests limited before
    (after ++ (p.events.drop p.evtCursor).map (·.type)) ?_
  rw [List.map_append, split, List.append_assoc]

/-- `[a]` -/
theorem eager_nestsWithin_sequence :
    ∃ delivered p, Succeeding
        ((Parser.new [lbracket, 97, rbracket]).configure { resolve := true, maxDepth := 1 })
        delivered p ∧
      .sequenceEnd ∈ delivered.map (·.type) ∧ NestsWithin 1 0 (delivered.map (·.type)) := by
  obtain ⟨delivered, p, calls, ended⟩ := exists_succeeding 8
    ((Parser.new [lbracket, 97, rbracket]).configure { resolve := true, maxDepth := 1 }) 5
    (fun delivered _ => .sequenceEnd ∈ delivered.map (·.type)) (by decide +kernel)
  have nests := eager_nestsWithin rfl (by decide) calls
  exact ⟨delivered, p, calls, ended, nests⟩

end Oyl
