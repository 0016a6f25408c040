import Oyl.Events.EagerFrame
import Oyl.Events.Grammar
import Oyl.Logic.Triples
import Oyl.Parser.Incremental

/-!
# Where the incremental parser stands

The state of the incremental parser, with the states that its frames return to,
says how far the events have come in the grammar of streams.  Every step queues
events that lead from where the parser stood to where it stands.
-/

namespace Oyl

open StateError

/-- What the incremental parser goes by, besides the tokens. -/
structure Stance where
  state : PState
  nodeReturn : PState
  frames : List Frame
  docOpen : Bool
  saved : EventType
  deriving DecidableEq

def Parser.stance (p : Parser) : Stance :=
  ⟨p.state, p.nodeReturn, p.frames, p.docOpen, p.savedNode.type⟩

/-- The frame and the constructs of a collection in whose state `state` a node is complete.
A pair in a flow sequence is a mapping without a frame. -/
def PState.collection : PState → Option (CtxType × List Cell)
  | .flowSeqSep => some (.flowSeq, [.items])
  | .flowSeqImplicitEnd => some (.flowSeq, [.key, .items])
  | .flowSeqExplicitValue => some (.flowSeq, [.value, .items])
  | .flowSeqExplicitEnd => some (.flowSeq, [.key, .items])
  | .flowMapSep => some (.flowMap, [.key])
  | .flowMapValue => some (.flowMap, [.value])
  | .blockMapPostKey => some (.blockMap, [.value])
  | .blockMapLoop => some (.blockMap, [.key])
  | .blockSeqLoop => some (.blockSeq, [.items])
  | _ => none

/-- The open constructs once a node is complete, and the parser returns to `state`. -/
def cellsAfter : PState → List Frame → Option (List Cell)
  | state, [] => if state = .docEndExplicit then some [.closed] else none
  | state, frame :: frames =>
      (cellsAfter frame.returnState frames).bind fun below =>
        state.collection.bind fun (type, cells) =>
          if frame.type = type then some (cells ++ below) else none

namespace Stance

/-- The constructs that are open are those of `state`, where a node was complete. -/
def Inside (v : Stance) (state : PState) (place : Place) : Prop :=
  ∃ cells, cellsAfter state v.frames = some cells ∧ place = .inside cells

/-- A node is next, and the parser returns to `state` after it. -/
def Awaits (v : Stance) (state : PState) (place : Place) : Prop :=
  ∃ cells, cellsAfter state v.frames = some cells ∧ place.fill [] = some (.inside cells)

/-- The saved node is a scalar or an alias. -/
def HasLeaf (v : Stance) : Prop := v.saved = .scalar ∨ v.saved = .alias

/-- The place in the stream where the incremental parser is.  No run gets to `ST_UNROLL`. -/
def Stands (v : Stance) (place : Place) : Prop :=
  match v.state with
  | .streamStart => v.frames = [] ∧ v.docOpen = false ∧ place = .start
  | .streamDocLoop | .streamEnd | .docDirectives | .docStartExplicit | .docStartImplicit =>
      v.frames = [] ∧ v.docOpen = false ∧ place = .between
  | .docContent => v.frames = [] ∧ place = .inside [.document]
  | .done => place = .ended
  | .docEndExplicit => v.Inside .docEndExplicit place
  | .blockNode | .blockNodeScalar | .blockNodeAlias | .blockNodeSeq | .blockNodeExplicitKey
  | .blockNodeBareValue | .blockNodeEmpty | .flowNode => v.Awaits v.nodeReturn place
  | .blockNodeScalarKey | .blockNodeAliasKey => v.Awaits v.nodeReturn place ∧ v.HasLeaf
  | .blockMapLoop | .blockMapExplicitKey | .blockMapSimpleKey | .blockMapEnd
  | .blockMapValueNode => v.Inside .blockMapLoop place
  | .blockMapPostKey | .blockMapValue => v.Inside .blockMapPostKey place
  | .blockSeqLoop | .blockSeqEntry | .blockSeqEntryNode | .blockSeqEnd =>
      v.Inside .blockSeqLoop place
  | .flowSeqLoop | .flowSeqEntry | .flowSeqExplicitKey | .flowSeqCheckColon | .flowSeqSep
  | .flowSeqEnd => v.Inside .flowSeqSep place
  | .flowSeqEntryKey => v.Inside .flowSeqSep place ∧ v.HasLeaf
  | .flowSeqImplicitEnd => v.Inside .flowSeqImplicitEnd place
  | .flowSeqExplicitValue => v.Inside .flowSeqExplicitValue place
  | .flowSeqExplicitEnd => v.Inside .flowSeqExplicitEnd place
  | .flowMapLoop | .flowMapSep | .flowMapEnd => v.Inside .flowMapSep place
  | .flowMapValue => v.Inside .flowMapValue place
  | .unroll => False
  | .eagerDrain => True

end Stance

/-! ### What a step has queued -/

/-- The types of the queued events. -/
def Parser.queued (p : Parser) : List EventType := p.outBuf.map (·.type)

/-- How many events were delivered before the checkpoint. -/
def Parser.mark (p : Parser) : Option Nat := p.ckpt.map fun _ => p.ckptDelivered

/-- What a step starts from. -/
structure Origin where
  place : Place
  mark : Option Nat

/-- The queued events lead somewhere. -/
def Viable (first : Origin) (p : Parser) : Prop :=
  p.outCursor = 0 ∧ ∃ last, first.place.feedAll p.queued = some last

/-- The checkpoint is the old one, or is where the step started, between documents. -/
def Marked (first : Origin) (p : Parser) : Prop :=
  p.mark = first.mark ∨ first.place = .between ∧ p.mark = some p.eventsDelivered

/-- The queued events lead from `first` to `place`, unless the event limit has stopped the
parser; then nothing more is queued. -/
structure At (first : Origin) (n : Nat) (v : Stance) (place : Place) (p : Parser) : Prop where
  cursor : p.outCursor = 0
  few : p.outBuf.length ≤ n
  stance : p.stance = v
  leads : ∃ last, first.place.feedAll p.queued = some last ∧ (p.oom = false → last = place)
  frozen : p.oom = true → p.incOverLimit = true
  marked : Marked first p

/-- The queued events lead from `first` to where the parser stands, unless it stopped. -/
def Settled (first : Origin) (p : Parser) : Prop :=
  p.outCursor = 0 ∧ ∃ last, first.place.feedAll p.queued = some last ∧
    (p.oom = false → p.stance.Stands last ∧ Marked first p)

/-- What the queue, the event limit and the checkpoint go by. -/
def Parser.tally (p : Parser) : List Event × Bool × Int × Nat × Option Nat × Nat :=
  (p.outBuf, p.oom, p.maxEvents, p.eventsDelivered, p.mark, p.outCursor)

/-- Nothing is queued, and the parser stays where it is. -/
def Calm (p q : Parser) : Prop := q.tally = p.tally ∧ q.stance = p.stance

theorem calm_preorder : Preorder Calm where
  refl _ := ⟨rfl, rfl⟩
  trans first second := ⟨second.1.trans first.1, second.2.trans first.2⟩

theorem calm_peek : Respects Calm peekToken := by
  intro p
  rw [after, peekToken, get_bind_eq]
  by_cases held : p.haveToken = true
  · rw [if_pos held]
    exact calm_preorder.refl p
  · rw [if_neg held]
    cases scanToken p.scanner with
    | ok tok scanner => exact ⟨rfl, rfl⟩
    | error st scanner =>
        dsimp only
        cases scanner.errorMsg == "" <;> exact ⟨rfl, rfl⟩

theorem calm_peekQuiet : Respects Calm peekQuiet := by
  intro p
  have same : after peekQuiet p = after peekToken p := by
    rw [after, after, peekQuiet]
    cases peekToken p with
    | ok a q => rfl
    | error e q => cases e <;> rfl
  rw [same]
  exact calm_peek p

theorem calm_props : PropsLogic (Respects Calm) where
  toCompositional := Respects.compositional calm_preorder
  error _ _ := fun _ => ⟨rfl, rfl⟩
  read _ _ rest := .getBind fun p => rest p p
  peek := calm_peek
  hold u update := by
    refine .modify fun p => ?_
    rw [update.props p]
    exact ⟨rfl, rfl⟩

theorem calm_peekType : Respects Calm peekType :=
  .bind calm_preorder calm_peek fun _ => .getBind fun p => calm_preorder.refl p

theorem calm_peekTypeQuiet : Respects Calm peekTypeQuiet :=
  .bind calm_preorder calm_peekQuiet fun _ => .getBind fun p => calm_preorder.refl p

theorem calm_consume : Respects Calm consumeToken := fun _ => ⟨rfl, rfl⟩

theorem calm_covering (p : Parser) (offset : Nat) : Calm p (p.flowIsBlockKey offset).2 := by
  change Calm p (p.fkCovering offset)
  unfold Parser.fkCovering
  split <;> exact ⟨rfl, rfl⟩

theorem calm_checkOom : Respects Calm checkOom := by
  refine .getBind fun p => ?_
  split <;> exact calm_preorder.refl p

section

variable {first : Origin} {place place' : Place} {n : Nat} {v : Stance} {p q : Parser} {α β : Type}

theorem At.viable (here : At first n v place p) : Viable first p := by
  obtain ⟨last, leads, _⟩ := here.leads
  exact ⟨here.cursor, last, leads⟩

theorem At.settled (here : At first n v place p) (stands : v.Stands place) : Settled first p := by
  obtain ⟨last, leads, isPlace⟩ := here.leads
  refine ⟨here.cursor, last, leads, fun live => ⟨?_, here.marked⟩⟩
  rw [here.stance, isPlace live]
  exact stands

theorem At.moved {w : Stance} (here : At first n v place p) (same : q.tally = p.tally)
    (stance : q.stance = w) : At first n w place q := by
  simp only [Parser.tally, Prod.mk.injEq] at same
  obtain ⟨queue, oom, limit, count, mark, cursor⟩ := same
  obtain ⟨last, leads, isPlace⟩ := here.leads
  refine ⟨cursor.trans here.cursor, queue ▸ here.few, stance, ⟨last, ?_, ?_⟩, fun stopped => ?_, ?_⟩
  · rw [Parser.queued, queue]
    exact leads
  · rw [oom]
    exact isPlace
  · rw [Parser.incOverLimit, limit, count, queue]
    exact here.frozen (oom ▸ stopped)
  · rw [Marked, mark, count]
    exact here.marked

theorem At.calm (here : At first n v place p) (calm : Calm p q) : At first n v place q :=
  here.moved calm.1 (calm.2.trans here.stance)

/-! ### Rules -/

/-- A step that queues nothing and stays in the state. -/
theorem at_calm {x : ParseM α} (calm : Respects Calm x) :
    Triple (At first n v place) x (fun _ => At first n v place) (fun _ => Viable first) :=
  .of_respects calm (fun _ _ here same => here.calm same) fun _ _ _ here _ same =>
    (here.calm same).viable

theorem at_get {f : Parser → ParseM α} {Q : α → Parser → Prop}
    (rest : ∀ p, p.stance = v → Triple (At first n v place) (f p) Q (fun _ => Viable first)) :
    Triple (At first n v place) (get >>= f) Q (fun _ => Viable first) :=
  fun p here => rest p here.stance p here

/-- An update of the stance. -/
theorem at_update {u : Parser → Parser} (w : Stance)
    (same : ∀ p, p.stance = v → (u p).tally = p.tally ∧ (u p).stance = w) :
    Triple (At first n v place) (modify u : ParseM Unit) (fun _ => At first n w place)
      (fun _ => Viable first) :=
  .modify fun p here => here.moved (same p here.stance).1 (same p here.stance).2

theorem at_setState (state : PState) :
    Triple (At first n v place) (setState state)
      (fun _ => At first n { v with state := state } place) (fun _ => Viable first) :=
  at_update _ fun _ stance => ⟨rfl, stance ▸ rfl⟩

theorem at_returnNode :
    Triple (At first n v place) returnNode
      (fun _ => At first n { v with state := v.nodeReturn } place) (fun _ => Viable first) :=
  at_update _ fun _ stance => ⟨rfl, stance ▸ rfl⟩

theorem at_attach (evt : Event) :
    Triple (At first n v place) (attachProps evt)
      (fun evt' p => evt'.type = evt.type ∧ At first n v place p) (fun _ => Viable first) :=
  fun _ here => ⟨rfl, here.calm ⟨rfl, rfl⟩⟩

theorem stopWith_tally (p : Parser) (st : Status) (msg : String) :
    (p.stopWith st msg).tally =
        (p.outBuf, true, p.maxEvents, p.eventsDelivered, p.mark, p.outCursor) ∧
      (p.stopWith st msg).stance = p.stance := by
  rw [Parser.stopWith]
  split <;> exact ⟨rfl, rfl⟩

/-- The event limit stops the parser. -/
theorem At.limited (here : At first n v place p) (limited : p.incOverLimit = true)
    (msg : String) : At first (n + 1) v place' (p.hitLimit msg) := by
  obtain ⟨same, stance⟩ := stopWith_tally p .limit msg
  simp only [Parser.tally, Prod.mk.injEq] at same
  obtain ⟨queue, stopped, limit, count, mark, cursor⟩ := same
  obtain ⟨last, leads, _⟩ := here.leads
  refine ⟨cursor.trans here.cursor, ?_, stance.trans here.stance,
    ⟨last, ?_, fun live => ?_⟩, fun _ => ?_, ?_⟩
  · rw [Parser.hitLimit, queue]
    exact Nat.le_succ_of_le here.few
  · rw [Parser.queued, Parser.hitLimit, queue]
    exact leads
  · cases stopped.symm.trans live
  · rw [Parser.hitLimit, Parser.incOverLimit, limit, count, queue]
    exact limited
  · rw [Parser.hitLimit, Marked, mark, count]
    exact here.marked

theorem At.queue {evt : Event} (here : At first n v place p) (within : p.incOverLimit = false)
    (fed : place.feed evt.type = some place') :
    At first (n + 1) v place' { p with outBuf := p.outBuf ++ [evt] } := by
  have live : p.oom = false := by
    refine Bool.eq_false_iff.mpr fun stopped => ?_
    rw [here.frozen stopped] at within
    cases within
  obtain ⟨last, leads, isPlace⟩ := here.leads
  obtain rfl := isPlace live
  refine ⟨here.cursor, ?_, here.stance, ⟨place', ?_, fun _ => rfl⟩, fun stopped => ?_, here.marked⟩
  · have few := here.few
    simpa using few
  · rw [Parser.queued, List.map_append]
    exact Place.feedAll_trans last leads (by rw [List.map_singleton, Place.feedAll_singleton, fed])
  · cases live.symm.trans stopped

theorem at_emit {evt : Event} (room : n < 8) (fed : place.feed evt.type = some place') :
    Triple (At first n v place) (incEmit evt) (fun _ => At first (n + 1) v place')
      (fun _ => Viable first) := by
  refine .modify fun p here => ?_
  have few := here.few
  cases limited : p.incOverLimit with
  | true => exact here.limited limited _
  | false =>
      rw [if_neg Bool.noConfusion, if_pos (by omega)]
      exact here.queue limited fed

theorem at_emitEmpty (room : n < 8) (fed : place.fill [] = some place') :
    Triple (At first n v place) incEmitEmpty (fun _ => At first (n + 1) v place')
      (fun _ => Viable first) :=
  at_get fun _ _ => at_emit room fed

theorem at_scalarToken (room : n < 8) (fed : place.fill [] = some place') :
    Triple (At first n v place) incEmitScalarToken (fun _ => At first (n + 1) v place')
      (fun _ => Viable first) := by
  intro p here
  have few := here.few
  rw [incEmitScalarToken, get_bind_eq]
  cases limited : p.incOverLimit with
  | true => exact here.limited limited _
  | false =>
      rw [if_neg Bool.noConfusion, if_pos (by omega)]
      obtain ⟨evt, p', attached⟩ : ∃ evt p', attachProps (p.nodeEvent .scalar) p = .ok evt p' :=
        ⟨_, _, rfl⟩
      obtain ⟨type, here'⟩ := (at_attach (p.nodeEvent .scalar)).ok here attached
      have within : p'.incOverLimit = false := by
        cases attached
        exact limited
      have isScalar : place.feed evt.type = some place' := by
        rw [type]
        exact fed
      rw [run_bind_ok attached]
      exact (here'.queue within isScalar).moved rfl here'.stance

theorem at_pop {frame : Frame} {frames : List Frame} (opened : v.frames = frame :: frames) :
    Triple (At first n v place) incPopFrame
      (fun top p => top = frame ∧ At first n { v with frames := frames } place p)
      (fun _ => Viable first) := by
  intro p here
  have top : p.frames = frame :: frames := by
    rw [← opened, ← here.stance]
    rfl
  rw [incPopFrame, get_bind_eq]
  simp only [top]
  refine ⟨rfl, here.cursor, here.few, ?_, here.leads, here.frozen, here.marked⟩
  rw [← here.stance]
  rfl

/-- As `At`, where the parser may have stopped in any way. -/
def Pushed (first : Origin) (v : Stance) (place : Place) (p : Parser) : Prop :=
  p.outCursor = 0 ∧ ∃ last, first.place.feedAll p.queued = some last ∧
    (p.oom = false → last = place ∧ p.stance = v ∧ Marked first p)

theorem Place.feedAll_take {types : List EventType} (k : Nat) {first last : Place}
    (leads : first.feedAll types = some last) :
    ∃ next, first.feedAll (types.take k) = some next := by
  rw [← List.take_append_drop k types, Place.feedAll_append] at leads
  obtain ⟨next, before, _⟩ := Option.bind_eq_some_iff.mp leads
  exact ⟨next, before⟩

/-- A frame is pushed, or the parser stops with some of what was queued. -/
theorem pushFrame_result (type : CtxType) (indent : Int) (returnState : PState) (p : Parser) :
    ∃ q, incPushFrame type indent returnState p = .ok () q ∧
      ((q.tally = p.tally ∧
        q.stance = { p.stance with frames := ⟨type, indent, returnState⟩ :: p.frames }) ∨
      (q.oom = true ∧ q.outCursor = p.outCursor ∧ ∃ k, q.outBuf = p.outBuf.take k)) := by
  have stops (p : Parser) (st : Status) (msg : String) :
      (p.stopWith st msg).oom = true ∧ (p.stopWith st msg).outCursor = p.outCursor ∧
        (p.stopWith st msg).outBuf = p.outBuf := by
    have same := (stopWith_tally p st msg).1
    simp only [Parser.tally, Prod.mk.injEq] at same
    exact ⟨same.2.1, same.2.2.2.2.2, same.1⟩
  rw [incPushFrame, run_modify]
  refine ⟨_, rfl, ?_⟩
  split
  · obtain ⟨stopped, cursor, queue⟩ :=
      stops p .parse "block collection cannot start on the '---' line"
    exact .inr ⟨stopped, cursor, p.outBuf.length, by rw [queue, List.take_length]⟩
  split
  · obtain ⟨stopped, cursor, queue⟩ :=
      stops p.withholdStart .limit "nesting depth limit exceeded"
    refine .inr ⟨stopped, ?_⟩
    rw [Parser.hitLimit, queue, cursor, Parser.withholdStart]
    dsimp only
    split
    · split
      · exact ⟨rfl, _, rfl⟩
      · exact ⟨rfl, p.outBuf.length, List.take_length.symm⟩
    · exact ⟨rfl, p.outBuf.length, List.take_length.symm⟩
  · exact .inl ⟨rfl, rfl⟩

theorem at_push (type : CtxType) (indent : Int) (returnState : PState) :
    Triple (At first n v place) (incPushFrame type indent returnState)
      (fun _ => Pushed first { v with frames := ⟨type, indent, returnState⟩ :: v.frames } place)
      (fun _ => Viable first) := by
  intro p here
  obtain ⟨last, leads, isPlace⟩ := here.leads
  obtain ⟨q, pushed, result⟩ := pushFrame_result type indent returnState p
  rw [pushed]
  rcases result with ⟨same, stance⟩ | ⟨stopped, cursor, k, queue⟩
  · simp only [Parser.tally, Prod.mk.injEq] at same
    obtain ⟨queue, oom, _, count, mark, cursor⟩ := same
    refine ⟨cursor.trans here.cursor, last, ?_, fun live => ⟨isPlace (oom ▸ live), ?_, ?_⟩⟩
    · rw [Parser.queued, queue]
      exact leads
    · rw [stance, ← here.stance]
      rfl
    · rw [Marked, mark, count]
      exact here.marked
  · obtain ⟨next, before⟩ := Place.feedAll_take k leads
    refine ⟨cursor.trans here.cursor, next, ?_, fun live => ?_⟩
    · rw [Parser.queued, queue, List.map_take]
      exact before
    · cases stopped.symm.trans live

/-- From the queue that leads to `place`, `x` goes on to where the parser stands. -/
def Lands (first : Origin) (n : Nat) (v : Stance) (place : Place) (x : ParseM Unit) : Prop :=
  Triple (At first n v place) x (fun _ => Settled first) (fun _ => Viable first)

namespace Lands

theorem here {m : Nat} {w : Stance} {x : ParseM Unit}
    (leads : Triple (At first n v place) x (fun _ => At first m w place') (fun _ => Viable first))
    (stands : w.Stands place') : Lands first n v place x :=
  leads.ensures fun _ _ here => here.settled stands

theorem error (msg : String) : Lands first n v place (parseError msg) :=
  fun _ here => (here.calm ⟨rfl, rfl⟩).viable

theorem state {state : PState} (stands : ({ v with state := state }).Stands place) :
    Lands first n v place (setState state) :=
  here (at_setState state) stands

theorem returnNode (stands : Stance.Stands { v with state := v.nodeReturn } place) :
    Lands first n v place returnNode :=
  here at_returnNode stands

theorem quiet {x : ParseM α} {f : α → ParseM Unit} (calm : Respects Calm x)
    (rest : ∀ a, Lands first n v place (f a)) : Lands first n v place (x >>= f) :=
  .bind (at_calm calm) rest

theorem read {f : Parser → ParseM Unit}
    (rest : ∀ p, p.stance = v → Lands first n v place (f p)) :
    Lands first n v place (get >>= f) :=
  at_get rest

theorem update {u : Parser → Parser} {f : Unit → ParseM Unit} (w : Stance)
    (same : ∀ p, p.stance = v → (u p).tally = p.tally ∧ (u p).stance = w)
    (rest : Lands first n w place (f ())) : Lands first n v place (modify u >>= f) :=
  .bind (at_update w same) fun _ => rest

theorem attach {f : Event → ParseM Unit} (evt : Event)
    (rest : ∀ evt', evt'.type = evt.type → Lands first n v place (f evt')) :
    Lands first n v place (attachProps evt >>= f) :=
  .bind (at_attach evt) fun evt' p both => rest evt' both.1 p both.2

theorem emit {evt : Event} {type : EventType} {f : Unit → ParseM Unit} (room : n < 8)
    (isType : evt.type = type) (fed : place.feed type = some place')
    (rest : Lands first (n + 1) v place' (f ())) :
    Lands first n v place (incEmit evt >>= f) :=
  .bind (at_emit room (isType ▸ fed)) fun _ => rest

theorem emitEmpty {f : Unit → ParseM Unit} (room : n < 8) (filled : place.fill [] = some place')
    (rest : Lands first (n + 1) v place' (f ())) :
    Lands first n v place (incEmitEmpty >>= f) :=
  .bind (at_emitEmpty room filled) fun _ => rest

theorem scalarToken {f : Unit → ParseM Unit} (room : n < 8)
    (filled : place.fill [] = some place') (rest : Lands first (n + 1) v place' (f ())) :
    Lands first n v place (incEmitScalarToken >>= f) :=
  .bind (at_scalarToken room filled) fun _ => rest

theorem pop {frame : Frame} {frames : List Frame} {f : Frame → ParseM Unit}
    (opened : v.frames = frame :: frames)
    (rest : Lands first n { v with frames := frames } place (f frame)) :
    Lands first n v place (incPopFrame >>= f) := by
  refine .bind (at_pop opened) fun top p both => ?_
  obtain ⟨rfl, here⟩ := both
  exact rest p here

/-- A checkpoint between documents. -/
theorem checkpoint {f : Unit → ParseM Unit} (between : first.place = .between)
    (rest : Lands first n v place (f ())) : Lands first n v place (incCheckpoint >>= f) := by
  refine .bind (.modify (Q := fun _ => At first n v place) fun p here => ?_) fun _ => rest
  split
  · exact here
  split
  · exact here
  · exact ⟨here.cursor, here.few, here.stance, here.leads, here.frozen, .inr ⟨between, rfl⟩⟩

theorem push {type : CtxType} {indent : Int} {returnState state : PState}
    (stands : Stance.Stands
      { v with state := state, frames := ⟨type, indent, returnState⟩ :: v.frames } place) :
    Lands first n v place (do
      incPushFrame type indent returnState
      setState state) := by
  refine .bind (at_push type indent returnState) fun _ => .modify fun p pushed => ?_
  obtain ⟨cursor, last, leads, live⟩ := pushed
  refine ⟨cursor, last, leads, fun running => ?_⟩
  obtain ⟨rfl, stance, marked⟩ := live running
  have next : ({ p with state := state } : Parser).stance = { p.stance with state := state } := rfl
  rw [next, stance]
  exact ⟨stands, marked⟩

theorem done (stands : v.Stands place) : Lands first n v place (pure ()) :=
  fun _ here => here.settled stands

theorem ite {c : Prop} [Decidable c] {x y : ParseM Unit} (left : Lands first n v place x)
    (right : Lands first n v place y) : Lands first n v place (if c then x else y) :=
  Triple.ite (fun _ => left) fun _ => right

/-- Two steps that are taken in a case only, and what follows. -/
theorem optional {c : Prop} [Decidable c] {x y z : ParseM Unit} (before : Respects Calm x)
    (after : Respects Calm y) (rest : Lands first n v place z) :
    Lands first n v place (if c then x >>= fun _ => y >>= fun _ => z else z) :=
  ite (quiet before fun _ => quiet after fun _ => rest) rest

end Lands

/-! ### Where the states are -/

/-- The innermost collection, and the constructs that are open around it. -/
def Stance.Opened (v : Stance) (type : CtxType) (below : List Cell) : Prop :=
  ∃ frame frames, v.frames = frame :: frames ∧ frame.type = type ∧
    cellsAfter frame.returnState frames = some below

theorem Stance.Opened.inside {type : CtxType} {below cells : List Cell}
    (opened : v.Opened type below) (state : PState) (here : state.collection = some (type, cells)) :
    v.Inside state (.inside (cells ++ below)) := by
  obtain ⟨frame, frames, top, rfl, after⟩ := opened
  refine ⟨cells ++ below, ?_, rfl⟩
  rw [top, cellsAfter, after, here, Option.bind_some, Option.bind_some]
  exact if_pos rfl

theorem Stance.Inside.opened {state : PState} {type : CtxType} {cells : List Cell}
    (inside : v.Inside state place) (here : state.collection = some (type, cells)) :
    ∃ below, v.Opened type below ∧ place = .inside (cells ++ below) := by
  obtain ⟨all, isAfter, rfl⟩ := inside
  cases frames : v.frames with
  | nil =>
      rw [frames, cellsAfter] at isAfter
      split at isAfter <;> cases isAfter
      subst state
      cases here
  | cons frame rest =>
      rw [frames, cellsAfter, here] at isAfter
      obtain ⟨below, after, last⟩ := Option.bind_eq_some_iff.mp isAfter
      rw [Option.bind_some] at last
      dsimp only at last
      split at last <;> cases last
      exact ⟨below, ⟨frame, rest, frames, ‹_›, after⟩, rfl⟩

/-- The states that nodes return to stand inside of what is open there. -/
theorem Stance.Inside.stands {state : PState} (inside : v.Inside state place) :
    Stance.Stands { v with state := state } place := by
  cases frames : v.frames with
  | nil =>
      obtain ⟨cells, isAfter, rfl⟩ := inside
      rw [frames, cellsAfter] at isAfter
      split at isAfter <;> cases isAfter
      subst state
      exact ⟨_, rfl, rfl⟩
  | cons frame rest =>
      obtain ⟨cells, isAfter, isPlace⟩ := inside
      rw [frames] at isAfter
      have known := isAfter
      rw [cellsAfter] at known
      obtain ⟨below, _, returns⟩ := Option.bind_eq_some_iff.mp known
      obtain ⟨here, collection, _⟩ := Option.bind_eq_some_iff.mp returns
      -- no other state is one to return to
      cases state <;> first | exact ⟨cells, isAfter, isPlace⟩ | cases collection

theorem Place.fill_opened {cells : List Cell} (filled : place.fill [] = some (.inside cells))
    (opened : List Cell) : place.fill opened = some (.inside (opened ++ cells)) := by
  obtain ⟨cell, cell', rest, rfl, known, isNext⟩ := Place.fill_eq_some filled
  cases isNext
  rw [Place.fill, known]
  rfl

/-- A node completes what was awaited. -/
theorem Stance.Awaits.completed {state : PState} (awaits : v.Awaits state place) :
    ∃ next, place.fill [] = some next ∧ Stance.Stands { v with state := state } next := by
  obtain ⟨cells, isAfter, filled⟩ := awaits
  exact ⟨_, filled, Stance.Inside.stands ⟨cells, isAfter, rfl⟩⟩

/-- Opening a collection where a node is awaited. -/
theorem Stance.Awaits.opens {returnState : PState} (awaits : v.Awaits returnState place)
    (frame : Frame) (returns : frame.returnState = returnState) (opened : List Cell) :
    ∃ below, place.fill opened = some (.inside (opened ++ below)) ∧
      Stance.Opened { v with frames := frame :: v.frames } frame.type below := by
  obtain ⟨below, isAfter, filled⟩ := awaits
  exact ⟨below, Place.fill_opened filled opened, frame, v.frames, rfl, rfl, returns ▸ isAfter⟩

/-- Inside of a collection that is complete after a node, one more node is awaited. -/
theorem Stance.Inside.awaits {state : PState} {type : CtxType} {cell cell' : Cell}
    {cells : List Cell} (inside : v.Inside state place) (next : PState)
    (here : state.collection = some (type, cell :: cells)) (filled : cell.filled = some cell')
    (there : next.collection = some (type, cell' :: cells)) : v.Awaits next place := by
  obtain ⟨below, opened, rfl⟩ := inside.opened here
  obtain ⟨all, isAfter, isPlace⟩ := opened.inside _ there
  refine ⟨all, isAfter, ?_⟩
  rw [← isPlace, List.cons_append, Place.fill, filled]
  rfl

end

end Oyl
