import Oyl.Events.EagerRuns
import Oyl.Fallback.Queue

/-!
# Calls of `next_event`

The states that calls of `next_event` leave account for the events they delivered, as
long as the parser is incremental, and the steps of such a call find an empty queue.
-/

namespace Oyl

open StateError

/-- The parser is in state `p` after calls of `next_event` that delivered these events.
The limits may be set at any time. -/
inductive Delivering (input : Bytes) (o : Options) : List Event → Parser → Prop where
  | new : Delivering input o [] ((Parser.new input).configure o)
  | limits {delivered : List Event} {p : Parser} (maxEvents maxDepth : Int) :
      Delivering input o delivered p →
      Delivering input o delivered { p with maxEvents := maxEvents, maxDepth := maxDepth }
  | event {delivered : List Event} {p p' : Parser} {fuel : Nat} {evt : Event} :
      Delivering input o delivered p → nextEvent fuel p = .ok (some evt) p' →
      Delivering input o (delivered ++ [evt]) p'
  | noEvent {delivered : List Event} {p p' : Parser} {fuel : Nat} :
      Delivering input o delivered p → nextEvent fuel p = .ok none p' →
      Delivering input o delivered p'
  | failed {delivered : List Event} {p p' : Parser} {fuel : Nat} {st : Status} :
      Delivering input o delivered p → nextEvent fuel p = .error (.status st) p' →
      Delivering input o delivered p'

/-- A call of `next_event` in state `p` takes a step in state `q`. -/
inductive StepsIn (p : Parser) : Parser → Prop where
  | first : p.incremental = true → p.outBuf[p.outCursor]? = none → p.state ≠ .done →
      p.scanError = .ok → StepsIn p { p with outBuf := [], outCursor := 0 }
  | again {q q' : Parser} : StepsIn p q → incRound q = .ok .more q' → StepsIn p q'

/-- What holds of the incremental parser after it delivered these events. -/
structure Parser.Faithful (p : Parser) (delivered : List Event) : Prop where
  returns : p.Returns
  kept : p.dropped = false
  accounts : p.Accounts delivered

theorem Parser.Onward.faithful {p q : Parser} {delivered : List Event} (onward : p.Onward q)
    (faithful : p.Faithful delivered) : q.Faithful delivered :=
  ⟨onward.returns faithful.returns, onward.kept.trans faithful.kept,
    onward.accounts delivered faithful.accounts⟩

/-- What `next_event` does after a step that left `q`. -/
def roundNext (q : Parser) (st : Status) : StepResult :=
  if q.scanError != .ok then
    if (q.outBuf.take q.scanErrorOut).isEmpty then .failed q.scanError else .queued
  else if st != .ok then .failed st
  else if q.oom then if q.outBuf.isEmpty then .failed q.oomStatus else .queued
  else if q.state == .eagerDrain then .fallBack
  else if !q.outBuf.isEmpty then .queued
  else if q.state == .done then .finished else .more

/-- Only what was queued before a scanner error is kept. -/
def keptQueue (q : Parser) : List Event :=
  if q.scanError != .ok then q.outBuf.take q.scanErrorOut else q.outBuf

theorem roundNext_more {q : Parser} {st : Status} (more : roundNext q st = .more) :
    keptQueue q = [] := by
  rw [roundNext] at more
  rw [keptQueue]
  split at more
  · split at more <;> cases more
  rename_i clean
  rw [if_neg clean]
  split at more
  · cases more
  split at more
  · split at more <;> cases more
  split at more
  · cases more
  split at more
  · cases more
  · rename_i empty
    rw [Bool.not_eq_true, Bool.not_eq_false'] at empty
    exact List.isEmpty_iff.mp empty

/-- The end of a round. -/
theorem roundNext_eq (q : Parser) (st : Status) :
    (if q.scanError != .ok then
      .ok (if (q.outBuf.take q.scanErrorOut).isEmpty then .failed q.scanError else .queued)
        { q with outBuf := q.outBuf.take q.scanErrorOut }
    else if st != .ok then .ok (.failed st) q
    else if q.oom then .ok (if q.outBuf.isEmpty then .failed q.oomStatus else .queued) q
    else if q.state == .eagerDrain then .ok .fallBack q
    else if !q.outBuf.isEmpty then .ok .queued q
    else .ok (if q.state == .done then .finished else .more) q :
      EStateM.Result Stop Parser StepResult) =
    .ok (roundNext q st) { q with outBuf := keptQueue q } := by
  rw [roundNext, keptQueue]
  split
  · rfl
  split
  · rfl
  split
  · rfl
  split
  · rfl
  split <;> rfl

theorem incRound_ok {p q : Parser} {a : Unit} (ok : parserStep p = .ok a q) :
    incRound p = .ok (roundNext q .ok) { q with outBuf := keptQueue q } := by
  rw [incRound, ok]
  exact roundNext_eq q .ok

theorem incRound_error {p q : Parser} {st : Status} (fails : parserStep p = .error (.status st) q) :
    incRound p = .ok (roundNext q st) { q with outBuf := keptQueue q } := by
  rw [incRound, fails]
  exact roundNext_eq q st

theorem incRound_eq (p : Parser) :
    (∃ st, incRound p = .ok (roundNext (after parserStep p) st)
      { after parserStep p with outBuf := keptQueue (after parserStep p) }) ∨
    ∃ q, incRound p = .error .fuel q := by
  cases result : parserStep p with
  | ok a q =>
      left
      rw [after_ok result]
      exact ⟨.ok, incRound_ok result⟩
  | error stop q =>
      cases stop with
      | status st =>
          left
          rw [after_error result]
          exact ⟨st, incRound_error result⟩
      | fuel =>
          right
          refine ⟨q, ?_⟩
          rw [incRound, result]

/-- The parser is incremental when it was. -/
def SameMode (p q : Parser) : Prop := q.incremental = p.incremental

theorem sameMode_preorder : Preorder SameMode where
  refl _ := rfl
  trans first second := second.trans first

theorem skipDelivered_mode : Respects SameMode skipDelivered := by
  refine .getBind fun p => Respects.setBind sameMode_preorder rfl ?_
  split <;> rfl

theorem eagerRefill_mode (n : Nat) : Respects SameMode (eagerRefill (eager n)) := by
  intro p
  obtain ⟨q, same, ⟨e, fails⟩ | ⟨_, returns⟩ | ⟨_, skipping⟩⟩ := eagerRefill_result n p
  · rw [after_error fails]
    exact congrArg Audit.incremental same
  · rw [after_ok returns]
    exact congrArg Audit.incremental same
  · have kept := skipDelivered_mode q
    rw [after] at kept ⊢
    rw [skipping]
    exact sameMode_preorder.trans (congrArg Audit.incremental same) kept

/-- The eager parser does not become incremental again. -/
theorem eagerNextEvent_mode (n fuel : Nat) :
    Respects SameMode (eagerNextEvent (eager n) fuel) := by
  induction fuel with
  | zero => exact sameMode_preorder.refl
  | succ fuel ih =>
      refine .getBind fun p => ?_
      split
      · rfl
      split
      · rfl
      · exact Respects.bind sameMode_preorder (eagerRefill_mode n) (fun _ => ih) p

/-- A round from an empty queue. -/
theorem incRound_faithful {p : Parser} {delivered : List Event}
    (empty : p.outBuf = []) (incremental : p.incremental = true)
    (faithful : p.Faithful delivered) :
    (∃ q, incRound p = .error .fuel q) ∨ ∃ next q, incRound p = .ok next q ∧
      q.incremental = true ∧ q.Faithful delivered ∧ (next = .more → q.outBuf = []) := by
  rcases incRound_eq p with ⟨st, ok⟩ | fuel
  · right
    have room : p.outBuf.length + 3 ≤ 8 := by
      rw [empty]
      exact Nat.le_of_ble_eq_true rfl
    obtain ⟨_, onward⟩ := Queues.parserStep p faithful.returns room
    have drops : (after parserStep p).Onward
        { after parserStep p with outBuf := keptQueue (after parserStep p) } :=
      .of_audit id rfl
    exact ⟨_, _, ok, onward.incremental.trans incremental, (onward.trans drops).faithful faithful,
      roundNext_more⟩
  · exact .inl fuel

/-- The steps of a call find an empty queue. -/
theorem StepsIn.faithful {p q : Parser} {delivered : List Event} (steps : StepsIn p q)
    (faithful : p.Faithful delivered) :
    q.outBuf = [] ∧ q.incremental = true ∧ q.Faithful delivered := by
  induction steps with
  | first incremental =>
      have onward : p.Onward { p with outBuf := [], outCursor := 0 } := .of_audit id rfl
      exact ⟨rfl, incremental, onward.faithful faithful⟩
  | again _ ok ih =>
      obtain ⟨empty, incremental, before⟩ := ih
      rcases incRound_faithful empty incremental before with
        ⟨_, fails⟩ | ⟨next, left, returns, incremental', after, drained⟩
      · rw [ok] at fails
        cases fails
      · rw [ok] at returns
        cases returns
        exact ⟨drained rfl, incremental', after⟩

/-- What a call leaves, as long as the parser is incremental. -/
structure Delivers (delivered : List Event) (result : EStateM.Result Stop Parser (Option Event)) :
    Prop where
  returns : ∀ evt p, result = .ok evt p → p.incremental = true →
    p.Faithful (delivered ++ evt.toList)
  fails : ∀ st p, result = .error (.status st) p → p.incremental = true → p.Faithful delivered

theorem Delivers.none {p : Parser} {delivered : List Event}
    (faithful : p.incremental = true → p.Faithful delivered) :
    Delivers delivered (.ok none p) where
  returns evt p' ok incremental := by
    cases ok
    rw [Option.toList_none, List.append_nil]
    exact faithful incremental
  fails st p' fails := by cases fails

theorem Delivers.failed {p : Parser} {delivered : List Event} {st : Status}
    (faithful : p.incremental = true → p.Faithful delivered) :
    Delivers delivered (.error (.status st) p) where
  returns evt p' ok := by cases ok
  fails st p' fails := by
    cases fails
    exact faithful

theorem Delivers.takeQueued {p : Parser} {delivered : List Event} (evt : Event)
    (faithful : p.Faithful delivered) : Delivers delivered (takeQueued evt p) where
  returns evt' p' ok _ := by
    obtain ⟨before, since, whole, has⟩ := faithful.accounts
    have taken := has.takeQueued ok
    cases ok
    refine ⟨faithful.returns, faithful.kept, before, since ++ [evt], ?_, taken⟩
    rw [whole, Option.toList_some, List.append_assoc]
  fails st p' fails := by cases fails

/-- An eager call leaves an eager parser. -/
theorem Delivers.eager {p : Parser} {delivered : List Event} (n fuel : Nat)
    (eager : p.incremental = false) :
    Delivers delivered (eagerNextEvent (Oyl.eager n) fuel p) := by
  have mode := eagerNextEvent_mode n fuel p
  constructor
  · intro evt p' ok incremental
    rw [after_ok ok, SameMode, incremental, eager] at mode
    cases mode
  · intro st p' fails incremental
    rw [after_error fails, SameMode, incremental, eager] at mode
    cases mode

theorem Delivers.fuel (delivered : List Event) (p : Parser) :
    Delivers delivered (.error .fuel p) where
  returns evt p' ok := by cases ok
  fails st p' fails := by cases fails

theorem incSteps_delivers (n fuel : Nat) {p : Parser} {delivered : List Event}
    (empty : p.outBuf = []) (incremental : p.incremental = true)
    (faithful : p.Faithful delivered) : Delivers delivered (incSteps n fuel p) := by
  induction fuel generalizing p with
  | zero => exact .fuel delivered p
  | succ fuel ih =>
      rw [incSteps]
      rcases incRound_faithful empty incremental faithful with
        ⟨q, fails⟩ | ⟨next, q, round, incremental', faithful', drained⟩
      · rw [run_bind_error fails]
        exact .fuel delivered q
      · rw [run_bind_ok round]
        cases next with
        | more => exact ih (drained rfl) incremental' faithful'
        | queued =>
            dsimp only
            rw [get_bind_eq]
            cases q.outBuf.head? with
            | some evt => exact .takeQueued evt faithful'
            | none => exact .none fun _ => faithful'
        | fallBack =>
            have eager : q.fallBack.incremental = false := by
              rw [Parser.fallBack]
              dsimp only
              split <;> rfl
            exact .eager n n eager
        | finished => exact .none fun _ => faithful'
        | failed st => exact .failed fun _ => faithful'

theorem nextEvent_delivers (fuel : Nat) {p : Parser} {delivered : List Event}
    (faithful : p.incremental = true → p.Faithful delivered) :
    Delivers delivered (nextEvent fuel p) := by
  rw [nextEvent, get_bind_eq]
  by_cases incremental : p.incremental = true
  · have here := faithful incremental
    rw [if_neg (by rw [incremental]; decide)]
    cases p.outBuf[p.outCursor]? with
    | some evt => exact .takeQueued evt here
    | none =>
        dsimp only
        split
        · exact .none fun _ => here
        split
        · exact .failed fun _ => here
        · have onward : p.Onward { p with outBuf := [], outCursor := 0 } := .of_audit id rfl
          have steps := incSteps_delivers fuel fuel (p := { p with outBuf := [], outCursor := 0 })
            rfl incremental (onward.faithful here)
          exact steps
  · rw [Bool.not_eq_true] at incremental
    rw [if_pos (by rw [incremental]; decide)]
    exact .eager fuel fuel incremental

/-- The states between calls of `next_event`. -/
theorem Delivering.faithful {input : Bytes} {o : Options} {delivered : List Event} {p : Parser}
    (run : Delivering input o delivered p) (incremental : p.incremental = true) :
    p.Faithful delivered := by
  induction run with
  | new =>
      refine ⟨⟨PState.noConfusion, PState.noConfusion, fun frame member => ?_⟩, rfl, [], [], rfl,
        ?_⟩
      · cases member
      · exact .new input o
  | limits maxEvents maxDepth _ ih =>
      rename_i p _
      have onward : p.Onward { p with maxEvents := maxEvents, maxDepth := maxDepth } :=
        .of_audit id rfl
      exact onward.faithful (ih incremental)
  | event _ ok ih => exact (nextEvent_delivers _ ih).returns _ _ ok incremental
  | noEvent _ ok ih =>
      have kept := (nextEvent_delivers _ ih).returns _ _ ok incremental
      rw [Option.toList_none, List.append_nil] at kept
      exact kept
  | failed _ fails ih => exact (nextEvent_delivers _ ih).fails _ _ fails incremental

/-- Every step that `next_event` takes starts with an empty queue and queues at most three
events, and no step drops one: no queue was full when an event was to be queued. -/
theorem steps_roomy {input : Bytes} {o : Options} {delivered : List Event} {p q : Parser}
    (run : Delivering input o delivered p) (incremental : p.incremental = true)
    (steps : StepsIn p q) :
    q.outBuf = [] ∧ q.dropped = false ∧ (after parserStep q).dropped = false ∧
      (after parserStep q).outBuf.length ≤ 3 := by
  obtain ⟨empty, _, faithful⟩ := steps.faithful (run.faithful incremental)
  have room : q.outBuf.length + 3 ≤ 8 := by
    rw [empty]
    exact Nat.le_of_ble_eq_true rfl
  obtain ⟨length, onward⟩ := Queues.parserStep q faithful.returns room
  rw [empty] at length
  exact ⟨empty, faithful.kept, onward.kept.trans faithful.kept, length⟩

theorem steps_roomy_first :
    let p := (Parser.new []).configure {}
    let q : Parser := { p with outBuf := [], outCursor := 0 }
    q.outBuf = [] ∧ q.dropped = false ∧ (after parserStep q).dropped = false ∧
      (after parserStep q).outBuf.length ≤ 3 := by
  intro p q
  have run : Delivering [] {} [] p := Delivering.new
  exact steps_roomy run rfl (StepsIn.first rfl rfl PState.noConfusion rfl)

/-! ### After a fallback -/

/-- The eager parser was refilled with these chunks of events while it had some to skip. -/
inductive Refilled (n : Nat) (start : Parser) : List (List Event) → Parser → Prop where
  | none : Refilled n start [] start
  | refill {chunks : List (List Event)} {p q : Parser} {a : Unit} :
      Refilled n start chunks p → 0 < p.skipN → eagerRefill (eager n) p = .ok a q →
      Refilled n start (chunks ++ [q.events]) q

theorem Audited.skips {p q : Parser} (same : Audited p q) : q.skips = p.skips := by
  rw [Audited, Parser.audit, Parser.audit, Audit.mk.injEq] at same
  obtain ⟨_, _, _, _, _, _, skipN, skipSig, skipGot⟩ := same
  rw [Parser.skips, Parser.skips, skipN, skipSig, skipGot]

theorem skipDelivered_events {p p' : Parser} {a : Unit} (ok : skipDelivered p = .ok a p') :
    p'.events = p.events := by
  rw [skipDelivered, get_bind_eq] at ok
  obtain ⟨_, q, stored, last⟩ := bind_eq_ok ok
  cases stored
  split at last
  · cases last
  · cases last
    rfl

theorem Refilled.skipped {n : Nat} {start p : Parser} {chunks : List (List Event)}
    (refilled : Refilled n start chunks p) : Skipped start chunks p := by
  induction refilled with
  | none => exact .none
  | refill _ skips ok ih =>
      rename_i chunks p q _ _
      obtain ⟨r, same, ⟨e, fails⟩ | ⟨done, _⟩ | ⟨more, skipping⟩⟩ := eagerRefill_result n p
      · rw [ok] at fails
        cases fails
      · have kept : r.skipN = p.skipN := congrArg Audit.skipN same
        omega
      · rw [ok] at skipping
        rw [skipDelivered_events skipping.symm]
        exact .chunk ih same.skips more skipping.symm

/-- After a fallback in any run, a refill fails in the eager parser itself, or because the
events it produced are not those that were delivered. -/
theorem fallback_reports {input : Bytes} {o : Options} {delivered : List Event}
    {p q q' : Parser} (run : Delivering input o delivered p) (incremental : p.incremental = true)
    (steps : StepsIn p q) (falls : incRound q = .ok .fallBack q') :
    ∃ before since, delivered = before ++ since ∧ q'.HasDelivered before since ∧
      ∀ n chunks r, Refilled n q'.fallBack chunks r →
      ∀ stop r', eagerRefill (eager n) r = .error stop r' →
        ∃ s, Audited r s ∧ (r' = s ∨
          (skipDelivered s = .error stop r' ∧
            Differs since (chunks.flatten ++ s.events) s.streamEnded)) := by
  obtain ⟨empty, incremental', faithful⟩ := steps.faithful (run.faithful incremental)
  rcases incRound_faithful empty incremental' faithful with
    ⟨_, fails⟩ | ⟨next, left, returns, _, faithful', _⟩
  · rw [falls] at fails
    cases fails
  rw [falls] at returns
  cases returns
  obtain ⟨before, since, whole, has⟩ := faithful'.accounts
  refine ⟨before, since, whole, has, ?_⟩
  intro n chunks r refilled stop r' fails
  have skipping := refilled.skipped.skipping has.skipping
  obtain ⟨s, same, ⟨e, own⟩ | ⟨_, returns⟩ | ⟨_, skips⟩⟩ := eagerRefill_result n r
  · rw [fails] at own
    cases own
    exact ⟨_, same, .inl rfl⟩
  · rw [fails] at returns
    cases returns
  · rw [fails] at skips
    have here : s.Skipping since chunks.flatten := same.skips.trans skipping
    refine ⟨s, same, .inr ⟨skips.symm, ?_⟩⟩
    rcases here.step with ⟨_, accepts, _⟩ | ⟨_, rejects⟩
    · rw [← skips] at accepts
      cases accepts
    · exact rejects.differs

theorem Succeeding.delivering {input : Bytes} {o : Options} {delivered : List Event} {p : Parser}
    (calls : Succeeding ((Parser.new input).configure o) delivered p) :
    Delivering input o delivered p := by
  induction calls with
  | start => exact .new
  | event _ ok ih => exact .event ih ok
  | noEvent _ ok ih => exact .noEvent ih ok

/-- The state in which the next `n` steps from `q` fall back, if they do. -/
def fallsWithin : Nat → Parser → Option Parser
  | 0, _ => none
  | n + 1, q =>
      match incRound q with
      | .ok .more q' => fallsWithin n q'
      | .ok .fallBack q' => some q'
      | _ => none

theorem StepsIn.fallsWithin {n : Nat} {p q q' : Parser} (steps : StepsIn p q)
    (found : fallsWithin n q = some q') :
    ∃ r, StepsIn p r ∧ incRound r = .ok .fallBack q' := by
  induction n generalizing q with
  | zero => cases found
  | succ n ih =>
      rw [Oyl.fallsWithin] at found
      split at found
      · rename_i q₁ more
        exact ih (steps.again more) found
      · rename_i q₁ falls
        cases found
        exact ⟨q, steps, falls⟩
      · cases found

/-- The state in which a call in state `p` falls back within `n` steps, if it does. -/
def fallsBack (n : Nat) (p : Parser) : Option Parser :=
  if p.incremental = true ∧ p.outBuf[p.outCursor]? = none ∧ p.state ≠ PState.done ∧
      p.scanError = Status.ok then
    fallsWithin n { p with outBuf := [], outCursor := 0 }
  else none

theorem stepsIn_of_fallsBack {n : Nat} {p q : Parser} (found : fallsBack n p = some q) :
    p.incremental = true ∧ ∃ r, StepsIn p r ∧ incRound r = .ok .fallBack q := by
  rw [fallsBack] at found
  split at found
  · rename_i steps
    obtain ⟨incremental, queued, waits, fine⟩ := steps
    exact ⟨incremental, (StepsIn.first incremental queued waits fine).fallsWithin found⟩
  · cases found

/-- A refill in state `p` succeeds. -/
def refills (n : Nat) (p : Parser) : Bool :=
  match eagerRefill (eager n) p with
  | .ok _ _ => true
  | .error _ _ => false

theorem eagerRefill_of_refills {n : Nat} {p : Parser} (succeeds : refills n p = true) :
    ∃ q, eagerRefill (eager n) p = .ok () q := by
  rw [refills] at succeeds
  split at succeeds
  · rename_i q ok
    exact ⟨q, ok⟩
  · cases succeeds

/-- The signature of a fallback is the one that the delivered events give again, at every
checkpoint, and in any run a refill after it reports no others. -/
theorem fallback_recognises :
    (∀ (p : Parser) (before since : List Event), p.HasDelivered before since →
      p.deliveredSig - p.ckptSig * pow31 since.length = signature since ∧
      ∀ chunks q, Skipped p.fallBack chunks q →
        q.skipSig = signature since ∧
        q.skipGot = signature (chunks.flatten.take since.length) ∧
        ∀ next stop stopped, next.skips = q.skips →
          skipDelivered next = .error stop stopped →
          Differs since (chunks.flatten ++ next.events) next.streamEnded) ∧
    (∀ (input : Bytes) (o : Options) (delivered : List Event) (p q q' : Parser),
      Delivering input o delivered p → p.incremental = true → StepsIn p q →
      incRound q = .ok .fallBack q' →
      ∃ before since, delivered = before ++ since ∧ q'.HasDelivered before since ∧
        ∀ n chunks r, Refilled n q'.fallBack chunks r → Skipped q'.fallBack chunks r ∧
          ∀ stop r', eagerRefill (eager n) r = .error stop r' →
            ∃ s, Audited r s ∧ (r' = s ∨
              (skipDelivered s = .error stop r' ∧
                Differs since (chunks.flatten ++ s.events) s.streamEnded))) := by
  refine ⟨fun p before since has => fallback_signature has, ?_⟩
  intro input o delivered p q q' run incremental steps falls
  obtain ⟨before, since, whole, has, reports⟩ := fallback_reports run incremental steps falls
  refine ⟨before, since, whole, has, fun n chunks r refilled => ?_⟩
  exact ⟨refilled.skipped, reports n chunks r refilled⟩

/-- `- x` and `- [a]:`, where three events were delivered since the checkpoint. -/
theorem fallback_recognises_flowKey :
    ∃ before since p, ∃ q : Parser, ∃ chunk r,
      Delivering [dash, space, 120, lf, dash, space, lbracket, 97, rbracket, colon] {}
        (before ++ since) p ∧
      since.length = 3 ∧ q.deliveredSig - q.ckptSig * pow31 3 = signature since ∧
      Refilled 8 q.fallBack [chunk] r ∧ r.skipSig = signature since ∧
      r.skipGot = signature (chunk.take 3) := by
  obtain ⟨delivered, p, calls, later⟩ := exists_succeeding 8
    ((Parser.new [dash, space, 120, lf, dash, space, lbracket, 97, rbracket, colon]).configure {}) 4
    (fun _ p => ((fallsBack 8 p).any fun q => q.fallBack.skipN == 3 && refills 8 q.fallBack) = true)
    (by decide +kernel)
  obtain ⟨q, found, skips⟩ := (Option.any_eq_true _ _).mp later
  obtain ⟨skipN, refills⟩ := Bool.and_eq_true_iff.mp skips
  obtain ⟨incremental, r, steps, falls⟩ := stepsIn_of_fallsBack found
  obtain ⟨s, ok⟩ := eagerRefill_of_refills refills
  obtain ⟨before, since, rfl, has, reports⟩ :=
    fallback_recognises.2 _ {} delivered p r q calls.delivering incremental steps falls
  have three : since.length = 3 :=
    (congrArg Prod.fst has.skipping).symm.trans (eq_of_beq skipN)
  have refilled : Refilled 8 q.fallBack [s.events] s :=
    .refill .none (by rw [eq_of_beq skipN]; decide) ok
  obtain ⟨skipped, _⟩ := reports 8 _ s refilled
  obtain ⟨sig, signs⟩ := fallback_recognises.1 q before since has
  obtain ⟨skipSig, skipGot, _⟩ := signs _ s skipped
  rw [three] at sig skipGot
  rw [List.flatten_singleton] at skipGot
  exact ⟨before, since, p, q, s.events, s, calls.delivering, three, sig, refilled, skipSig,
    skipGot⟩

end Oyl
