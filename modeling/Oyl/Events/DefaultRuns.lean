import Oyl.Events.EagerRuns
import Oyl.Events.Reports
import Oyl.Events.Steps

/-!
# Runs of the default parser

The events that calls of `oyl_parse_next` deliver begin a stream as long as the parser is
incremental.  After a fallback this holds of them with what was parsed again in the place of
what had been delivered since the checkpoint.
-/

namespace Oyl

open StateError

/-- What was queued and not delivered. -/
def Parser.waiting (p : Parser) : List Event := p.outBuf.drop p.outCursor

/-- The checkpoint is between two documents. -/
def Parser.Saved (p : Parser) (delivered : List Event) : Prop :=
  ∀ k, p.mark = some k → k ≤ delivered.length ∧
    Place.start.feedAll ((delivered.take k).map (·.type)) = some .between

/-- The incremental parser after it delivered these events, if no call failed. -/
structure StepRun (input : Bytes) (delivered : List Event) (p : Parser) : Prop where
  incremental : p.incremental = true
  faithful : p.Faithful delivered
  reporting : ∃ merging, p.Reporting input merging
  leads : ∃ last, Place.start.feedAll ((delivered ++ p.waiting).map (·.type)) = some last ∧
    (p.oom = false → p.scanError = .ok → p.stance.Stands last ∧ p.Saved delivered)

section

variable {input : Bytes} {delivered : List Event} {p q p' : Parser}

theorem Parser.Saved.append (saved : p.Saved delivered) (more : List Event)
    (mark : q.mark = p.mark) : q.Saved (delivered ++ more) := by
  intro k isMark
  obtain ⟨within, between⟩ := saved k (mark ▸ isMark)
  refine ⟨?_, ?_⟩
  · rw [List.length_append]
    omega
  · rw [List.take_append_of_le_length within]
    exact between

/-- The event that is next waits no longer. -/
theorem Parser.waiting_takeQueued {evt : Event} {result : Option Event}
    (next : p.outBuf[p.outCursor]? = some evt) (ok : Oyl.takeQueued evt p = .ok result p') :
    p.waiting = evt :: p'.waiting := by
  obtain ⟨inside, rfl⟩ := List.getElem?_eq_some_iff.mp next
  rw [Parser.waiting, List.drop_eq_getElem_cons inside]
  cases ok
  simp only [Parser.waiting]
  split
  · rename_i isLast
    rw [List.drop_eq_nil_of_le isLast, List.drop_nil]
  · rfl

/-- The event that is next is delivered. -/
theorem StepRun.takeQueued {evt : Event} {result : Option Event} (run : StepRun input delivered p)
    (next : p.outBuf[p.outCursor]? = some evt) (ok : takeQueued evt p = .ok result p') :
    StepRun input (delivered ++ result.toList) p' := by
  have faithful : p'.Faithful (delivered ++ [evt]) := by
    obtain ⟨before, since, whole, has⟩ := run.faithful.accounts
    have taken := has.takeQueued ok
    cases ok
    refine ⟨run.faithful.returns, run.faithful.kept, before, since ++ [evt], ?_, taken⟩
    rw [whole, List.append_assoc]
  have waiting := Parser.waiting_takeQueued next ok
  cases ok
  obtain ⟨last, leads, live⟩ := run.leads
  obtain ⟨merging, reporting⟩ := run.reporting
  refine ⟨run.incremental, faithful, ⟨merging, reporting.same rfl id⟩, last, ?_,
    fun running clean => ?_⟩
  · rw [waiting, List.append_cons] at leads
    exact leads
  · obtain ⟨stands, saved⟩ := live running clean
    exact ⟨stands, saved.append [_] rfl⟩

theorem Parser.Faithful.count (faithful : p.Faithful delivered) :
    p.eventsDelivered = delivered.length := by
  obtain ⟨before, since, rfl, has⟩ := faithful.accounts
  exact has.count

/-- Nothing goes wrong in a round of a parser that has stopped. -/
theorem incRound_stopped {next : StepResult} (clean : p.scanError = .ok)
    {merging : Bool} (reporting : p.Reporting input merging) (stopped : p.oom = true)
    (ok : incRound p = .ok next q) : ∃ st, next = .failed st := by
  have throws : parserStep p = .error (.status p.oomStatus) p := by
    have checked : checkOom p = .error (.status p.oomStatus) p := by
      rw [checkOom, get_bind_eq, if_pos stopped]
      rfl
    rw [parserStep, run_bind_error checked]
  rw [incRound_error throws] at ok
  cases ok
  have failed := (reporting.oomStatus stopped).failed
  exact ⟨p.oomStatus, by rw [roundNext, clean, if_neg (by decide), if_pos (by simpa using failed)]⟩

/-- A round that goes on met no error. -/
theorem roundNext_onward {st : Status}
    (onward : roundNext q st = .more ∨ roundNext q st = .fallBack) :
    q.oom = false ∧ q.scanError = .ok := by
  rw [roundNext] at onward
  split at onward
  · split at onward <;> rcases onward with impossible | impossible <;> cases impossible
  rename_i clean
  split at onward
  · rcases onward with impossible | impossible <;> cases impossible
  split at onward
  · split at onward <;> rcases onward with impossible | impossible <;> cases impossible
  rename_i running
  exact ⟨by simpa using running, by simpa using clean⟩

/-- An error of a step that does not fail is one of the scanner. -/
theorem roundNext_failed {st : Status} (clean : q.scanError = .ok) (error : st ≠ .ok) :
    roundNext q st = .failed st := by
  rw [roundNext, clean, if_neg (by decide), if_pos (by simpa using error)]

/-- What is kept of the queue of a step goes on from where the step started. -/
theorem keptQueue_leads {first : Origin} (leads : Place.start.feedAll (delivered.map (·.type)) =
      some first.place) (mark : first.mark = p.mark) (saved : p.Saved delivered)
    (cursor : q.outCursor = 0) (count : q.eventsDelivered = delivered.length)
    (reaches : ∃ last, first.place.feedAll q.queued = some last ∧
      (q.oom = false → q.scanError = .ok → q.stance.Stands last ∧ Marked first q)) :
    ∃ last, Place.start.feedAll ((delivered ++ (keptQueue q).drop q.outCursor).map (·.type)) =
        some last ∧
      (q.oom = false → q.scanError = .ok → q.stance.Stands last ∧ q.Saved delivered) := by
  obtain ⟨last, onward, live⟩ := reaches
  rw [cursor, List.drop_zero, List.map_append, keptQueue]
  split
  · rename_i failed
    obtain ⟨next, before⟩ := Place.feedAll_take q.scanErrorOut onward
    refine ⟨next, Place.feedAll_trans first.place leads ?_, fun _ clean => ?_⟩
    · rw [List.map_take]
      exact before
    · rw [clean] at failed
      cases failed
  · refine ⟨last, Place.feedAll_trans first.place leads onward, fun running clean => ?_⟩
    obtain ⟨stands, marked⟩ := live running clean
    refine ⟨stands, ?_⟩
    rcases marked with same | ⟨between, isHere⟩
    · have kept := saved.append [] (same.trans mark)
      rw [List.append_nil] at kept
      exact kept
    · intro k isMark
      obtain rfl := Option.some.inj (isHere.symm.trans isMark)
      rw [count, List.take_length, leads, between]
      exact ⟨Nat.le_refl _, rfl⟩

/-- What a round queues goes on from where the parser stood. -/
theorem StepRun.round {next : StepResult} (run : StepRun input delivered p)
    (empty : p.outBuf = []) (fresh : p.outCursor = 0) (clean : p.scanError = .ok)
    (ok : incRound p = .ok next q) (fine : ∀ st, next ≠ .failed st) :
    StepRun input delivered q ∧ q.outCursor = 0 ∧
      (next = .more → q.outBuf = [] ∧ q.scanError = .ok) ∧
      (next = .fallBack → q.oom = false ∧ q.scanError = .ok) := by
  obtain ⟨merging, reporting⟩ := run.reporting
  have running : p.oom = false := by
    refine Bool.eq_false_iff.mpr fun stopped => ?_
    obtain ⟨st, failed⟩ := incRound_stopped clean reporting stopped ok
    exact fine st failed
  obtain ⟨place, leads, live⟩ := run.leads
  obtain ⟨stands, saved⟩ := live running clean
  have none : p.waiting = [] := by
    rw [Parser.waiting, empty, List.drop_nil]
  rw [none, List.append_nil] at leads
  rcases incRound_faithful empty run.incremental run.faithful with
    ⟨_, fails⟩ | ⟨next', q', returns, incremental, faithful, drained⟩
  · rw [ok] at fails
    cases fails
  rw [ok] at returns
  cases returns
  have reported := (Triple.ok Reports.incRound reporting ok).1
  have here : At ⟨place, p.mark⟩ 0 p.stance place p := by
    refine ⟨fresh, ?_, rfl, ⟨place, ?_, fun _ => rfl⟩, fun stopped => ?_, .inl rfl⟩
    · rw [empty]
      exact Nat.le_refl 0
    · rw [Parser.queued, empty]
      rfl
    · rw [running] at stopped
      cases stopped
  have lands : Lands ⟨place, p.mark⟩ 0 p.stance place parserStep := parserStep_lands rfl stands
  replace lands := lands p here
  cases result : parserStep p with
  | ok a r =>
      rw [result] at lands
      obtain ⟨cursor, last, onward, live⟩ := lands
      rw [incRound_ok result] at ok
      cases ok
      have leads' := keptQueue_leads leads rfl saved cursor faithful.count
        ⟨last, onward, fun running _ => live running⟩
      have live' : roundNext r .ok = .more ∨ roundNext r .ok = .fallBack →
          r.oom = false ∧ r.scanError = .ok := roundNext_onward
      exact ⟨⟨incremental, faithful, ⟨merging, reported⟩, leads'⟩, cursor,
        fun more => ⟨drained more, (live' (.inl more)).2⟩, fun falls => live' (.inr falls)⟩
  | error stop r =>
      rw [result] at lands
      obtain ⟨cursor, last, onward⟩ := lands
      cases stop with
      | fuel =>
          rw [incRound, result] at ok
          cases ok
      | status st =>
          rw [incRound_error result] at ok
          cases ok
          have status := (Triple.error Reports.parserStep reporting result).status st rfl
          have failed : r.scanError ≠ .ok := by
            intro clean
            exact fine st (roundNext_failed clean status.failed)
          have leads' := keptQueue_leads leads rfl saved cursor faithful.count
            ⟨last, onward, fun _ clean => absurd clean failed⟩
          have live' : roundNext r st = .more ∨ roundNext r st = .fallBack →
              r.oom = false ∧ r.scanError = .ok := roundNext_onward
          exact ⟨⟨incremental, faithful, ⟨merging, reported⟩, leads'⟩, cursor,
            fun more => absurd (live' (.inl more)).2 failed,
            fun falls => absurd (live' (.inr falls)).2 failed⟩

/-! ### After a fallback -/

/-- The events that the eager parser produced since it was started, refill by refill. -/
inductive Replayed (start : Parser) : List (List Event) → Parser → Prop where
  | start : Replayed start [] start
  | refill {chunks : List (List Event)} {p p' : Parser} {n : Nat} : Replayed start chunks p →
      eagerRefill (eager n) p = .ok () p' → Replayed start (chunks ++ [p'.events]) p'
  | deliver {chunks : List (List Event)} {p : Parser} : Replayed start chunks p →
      Replayed start chunks { p with evtCursor := p.evtCursor + 1 }

/-- A parser that began in `first` fell back in `q`: it had delivered `before` up to its
checkpoint, and `since` after it. -/
structure FellBack (first : Parser) (before since : List Event) (q : Parser) : Prop where
  steps : ∃ p r, Succeeding first (before ++ since) p ∧ StepsIn p r ∧
    incRound r = .ok .fallBack q
  has : q.HasDelivered before since

theorem Replayed.incremental {chunks : List (List Event)} {first : Parser}
    (replayed : Replayed first chunks p) : p.incremental = first.incremental := by
  induction replayed with
  | start => rfl
  | @refill _ p p' n _ ok ih =>
      have mode := eagerRefill_mode n p
      rw [after_ok ok] at mode
      exact mode.trans ih
  | deliver _ ih => exact ih

/-- An eager parser stays eager. -/
theorem Succeeding.eager {first : Parser} (calls : Succeeding first delivered p)
    (eager : first.incremental = false) : p.incremental = false := by
  have next {q q' : Parser} {fuel : Nat} {result : Option Event} (before : q.incremental = false)
      (ok : nextEvent fuel q = .ok result q') : q'.incremental = false := by
    rw [nextEvent, get_bind_eq, before, if_pos (by decide)] at ok
    have mode := eagerNextEvent_mode fuel fuel q
    rw [after_ok ok] at mode
    exact mode.trans before
  induction calls with
  | start => exact eager
  | event _ ok ih => exact next ih ok
  | noEvent _ ok ih => exact next ih ok

theorem StepsIn.incremental (steps : StepsIn p q) : p.incremental = true := by
  induction steps with
  | first incremental => exact incremental
  | again _ _ ih => exact ih

theorem FellBack.incremental {first : Parser} {before since : List Event}
    (fell : FellBack first before since q) : first.incremental = true := by
  obtain ⟨p, r, calls, steps, _⟩ := fell.steps
  have isIncremental : p.incremental = true := steps.incremental
  cases eager : first.incremental with
  | true => rfl
  | false =>
      rw [calls.eager eager] at isIncremental
      cases isIncremental

/-- The eager parser, started after `before` while `since` was delivered too, delivered
`later`. -/
structure ReplayRun (start : Parser) (before since later : List Event) (p : Parser) : Prop where
  rests : p.Rests
  idle : 0 < p.skipN → p.events[p.evtCursor]? = none ∧ p.streamEnded = false
  replays : ∃ chunks, Replayed start chunks p ∧ p.Skipping since chunks.flatten ∧
    (since.length ≤ chunks.flatten.length →
      signature (chunks.flatten.take since.length) = signature since) ∧
    Place.start.feedAll ((before ++ chunks.flatten).map (·.type)) = some p.place ∧
    later ++ p.events.drop p.evtCursor = chunks.flatten.drop since.length

variable {first start : Parser} {before since later : List Event}

theorem skipDelivered_ok {a : Unit} (ok : skipDelivered p = .ok a p') :
    (p' = { p with
      skipGot := p'.skipGot, evtCursor := min p.skipN p.evtLen, skipN := p'.skipN }) ∧
      p'.skipN = p.skipN - min p.skipN p.evtLen ∧
      (p'.skipN = 0 → p'.skipGot = p'.skipSig) ∧ (0 < p'.skipN → p'.streamEnded = false) := by
  rw [skipDelivered, get_bind_eq] at ok
  obtain ⟨_, q, stored, rest⟩ := bind_eq_ok ok
  cases stored
  split at rest
  · obtain ⟨_, _, _, impossible⟩ := bind_eq_ok rest
    cases impossible
  · rename_i fine
    cases rest
    simp only [Bool.or_eq_true, Bool.and_eq_true, beq_iff_eq, bne_iff_ne, decide_eq_true_eq, not_or,
      not_and] at fine
    exact ⟨rfl, rfl, fun done => by simpa using fine.1 done,
      fun more => by simpa using fine.2 more⟩

theorem ReplayRun.refill {n : Nat} (run : ReplayRun start before since later p)
    (read : p.events[p.evtCursor]? = none) (running : p.streamEnded = false)
    (ok : eagerRefill (eager n) p = .ok () p') : ReplayRun start before since later p' := by
  obtain ⟨q, r, parsed, expanded, same, rest⟩ := eagerRefill_parts ok
  have next := reparsed run.rests running parsed expanded
  obtain ⟨chunks, refills, skipping, agrees, fed, waits⟩ := run.replays
  replace refills := refills.refill ok
  have isAgain : (chunks ++ [p'.events]).flatten = chunks.flatten ++ p'.events := by
    rw [List.flatten_append, List.flatten_singleton]
  generalize chunks.flatten = again at *
  have here : r.Skipping since again := same.skips.trans skipping
  have counters := here
  simp only [Parser.Skipping, Parser.skips, Prod.mk.injEq] at counters
  obtain ⟨skipN, skipSig, skipGot⟩ := counters
  have consumed : p.events.drop p.evtCursor = [] :=
    List.drop_eq_nil_of_le (List.getElem?_eq_none_iff.mp read)
  rw [consumed, List.append_nil] at waits
  have onward : Place.start.feedAll ((before ++ (again ++ r.events)).map (·.type)) =
      some r.place := by
    rw [← List.append_assoc, List.map_append]
    exact Place.feedAll_trans p.place fed next.fed
  by_cases skips : r.skipN > 0
  · rw [if_pos skips] at rest
    rcases here.step with ⟨_, accepts, skipping'⟩ | ⟨⟨_, fails⟩, _⟩
    · rw [rest] at accepts
      cases accepts
      obtain ⟨isNext, left, agrees', running'⟩ := skipDelivered_ok rest
      have counters' := skipping'
      simp only [Parser.Skipping, Parser.skips, Prod.mk.injEq] at counters'
      obtain ⟨skipN', skipSig', skipGot'⟩ := counters'
      have short : again.length < since.length := by omega
      have none : later = [] := by
        rw [waits, List.drop_eq_nil_of_le (Nat.le_of_lt short)]
      have kept : p'.events = r.events := by rw [isNext]
      have cursor : p'.evtCursor = min r.skipN r.events.length := by
        rw [isNext]
        rfl
      replace isAgain := isAgain.trans (congrArg (again ++ ·) kept)
      refine ⟨?_, fun more => ⟨?_, running' more⟩, _, refills, isAgain ▸ skipping', ?_, ?_, ?_⟩
      · rw [isNext]
        exact ⟨next.rests.eager, next.rests.contexts, next.rests.fresh, next.rests.ahead⟩
      · rw [Parser.evtLen] at left
        rw [List.getElem?_eq_none_iff, kept, cursor]
        omega
      · rw [isAgain, ← skipGot', ← skipSig']
        exact fun full => agrees' (by omega)
      · have place : p'.place = r.place := by
          rw [isNext]
          rfl
        rw [isAgain, place]
        exact onward
      · rw [isAgain, none, List.nil_append, cursor, kept, List.drop_append,
          List.drop_eq_nil_of_le (Nat.le_of_lt short), List.nil_append, skipN]
        rcases Nat.le_total (since.length - again.length) r.events.length with less | more
        · rw [Nat.min_eq_left less]
        · rw [Nat.min_eq_right more, List.drop_length, List.drop_eq_nil_of_le more]
    · rw [rest] at fails
      cases fails
  · rw [if_neg skips] at rest
    cases rest
    have full : since.length ≤ again.length := by omega
    have taken : (again ++ p'.events).take since.length = again.take since.length :=
      List.take_append_of_le_length full
    refine ⟨next.rests, fun more => absurd more skips, _, refills, ?_, ?_, isAgain ▸ onward, ?_⟩
    · simp only [Parser.Skipping, Parser.skips, Prod.mk.injEq, isAgain]
      refine ⟨?_, skipSig, ?_⟩
      · rw [List.length_append]
        omega
      · rw [taken]
        exact skipGot
    · rw [isAgain, taken]
      exact fun _ => agrees full
    · rw [isAgain, next.cursor, List.drop_zero, waits, List.drop_append_of_le_length full]

/-- One call of `eager_next_event`. -/
theorem ReplayRun.next {n fuel : Nat} {result : Option Event}
    (run : ReplayRun start before since later p)
    (ok : eagerNextEvent (eager n) fuel p = .ok result p') :
    ReplayRun start before since (later ++ result.toList) p' ∧ p'.skipN = 0 := by
  induction fuel generalizing p with
  | zero => cases ok
  | succ fuel ih =>
      rw [eagerNextEvent, get_bind_eq] at ok
      cases read : p.events[p.evtCursor]? with
      | some evt =>
          rw [read] at ok
          cases ok
          obtain ⟨inside, rfl⟩ := List.getElem?_eq_some_iff.mp read
          obtain ⟨chunks, refills, skipping, agrees, fed, waits⟩ := run.replays
          rw [List.drop_eq_getElem_cons inside, List.append_cons] at waits
          have skipped : p.skipN = 0 := by
            by_contra more
            have nothing := (run.idle (Nat.pos_of_ne_zero more)).1
            rw [read] at nothing
            cases nothing
          refine ⟨⟨⟨run.rests.eager, run.rests.contexts, run.rests.fresh, run.rests.ahead⟩,
            fun more => absurd more (by rw [skipped]; decide),
            chunks, refills.deliver, skipping, agrees, fed, waits⟩, skipped⟩
      | none =>
          rw [read] at ok
          dsimp only at ok
          cases ended : p.streamEnded with
          | true =>
              rw [ended] at ok
              cases ok
              refine ⟨(List.append_nil later).symm ▸ run, ?_⟩
              by_contra more
              have running := (run.idle (Nat.pos_of_ne_zero more)).2
              rw [ended] at running
              cases running
          | false =>
              rw [ended] at ok
              obtain ⟨_, q, refilled, rest⟩ := bind_eq_ok ok
              exact ih (run.refill read ended refilled) rest

/-- The eager parser starts again with nothing. -/
theorem Parser.fallBack_empty (q : Parser) :
    q.fallBack.Rests ∧ q.fallBack.events = [] ∧ q.fallBack.streamEnded = false := by
  rw [Parser.fallBack]
  cases q.ckpt <;> exact ⟨⟨rfl, rfl, fun _ => rfl, Bool.noConfusion⟩, rfl, rfl⟩

/-- A fallback starts at the checkpoint. -/
theorem StepRun.fallBack (run : StepRun input delivered q) (running : q.oom = false)
    (clean : q.scanError = .ok) :
    ∃ before since, delivered = before ++ since ∧ q.HasDelivered before since ∧
      ReplayRun q.fallBack before since [] q.fallBack := by
  obtain ⟨before, since, rfl, has⟩ := run.faithful.accounts
  obtain ⟨_, _, live⟩ := run.leads
  obtain ⟨_, saved⟩ := live running clean
  have began : Place.start.feedAll (before.map (·.type)) = some q.fallBack.place := by
    cases isSaved : q.ckpt with
    | none =>
        rw [has.noCkpt isSaved, Parser.fallBack, isSaved]
        rfl
    | some scanner =>
        have marked : q.mark = some before.length := by
          rw [Parser.mark, isSaved, has.ckptDelivered]
          rfl
        have between := (saved _ marked).2
        rw [List.take_left] at between
        rw [between, Parser.fallBack, isSaved]
        rfl
  have emptied := q.fallBack_empty
  refine ⟨before, since, rfl, has, emptied.1, fun _ => ⟨?_, emptied.2.2⟩, [], .start,
    has.skipping, ?_, ?_, ?_⟩
  · rw [emptied.2.1]
    rfl
  · intro full
    obtain rfl := List.eq_nil_of_length_eq_zero (Nat.le_zero.mp full)
    rfl
  · rw [List.flatten_nil, List.append_nil]
    exact began
  · rw [emptied.2.1, List.drop_nil, List.flatten_nil, List.drop_nil]
    rfl

/-! ### Calls -/

/-- Nothing waits when the next step is taken. -/
theorem StepRun.emptied (run : StepRun input delivered p) (none : p.waiting = []) :
    StepRun input delivered { p with outBuf := [], outCursor := 0 } := by
  have onward : p.Onward { p with outBuf := [], outCursor := 0 } := .of_audit id rfl
  obtain ⟨merging, reporting⟩ := run.reporting
  obtain ⟨last, leads, live⟩ := run.leads
  rw [none] at leads
  exact ⟨run.incremental, onward.faithful run.faithful, ⟨merging, reporting.same rfl id⟩, last,
    leads, live⟩

/-- The rounds of a call. -/
theorem StepRun.steps {n fuel : Nat} {result : Option Event} (run : StepRun input delivered p)
    (calls : Succeeding first delivered start) (taken : StepsIn start p)
    (empty : p.outBuf = []) (fresh : p.outCursor = 0) (clean : p.scanError = .ok)
    (ok : incSteps n fuel p = .ok result p') :
    StepRun input (delivered ++ result.toList) p' ∨
      ∃ before since q, delivered = before ++ since ∧ FellBack first before since q ∧
        ReplayRun q.fallBack before since result.toList p' ∧ p'.skipN = 0 := by
  induction fuel generalizing p with
  | zero => cases ok
  | succ fuel ih =>
      obtain ⟨next, q, round, rest⟩ := bind_eq_ok ok
      have fine (st : Status) : next ≠ .failed st := by
        rintro rfl
        cases rest
      obtain ⟨run', cursor, more, falls⟩ := run.round empty fresh clean round fine
      cases next with
      | more =>
          obtain ⟨empty', clean'⟩ := more rfl
          exact ih run' (taken.again round) empty' cursor clean' rest
      | queued =>
          dsimp only at rest
          rw [get_bind_eq] at rest
          cases queue : q.outBuf with
          | nil =>
              rw [queue] at rest
              cases rest
              left
              rw [Option.toList_none, List.append_nil]
              exact run'
          | cons evt rest' =>
              rw [queue] at rest
              have isNext : q.outBuf[q.outCursor]? = some evt := by
                rw [cursor, queue]
                rfl
              exact .inl (run'.takeQueued isNext rest)
      | fallBack =>
          obtain ⟨running, clean'⟩ := falls rfl
          obtain ⟨before, since, rfl, has, replay⟩ := run'.fallBack running clean'
          obtain ⟨_, r, fell, eager⟩ := bind_eq_ok rest
          cases fell
          exact .inr ⟨before, since, q, rfl, ⟨⟨_, _, calls, taken, round⟩, has⟩, replay.next eager⟩
      | finished =>
          cases rest
          left
          rw [Option.toList_none, List.append_nil]
          exact run'
      | failed st => exact absurd rfl (fine st)

/-- The eager parser was started in `start`: by the options, or by a fallback. -/
def Restarts (first : Parser) (before since : List Event) (start : Parser) : Prop :=
  (start = first ∧ before = [] ∧ since = []) ∨
    ∃ q, FellBack first before since q ∧ start = q.fallBack

/-- The parser after these events were delivered, in either mode. -/
def AnyRun (input : Bytes) (first : Parser) (delivered : List Event) (p : Parser) : Prop :=
  StepRun input delivered p ∨
    ∃ start before since later, delivered = before ++ since ++ later ∧
      Restarts first before since start ∧ ReplayRun start before since later p ∧ p.skipN = 0

theorem AnyRun.next {fuel : Nat} {result : Option Event} (run : AnyRun input first delivered p)
    (calls : Succeeding first delivered p) (ok : nextEvent fuel p = .ok result p') :
    AnyRun input first (delivered ++ result.toList) p' := by
  rw [nextEvent, get_bind_eq] at ok
  rcases run with run | ⟨start, before, since, later, rfl, restarts, run, _⟩
  · rw [if_neg (by rw [run.incremental]; decide)] at ok
    cases isNext : p.outBuf[p.outCursor]? with
    | some evt =>
        simp only [isNext] at ok
        exact .inl (run.takeQueued isNext ok)
    | none =>
        simp only [isNext] at ok
        split at ok
        · cases ok
          left
          rw [Option.toList_none, List.append_nil]
          exact run
        rename_i goesOn
        split at ok
        · cases ok
        · rename_i fine
          have none : p.waiting = [] :=
            List.drop_eq_nil_of_le (List.getElem?_eq_none_iff.mp isNext)
          have clean : p.scanError = .ok := by simpa using fine
          have taken : StepsIn p { p with outBuf := [], outCursor := 0 } :=
            .first run.incremental isNext (by simpa using goesOn) clean
          obtain ⟨_, q, stored, steps⟩ := bind_eq_ok ok
          cases stored
          rcases (run.emptied none).steps calls taken rfl rfl clean steps with
            step | ⟨before, since, q, whole, fell, replay, skipped⟩
          · exact .inl step
          · exact .inr ⟨_, before, since, result.toList, by rw [whole], .inr ⟨q, fell, rfl⟩, replay,
              skipped⟩
  · rw [run.rests.eager] at ok
    refine .inr ⟨start, before, since, later ++ result.toList, ?_, restarts, run.next ok⟩
    rw [List.append_assoc]

theorem AnyRun.new (input : Bytes) (o : Options) :
    AnyRun input ((Parser.new input).configure o) [] ((Parser.new input).configure o) := by
  cases eager : o.eager with
  | true =>
      have run := EagerRun.new input eager
      exact .inr ⟨_, [], [], [], rfl, .inl ⟨rfl, rfl, rfl⟩, ⟨run.rests, nofun, [], .start, rfl,
        fun _ => rfl, run.fed, rfl⟩, rfl⟩
  | false =>
      have reached : Delivering input o [] ((Parser.new input).configure o) := .new
      have incremental : ((Parser.new input).configure o).incremental = true := by
        simp only [Options.eager, Bool.or_eq_false_iff] at eager
        rw [Parser.configure]
        simp [eager, Option.isNone_iff_eq_none.mp (by simpa using eager.1.1), Parser.new]
      refine .inl ⟨incremental, reached.faithful incremental, ⟨_, reached.reporting⟩, .start, rfl,
        fun _ _ => ⟨⟨rfl, rfl, rfl⟩, fun k isMark => ?_⟩⟩
      cases isMark

/-- The calls keep what holds of the parser. -/
theorem anyRun {o : Options} (calls : Succeeding ((Parser.new input).configure o) delivered p) :
    AnyRun input ((Parser.new input).configure o) delivered p := by
  induction calls with
  | start => exact .new input o
  | event calls ok run => exact run.next calls ok
  | noEvent calls ok run =>
      have next := run.next calls ok
      rw [Option.toList_none, List.append_nil] at next
      exact next

end

/-- What the parser delivers while it is incremental begins a stream, and is a whole one once
its end is delivered. -/
theorem incremental_wellFormed {o : Options} {input : Bytes} {delivered : List Event} {p : Parser}
    (calls : Succeeding ((Parser.new input).configure o) delivered p)
    (incremental : p.incremental = true) : BeginsStream (delivered.map (·.type)) := by
  rcases anyRun calls with run | ⟨_, _, _, _, _, _, run, _⟩
  · obtain ⟨last, leads, _⟩ := run.leads
    rw [List.map_append, Place.feedAll_append] at leads
    obtain ⟨place, fed, _⟩ := Option.bind_eq_some_iff.mp leads
    exact beginsStream_of_feedAll fed
  · rw [run.rests.eager] at incremental
    cases incremental

/-- `a` -/
theorem incremental_wellFormed_scalar :
    ∃ delivered p, Succeeding ((Parser.new [97]).configure {}) delivered p ∧
      p.incremental = true ∧ WellFormedStream (delivered.map (·.type)) := by
  obtain ⟨delivered, p, calls, incremental, ended⟩ := exists_succeeding 8
    ((Parser.new [97]).configure {}) 5
    (fun delivered p => p.incremental = true ∧ .streamEnd ∈ delivered.map (·.type))
    (by decide +kernel)
  exact ⟨delivered, p, calls, incremental, (incremental_wellFormed calls incremental).2 ended⟩

/-- What the parser delivered while it is incremental, or is eager from the start, begins a
stream.  After a fallback this holds with the events that were delivered since the checkpoint
replaced by those that the eager parser skipped for them: the first ones that it produced, as
many and with the same signature. -/
structure DeliversStream (first : Parser) (delivered : List Event) (p : Parser) : Prop where
  begins : p.incremental = true ∨ first.incremental = false → BeginsStream (delivered.map (·.type))
  replaced : first.incremental = true → p.incremental = false →
    ∃ q before since later chunks, delivered = before ++ since ++ later ∧
      FellBack first before since q ∧ Replayed q.fallBack chunks p ∧
      since.length ≤ chunks.flatten.length ∧
      signature (chunks.flatten.take since.length) = signature since ∧
      later <+: chunks.flatten.drop since.length ∧
      BeginsStream ((before ++ chunks.flatten.take since.length ++ later).map (·.type))

theorem ReplayRun.delivers {start p : Parser} {before since later : List Event}
    (run : ReplayRun start before since later p) (skipped : p.skipN = 0) :
    ∃ chunks, Replayed start chunks p ∧ since.length ≤ chunks.flatten.length ∧
      signature (chunks.flatten.take since.length) = signature since ∧
      later <+: chunks.flatten.drop since.length ∧
      BeginsStream ((before ++ chunks.flatten.take since.length ++ later).map (·.type)) := by
  obtain ⟨chunks, refills, skipping, agrees, fed, waits⟩ := run.replays
  have full : since.length ≤ chunks.flatten.length := by
    simp only [Parser.Skipping, Parser.skips, Prod.mk.injEq] at skipping
    omega
  refine ⟨chunks, refills, full, agrees full, ⟨_, waits⟩, ?_⟩
  rw [← List.take_append_drop since.length chunks.flatten, ← waits, ← List.append_assoc,
    ← List.append_assoc, List.map_append, Place.feedAll_append] at fed
  obtain ⟨place, fed, _⟩ := Option.bind_eq_some_iff.mp fed
  exact beginsStream_of_feedAll fed

/-- In any mode, what the parser delivers begins a stream, up to what a fallback replaces. -/
theorem delivered_wellFormed {o : Options} {input : Bytes} {delivered : List Event} {p : Parser}
    (calls : Succeeding ((Parser.new input).configure o) delivered p) :
    DeliversStream ((Parser.new input).configure o) delivered p := by
  rcases anyRun calls with run | ⟨start, before, since, later, rfl, restarts, run, skipped⟩
  · refine ⟨fun _ => incremental_wellFormed calls run.incremental, fun _ eager => ?_⟩
    rw [run.incremental] at eager
    cases eager
  obtain ⟨chunks, refills, full, agrees, waits, begins⟩ := run.delivers skipped
  rcases restarts with ⟨rfl, rfl, rfl⟩ | ⟨q, fell, rfl⟩
  · refine ⟨fun _ => ?_, fun incremental => ?_⟩
    · rw [List.length_nil, List.take_zero, List.append_nil] at begins
      exact begins
    · rw [← refills.incremental, run.rests.eager] at incremental
      cases incremental
  · refine ⟨fun cases' => ?_, fun _ _ =>
      ⟨q, before, since, later, chunks, rfl, fell, refills, full, agrees, waits, begins⟩⟩
    rcases cases' with incremental | eager
    · rw [run.rests.eager] at incremental
      cases incremental
    · rw [fell.incremental] at eager
      cases eager

/-- `[a]:` -/
theorem delivered_wellFormed_flowKey :
    ∃ delivered p, Succeeding
        ((Parser.new [lbracket, 97, rbracket, colon]).configure {}) delivered p ∧
      p.incremental = false ∧
      DeliversStream ((Parser.new [lbracket, 97, rbracket, colon]).configure {}) delivered p := by
  obtain ⟨delivered, p, calls, eager⟩ := exists_succeeding 8
    ((Parser.new [lbracket, 97, rbracket, colon]).configure {}) 4
    (fun _ p => p.incremental = false) (by decide +kernel)
  exact ⟨delivered, p, calls, eager, delivered_wellFormed calls⟩

end Oyl
