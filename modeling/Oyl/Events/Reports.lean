import Oyl.Events.StepFrame
import Oyl.Expand.Buffers
import Oyl.Fallback.Runs
import Oyl.Tokens.Stacks

/-!
# Reports of errors

Whatever stops the parser leaves a message and a place inside of the input.
-/

namespace Oyl

open StateError

/-- What the parser reads lies inside of the input, and what stopped it left a message. -/
structure Parser.Reporting (input : Bytes) (merging : Bool) (p : Parser) : Prop where
  text : p.input = input
  scanner : ∃ opened, p.scanner.Sound input opened
  resumes : ∀ s, p.ckpt = some s → ∃ opened, s.Sound input opened
  current : p.current.start.offset ≤ input.length
  resumed : p.ckptTok.start.offset ≤ input.length
  scanned : p.scanError ≠ .ok → p.scanError = .scan ∧ p.errorMsg ≠ ""
  stopped : p.stopStatus ≠ .ok →
    (p.stopStatus = .parse ∨ p.stopStatus = .limit) ∧ p.errorMsg ≠ ""
  oom : p.oom = true → p.stopStatus ≠ .ok
  merges : p.mergeEnabled = merging
  mark : merging = false → p.errorMark.offset ≤ input.length
  returns : p.Returns

/-- The statuses that a call may fail with. -/
def Status.Reported (st : Status) : Prop := st = .scan ∨ st = .parse ∨ st = .limit

/-- The parser has a message for the status, unless an expansion of more events than its
buffer can hold has failed. -/
def Parser.Explains (p : Parser) (st : Status) : Prop :=
  st.Reported ∧ p.errorMsg ≠ "" ∨ st = .memory ∧ intMax / 2 < p.maxEvents

theorem Parser.Explains.failed {p : Parser} {st : Status} (explains : p.Explains st) :
    st ≠ .ok := by
  rcases explains with ⟨rfl | rfl | rfl, _⟩ | ⟨rfl, _⟩ <;> exact Status.noConfusion

/-- The parser stopped with an error, and with its message. -/
structure Reported (input : Bytes) (merging : Bool) (stop : Stop) (p : Parser) : Prop where
  reporting : p.Reporting input merging
  status : ∀ st, stop = .status st → p.Explains st

/-- `x` reports what it fails with. -/
def Reports (input : Bytes) (merging : Bool) {α : Type} (x : ParseM α) : Prop :=
  Triple (Parser.Reporting input merging) x (fun _ => Parser.Reporting input merging)
    (Reported input merging)

/-- What reports are made of. -/
def Parser.report (p : Parser) :
    (Bytes × Scanner × Token × Status × Token) × Option Scanner × String × Mark × Bool × Status ×
      Bool :=
  (p.source, p.ckpt, p.errorMsg, p.errorMark, p.oom, p.stopStatus, p.mergeEnabled)

section

variable {input : Bytes} {merging : Bool} {p q : Parser} {α β : Type}

namespace Parser.Reporting

theorem same (reporting : p.Reporting input merging) (report : q.report = p.report)
    (returns : p.Returns → q.Returns) : q.Reporting input merging := by
  simp only [Parser.report, Parser.source, Prod.mk.injEq] at report
  obtain ⟨⟨text, scanner, current, scanError, ckptTok⟩, ckpt, msg, mark, oom, stopStatus, merges⟩ :=
    report
  refine ⟨text.trans reporting.text, ?_, ?_, ?_, ?_, ?_, ?_, ?_, merges.trans reporting.merges, ?_,
    returns reporting.returns⟩
  · rw [scanner]
    exact reporting.scanner
  · rw [ckpt]
    exact reporting.resumes
  · rw [current]
    exact reporting.current
  · rw [ckptTok]
    exact reporting.resumed
  · rw [scanError, msg]
    exact reporting.scanned
  · rw [stopStatus, msg]
    exact reporting.stopped
  · rw [oom, stopStatus]
    exact reporting.oom
  · rw [mark]
    exact reporting.mark

/-- A message may be replaced by another one. -/
theorem noted (reporting : p.Reporting input merging) {msg : String} {mark : Mark}
    (known : msg ≠ "") (inside : merging = false → mark.offset ≤ input.length) :
    ({ p with errorMsg := msg, errorMark := mark } : Parser).Reporting input merging :=
  { reporting with
    scanned := fun failed => ⟨(reporting.scanned failed).1, known⟩
    stopped := fun stopped => ⟨(reporting.stopped stopped).1, known⟩
    mark := inside }

/-- `stop_with` -/
theorem stopWith (reporting : p.Reporting input merging) {st : Status} {msg : String}
    (status : st = .parse ∨ st = .limit) (known : msg ≠ "") :
    (p.stopWith st msg).Reporting input merging ∧ (p.stopWith st msg).oom = true := by
  rw [Parser.stopWith]
  split
  · have noted : ({ p with errorMsg := msg, errorMark := p.current.start } : Parser).Reporting
        input merging := reporting.noted known fun _ => reporting.current
    refine ⟨{ noted with stopped := fun _ => ⟨status, known⟩, oom := fun _ => ?_ }, rfl⟩
    rcases status with rfl | rfl <;> exact Status.noConfusion
  · rename_i already
    exact ⟨{ reporting with oom := fun _ none => already (beq_iff_eq.mpr none) }, rfl⟩

theorem hitLimit (reporting : p.Reporting input merging) {msg : String} (known : msg ≠ "") :
    (p.hitLimit msg).Reporting input merging :=
  (reporting.stopWith (.inr rfl) known).1

/-- `OOM_STATUS` -/
theorem oomStatus (reporting : p.Reporting input merging) (stopped : p.oom = true) :
    p.Explains p.oomStatus := by
  have isStopped := reporting.oom stopped
  obtain ⟨status, known⟩ := reporting.stopped isStopped
  refine .inl ⟨?_, known⟩
  rw [Parser.oomStatus, if_neg (by simpa using isStopped)]
  exact .inr status

end Parser.Reporting

namespace Reports

theorem pure (a : α) : Reports input merging (Pure.pure a : ParseM α) :=
  Triple.pure a fun _ => id

theorem bind {x : ParseM α} {f : α → ParseM β} (first : Reports input merging x)
    (rest : ∀ a, Reports input merging (f a)) : Reports input merging (x >>= f) :=
  Triple.bind first rest

/-- What follows may use what is known of the state that was read. -/
theorem look {f : Parser → ParseM α}
    (rest : ∀ p, p.Reporting input merging → Reports input merging (f p)) :
    Reports input merging (get >>= f) :=
  fun p reporting => rest p reporting p reporting

theorem put {f : PUnit → ParseM α} (reporting : p.Reporting input merging)
    (rest : Reports input merging (f ⟨⟩)) : Reports input merging (set p >>= f) :=
  fun _ _ => rest p reporting

theorem update {u : Parser → Parser}
    (keeps : ∀ p, p.Reporting input merging → (u p).Reporting input merging) :
    Reports input merging (modify u : ParseM Unit) :=
  keeps

/-- An update of what no report is made of. -/
theorem still {u : Parser → Parser} (same : ∀ p : Parser, (u p).report = p.report)
    (returns : ∀ p : Parser, p.Returns → (u p).Returns) :
    Reports input merging (modify u : ParseM Unit) :=
  update fun p reporting => reporting.same (same p) (returns p)

theorem compositional : Compositional (Reports input merging) where
  pure := pure
  bind := bind

theorem error {msg : String} (known : msg ≠ "") :
    Reports input merging (parseError msg : ParseM α) :=
  fun _ reporting => ⟨reporting.noted known fun _ => reporting.current, fun st isStatus => by
    cases isStatus
    exact .inl ⟨.inr (.inl rfl), known⟩⟩

theorem ite {c : Prop} [Decidable c] {x y : ParseM α} (left : Reports input merging x)
    (right : Reports input merging y) : Reports input merging (if c then x else y) :=
  Triple.ite (fun _ => left) fun _ => right

/-! ### Steps -/

theorem peek : Reports input merging peekToken := by
  intro p reporting
  rw [peekToken, get_bind_eq]
  split
  · exact reporting
  obtain ⟨opened, sound⟩ := reporting.scanner
  cases result : scanToken p.scanner with
  | ok tok scanner =>
      have next := Triple.ok scanToken_reads sound result
      exact { reporting with
        scanner := ⟨_, next⟩, current := sound.token_inside result }
  | error st scanner =>
      have failed := Triple.error scanToken_reads sound result
      have noted : ({ p with
          scanner := scanner, errorMsg := scanner.errorMsg, errorMark := scanner.errorMark } :
            Parser).Reporting input merging :=
        { reporting.noted failed.message fun _ => failed.inside with
          scanner := ⟨opened, failed.sound⟩ }
      have named : (scanner.errorMsg == "") = false := by simpa using failed.message
      have status := failed.status
      dsimp only
      rw [named]
      refine ⟨{ noted with scanned := fun _ => ⟨status, failed.message⟩ }, fun st' same => ?_⟩
      cases same
      exact .inl ⟨.inl status, failed.message⟩

theorem checkOom : Reports input merging checkOom := by
  intro p reporting
  rw [Oyl.checkOom, get_bind_eq]
  split
  · rename_i stopped
    refine ⟨reporting, fun st same => ?_⟩
    cases same
    exact reporting.oomStatus stopped
  · exact reporting

theorem limited (reporting : p.Reporting input merging) {msg : String} (known : msg ≠ "") :
    Reported input merging (.status .limit) (p.hitLimit msg) := by
  have next := reporting.stopWith (.inr rfl : Status.limit = .parse ∨ _) known
  refine ⟨next.1, fun st same => ?_⟩
  cases same
  exact .inl ⟨.inr (.inr rfl), (next.1.stopped (next.1.oom next.2)).2⟩

theorem checkStop : Reports input merging checkStop := by
  refine .bind checkOom fun _ p reporting => ?_
  rw [get_bind_eq]
  split
  · exact limited reporting (by decide)
  · exact reporting

/-- An event that was not stored has stopped the parser. -/
theorem enqueue (evt : Event) : Triple (Parser.Reporting input merging) (enqueue evt)
    (fun stored p => p.Reporting input merging ∧ (stored = false → p.oom = true))
    (Reported input merging) := by
  intro p reporting
  rw [Oyl.enqueue, get_bind_eq]
  split
  · have next := reporting.stopWith (.inr rfl : Status.limit = .parse ∨ _)
      (by decide : "event limit exceeded" ≠ "")
    exact ⟨next.1, fun _ => next.2⟩
  · exact ⟨reporting.same rfl id, Bool.noConfusion⟩

theorem store (evt : Event) : Reports input merging (enqueue' evt) :=
  .bind (Triple.ensures (enqueue evt) fun _ _ stored => stored.1) fun _ => pure _

theorem insert (idx : Nat) (evt : Event) : Reports input merging (insertOrStop idx evt) := by
  have inserted : Triple (Parser.Reporting input merging) (insertEvent idx evt)
      (fun stored p => p.Reporting input merging ∧ (stored = false → p.oom = true))
      (Reported input merging) := by
    refine Triple.bind (enqueue evt) fun stored p known => ?_
    cases stored with
    | false => exact known
    | true => exact ⟨known.1.same rfl id, Bool.noConfusion⟩
  refine Triple.bind inserted fun stored p known => ?_
  cases stored with
  | true => exact known.1
  | false =>
      refine ⟨known.1, fun st same => ?_⟩
      cases same
      exact known.1.oomStatus (known.2 rfl)

theorem push (type : CtxType) (indent : Int) : Reports input merging (pushCtx type indent) := by
  refine look fun p reporting => ?_
  split
  · exact .put (reporting.stopWith (.inl rfl) (by decide)).1 (pure _)
  split
  · exact .put (reporting.hitLimit (by decide)) (pure _)
  · exact .put (reporting.same rfl id) (pure _)

theorem write {u : Parser → Parser} (write : PropsWrite u) :
    Reports input merging (modify u : ParseM Unit) := by
  have kept (p : Parser) : (u p).report = p.report ∧ (p.Returns → (u p).Returns) := by
    rw [write.props p]
    exact ⟨rfl, id⟩
  exact still (fun p => (kept p).1) fun p => (kept p).2

theorem rules : NodeRules (Reports input merging) where
  toCompositional := compositional
  error _ known := error known
  read _ _ rest := look fun p _ => rest p
  peek := peek
  hold _ update := write update.toPropsWrite
  checkOom := checkOom
  checkStop := checkStop
  store evt _ := store evt
  push := push
  pop := still (fun _ => rfl) fun _ => id
  look _ rest := look fun p _ => rest p
  write _ := write
  insert idx evt _ := insert idx evt
  change _ _ _ := still (fun _ => rfl) fun _ => id

theorem neutral {u : Parser → Parser} (neutral : Neutral u) :
    Reports input merging (modify u : ParseM Unit) := by
  refine still (fun p => ?_) neutral.returns
  have output := neutral.output p
  simp only [Parser.report, Prod.mk.injEq]
  exact ⟨neutral.source p, congrArg Audit.ckpt (neutral.counts p).2,
    (congrArg Parser.errorMsg output :), (congrArg Parser.errorMark output :),
    (congrArg Parser.oom output :), (congrArg Parser.stopStatus output :),
    congrArg Prod.fst (neutral.mode p)⟩

theorem documents : DocumentLogic (Reports input merging) where
  toNodeLogic := rules.nodes
  fuel := fun _ reporting => ⟨reporting, fun _ same => by cases same⟩
  update _ := neutral
  boundary evt _ := store evt

/-! ### Steps of the incremental parser -/

theorem peekQuiet : Reports input merging peekQuiet := by
  intro p reporting
  have meets := peek p reporting
  rw [Oyl.peekQuiet]
  cases result : peekToken p with
  | ok a q =>
      rw [result] at meets
      exact meets
  | error stop q =>
      rw [result] at meets
      cases stop with
      | status st => exact meets.reporting
      | fuel => exact meets

theorem setState (state : PState) : Reports input merging (setState state) :=
  still (fun _ => rfl) fun _ => id

theorem consume : Reports input merging consumeToken :=
  still (fun _ => rfl) fun _ => id

theorem returnNode : Reports input merging returnNode :=
  still (fun _ => rfl) fun _ => id

theorem attach (evt : Event) : Reports input merging (attachProps evt) :=
  look fun _ reporting => .put (reporting.same rfl id) (pure _)

theorem emit (evt : Event) : Reports input merging (incEmit evt) := by
  refine update fun p reporting => ?_
  split
  · exact reporting.hitLimit (by decide)
  split
  · exact reporting.same rfl id
  · exact reporting.same rfl id

theorem scalarToken : Reports input merging incEmitScalarToken := by
  refine look fun p reporting =>
    ite (.put (reporting.hitLimit (by decide)) (pure _)) (ite ?_ (.put (reporting.same rfl id) consume))
  exact .bind (attach _) fun _ => .bind (still (fun _ => rfl) fun _ => id) fun _ => consume

theorem pushFrame (type : CtxType) (indent : Int) {returnState : PState}
    (stays : returnState ≠ .eagerDrain) :
    Reports input merging (incPushFrame type indent returnState) := by
  refine update fun p reporting => ?_
  split
  · exact (reporting.stopWith (.inl rfl) (by decide)).1
  split
  · have withheld : p.withholdStart.Reporting input merging := by
      rw [Parser.withholdStart]
      dsimp only
      split
      · split
        · exact reporting.same rfl id
        · exact reporting
      · exact reporting
    exact withheld.hitLimit (by decide)
  · have returns := reporting.returns
    refine reporting.same rfl fun _ => ⟨returns.1, returns.2.1, fun frame member => ?_⟩
    rcases List.mem_cons.mp member with rfl | older
    · exact stays
    · exact returns.2.2 frame older

theorem popFrame {f : Frame → ParseM Unit}
    (rest : ∀ frame, frame.returnState ≠ .eagerDrain → Reports input merging (f frame)) :
    Reports input merging (incPopFrame >>= f) := by
  intro p reporting
  obtain ⟨node, unroll, inner⟩ := reporting.returns
  rcases opened : p.frames with _ | ⟨frame, frames⟩
  · have popped : incPopFrame p = .ok ⟨.blockMap, -1, .done⟩ p := by
      rw [incPopFrame, get_bind_eq]
      simp only [opened]
      rfl
    rw [run_bind_ok popped]
    exact rest _ PState.noConfusion p reporting
  · have popped : incPopFrame p = .ok frame { p with frames := frames } := by
      rw [incPopFrame, get_bind_eq]
      simp only [opened]
      rfl
    rw [opened] at inner
    rw [run_bind_ok popped]
    exact rest frame (inner frame List.mem_cons_self) _ (reporting.same rfl fun _ =>
      ⟨node, unroll, fun other member => inner other (List.mem_cons_of_mem _ member)⟩)

theorem checkpoint : Reports input merging incCheckpoint := by
  refine update fun p reporting => ?_
  split
  · exact reporting
  split
  · exact reporting
  · refine { reporting with resumes := fun s same => ?_, resumed := reporting.current }
    cases same
    exact reporting.scanner

theorem openFlow (isMap : Bool) : Reports input merging (incOpenFlow isMap) := by
  refine look fun p reporting => .bind (attach _) fun evt => .bind consume fun _ =>
    .bind (emit _) fun _ => .bind (pushFrame _ _ reporting.returns.1) fun _ => setState _

theorem openBlock (type : CtxType) (next : PState) :
    Reports input merging (incOpenBlock type next) :=
  .bind peekQuiet fun _ => look fun _ reporting => .bind (emit _) fun _ =>
    .bind (pushFrame _ _ reporting.returns.1) fun _ => setState _

theorem emptyNode : Reports input merging incEmitEmpty :=
  look fun _ _ => emit _

theorem flowSep (inSeq : Bool) : Reports input merging (incFlowSep inSeq) :=
  .bind rules.peekType fun _ => ite (.bind consume fun _ => setState _)
    (ite (setState _) (setState _))

theorem flowMapValue : Reports input merging incFlowMapValue := by
  refine .bind rules.peekType fun _ => ite (.bind scalarToken fun _ => flowSep _)
    (ite (.bind emptyNode fun _ => setState _) ?_)
  exact still (fun _ => rfl) fun _ returns => ⟨PState.noConfusion, returns.2⟩

theorem steps : StepLogic (fun _ => Reports input merging) (Reports input merging) where
  pure := pure
  bind := bind
  weaken _ := id
  error _ known := error known
  read _ _ rest := look fun p _ => rest p
  update _ := neutral
  peek := peek
  peekQuiet := peekQuiet
  attach := attach
  props := rules.consumeProps
  emit := emit
  popFrame _ := popFrame
  queue := id
  after := bind
  look _ _ rest := look fun p _ => rest p
  live step := .bind checkOom fun _ => step
  drain := setState _
  checkpoint step := .bind checkpoint fun _ => step
  scalarNode := .bind scalarToken fun _ => returnNode
  flowMapValue := flowMapValue
  flowMapKey := .bind scalarToken fun _ => .bind (setState _) fun _ =>
    .bind rules.peekType fun _ => ite (.bind consume fun _ => flowMapValue) (pure _)
  openFlow := openFlow
  blockNodeKey := look fun _ reporting => .bind (emit _) fun _ => .bind (emit _) fun _ =>
    .bind (still (fun _ => rfl) fun _ => id) fun _ =>
      .bind (pushFrame _ _ reporting.returns.1) fun _ => setState _
  openBlock type next _ := openBlock type next

theorem parserStep : Reports input merging parserStep := by
  have logic : StepLogic (fun _ => Reports input merging) (Reports input merging) := steps
  obtain ⟨step, same, dispatched⟩ := logic.dispatch
  rw [same]
  refine .bind checkOom fun _ => look fun p _ => ?_
  by_cases bareValue : p.state = .blockNodeBareValue
  · rw [(dispatched p).1 bareValue]
    exact .bind (openBlock _ _) fun _ => emptyNode
  · exact (dispatched p).2 bareValue

/-! ### Documents -/

theorem parseStream (n : Nat) : Reports input merging (parseStream (eager n)) :=
  documents.parseStream (documents.eager n).1 (documents.eager n).2 store

theorem expansionFailed {b : EvtBuf} {limit : Int} (holds : b.Holds limit) (full : b.oom = true)
    {p : Parser} (large : intMax / 2 < limit → intMax / 2 < p.maxEvents) :
    Triple (fun q => q.Reporting input merging ∧ q = p) (expansionFailed b)
      (fun _ => Parser.Reporting input merging) (Reported input merging) := by
  rintro q ⟨reporting, rfl⟩
  rw [Oyl.expansionFailed]
  split
  · rename_i other
    refine ⟨reporting, fun st same => ?_⟩
    cases same
    exact .inr ⟨rfl, large (holds.failed full (by simpa using other))⟩
  · exact limited reporting (by decide)

end Reports

/-- An error of a merge has a message. -/
def Explained {ε α : Type} (msg : ε → String) (x : Except ε α) : Prop :=
  ∀ e, x = .error e → msg e ≠ ""

theorem mergeSource_explained (events : List Event) (anchors : List AnchorEntry) (pos : Nat)
    (st : MergeState) : Explained id (mergeSource events anchors pos st) := by
  intro msg fails
  rw [mergeSource] at fails
  split at fails
  · cases fails
  · split at fails
    · cases fails
      decide
    · dsimp only at fails
      split at fails <;> cases fails
      decide
  · cases fails
    decide

theorem mergeSources_explained (events : List Event) (anchors : List AnchorEntry)
    (stop fuel pos : Nat) (st : MergeState) :
    Explained id (mergeSources events anchors stop fuel pos st) := by
  induction fuel generalizing pos st with
  | zero =>
      intro msg fails
      cases fails
  | succ fuel ih =>
      intro msg fails
      rw [mergeSources] at fails
      split at fails
      · cases source : mergeSource events anchors pos st with
        | error other =>
            rw [source] at fails
            cases fails
            exact mergeSource_explained events anchors pos st _ source
        | ok next =>
            rw [source] at fails
            exact ih _ _ _ fails
      · cases fails

theorem processMergeKeys_explained (events : List Event) (anchors : List AnchorEntry)
    (all : List Entry) (st : MergeState) :
    Explained Prod.fst (processMergeKeys events anchors all st) := by
  induction all generalizing st with
  | nil =>
      intro e fails
      cases fails
  | cons entry rest ih =>
      intro e fails
      rw [processMergeKeys] at fails
      split at fails
      · split at fails
        · rename_i msg failed
          cases fails
          rw [processMergeValue] at failed
          split at failed
          · exact mergeSource_explained _ _ _ _ _ failed
          · exact mergeSources_explained _ _ _ _ _ _ _ failed
        · exact ih _ _ fails
      · exact ih _ _ fails

theorem rebuildMapping_explained (events : List Event) (anchors : List AnchorEntry)
    (start stop : Nat) (out : EvtBuf) :
    Explained Prod.fst (rebuildMapping events anchors start stop out) := by
  intro e fails
  unfold rebuildMapping at fails
  dsimp only at fails
  generalize keys : processMergeKeys _ _ _ _ = result at fails
  cases result with
  | ok st => cases fails
  | error other =>
      cases fails
      exact processMergeKeys_explained _ _ _ _ _ keys

theorem mergePassFrom_explained (events : List Event) (anchors : List AnchorEntry)
    (fuel i : Nat) (out : EvtBuf) (changed : Bool) :
    Explained Prod.fst (mergePassFrom events anchors fuel i out changed) := by
  induction fuel generalizing i out changed with
  | zero =>
      intro e fails
      cases fails
  | succ fuel ih =>
      intro e fails
      rw [mergePassFrom] at fails
      split at fails
      · dsimp only at fails
        split at fails
        · cases rebuilt : rebuildMapping events anchors i (nodeEnd events i) out with
          | ok next =>
              rw [rebuilt] at fails
              exact ih _ _ _ _ fails
          | error other =>
              rw [rebuilt] at fails
              cases fails
              exact rebuildMapping_explained _ _ _ _ _ _ rebuilt
        · exact ih _ _ _ _ fails
      · cases fails

namespace Reports

theorem mergePasses {limit : Int} (positive : 0 < limit) (n : Nat) :
    Triple (fun p => p.Reporting input true ∧ (intMax / 2 < limit → intMax / 2 < p.maxEvents))
      (mergePasses limit n) (fun _ => Parser.Reporting input true) (Reported input true) := by
  induction n with
  | zero => exact fun p known => known.1
  | succ n ih =>
      rintro p ⟨reporting, large⟩
      rw [Oyl.mergePasses, get_bind_eq]
      cases result : mergePass p.events limit with
      | error e =>
          have known := mergePassFrom_explained _ _ _ _ _ _ e result
          refine ⟨reporting.noted known Bool.noConfusion, fun st same => ?_⟩
          cases same
          exact .inl ⟨.inr (.inl rfl), known⟩
      | ok produced =>
          obtain ⟨out, changed⟩ := produced
          dsimp only
          split
          · exact expansionFailed (mergePass_holds positive result) ‹_› large p ⟨reporting, rfl⟩
          split
          · exact ih { p with events := out.data, evtCursor := 0 } ⟨reporting.same rfl id, large⟩
          · exact reporting

theorem resolveMerges : Reports input true resolveMerges := by
  intro p reporting
  rw [Oyl.resolveMerges, get_bind_eq]
  exact mergePasses (expansionLimit_pos p _) _ p ⟨reporting, expansionLimit_large⟩

theorem resolvePasses (cyclic : List Bool) {limit : Int} (positive : 0 < limit) (n : Nat) :
    Triple (fun p => p.Reporting input merging ∧ (intMax / 2 < limit → intMax / 2 < p.maxEvents))
      (resolvePasses cyclic limit n) (fun _ => Parser.Reporting input merging)
      (Reported input merging) := by
  induction n with
  | zero => exact fun p known => known.1
  | succ n ih =>
      rintro p ⟨reporting, large⟩
      rw [Oyl.resolvePasses, get_bind_eq]
      dsimp only
      split
      · exact expansionFailed (resolvePass_holds positive _ _) ‹_› large p ⟨reporting, rfl⟩
      split
      · exact ih { p with events := _, evtCursor := 0 } ⟨reporting.same rfl id, large⟩
      · exact reporting

theorem resolveAliases : Reports input merging resolveAliases := by
  intro p reporting
  rw [Oyl.resolveAliases, get_bind_eq]
  split
  · exact reporting
  · exact resolvePasses _ (expansionLimit_pos p _) _ p ⟨reporting, expansionLimit_large⟩

theorem checkEagerDepth : Reports input merging checkEagerDepth := by
  intro p reporting
  rw [Oyl.checkEagerDepth, get_bind_eq]
  split
  · split
    · exact limited reporting (by decide)
    · exact limited reporting (by decide)
  · exact reporting

theorem bindAnchors : Reports input merging (modify Parser.bindAnchors : ParseM Unit) := by
  have kept (p : Parser) :
      p.bindAnchors.report = p.report ∧ (p.Returns → p.bindAnchors.Returns) := by
    rw [Parser.bindAnchors]
    split <;> exact ⟨rfl, id⟩
  exact still (fun p => (kept p).1) fun p => (kept p).2

theorem unbindAnchors : Reports input merging (modify Parser.unbindAnchors : ParseM Unit) := by
  have kept (p : Parser) :
      p.unbindAnchors.report = p.report ∧ (p.Returns → p.unbindAnchors.Returns) := by
    rw [Parser.unbindAnchors]
    split <;> exact ⟨rfl, id⟩
  exact still (fun p => (kept p).1) fun p => (kept p).2

theorem expandDocument : Reports input merging expandDocument := by
  refine look fun p reporting => ?_
  have bound : Reports input merging (set p.bindAnchors : ParseM Unit) :=
    fun _ _ => bindAnchors p reporting
  have rest : Reports input merging (do
      if p.resolveEnabled then Oyl.resolveAliases
      if p.mergeEnabled || p.resolveEnabled then modify Parser.unbindAnchors
      Oyl.checkEagerDepth) :=
    compositional.optional resolveAliases (compositional.optional unbindAnchors checkEagerDepth)
  refine compositional.optional bound (Triple.ite (fun merges => ?_) fun _ => rest)
  obtain rfl := reporting.merges.symm.trans merges
  exact bind resolveMerges fun _ => rest

theorem skipDelivered : Reports input merging skipDelivered := by
  refine look fun p reporting => .put (reporting.same rfl id) (ite ?_ (pure _))
  exact .put (reporting.same rfl id) (error (by decide))

theorem eagerRefill (n : Nat) : Reports input merging (eagerRefill (eager n)) :=
  .bind (still (fun _ => rfl) fun _ => id) fun _ => .bind (parseStream n) fun _ =>
    .bind expandDocument fun _ => look fun _ _ => ite skipDelivered (pure _)

theorem eagerNextEvent (n fuel : Nat) : Reports input merging (eagerNextEvent (eager n) fuel) := by
  induction fuel with
  | zero => exact documents.fuel
  | succ fuel ih =>
      refine look fun p reporting => ?_
      split
      · exact .put (reporting.same rfl id) (pure _)
      · exact ite (pure _) (.bind (eagerRefill n) fun _ => ih)

/-! ### Calls -/

theorem fallBack : Reports input merging (modify Parser.fallBack : ParseM Unit) := by
  refine update fun p reporting => ?_
  have new : ∃ opened, (Scanner.new p.input).Sound input opened := by
    rw [reporting.text]
    exact ⟨[], Scanner.new_sound input⟩
  rw [Parser.fallBack]
  cases saved : p.ckpt with
  | some scanner =>
      exact { reporting with
        scanner := reporting.resumes scanner saved
        resumes := fun _ none => by cases none
        current := reporting.resumed
        stopped := fun impossible => absurd rfl impossible
        oom := Bool.noConfusion }
  | none =>
      exact { reporting with
        scanner := new
        resumes := fun _ none => by cases none
        stopped := fun impossible => absurd rfl impossible
        oom := Bool.noConfusion }

/-- The status that a round fails with is the one of the report. -/
theorem incRound : Triple (Parser.Reporting input merging) incRound
    (fun next p => p.Reporting input merging ∧
      ∀ st, next = .failed st → p.Explains st)
    (Reported input merging) := by
  have ended (q : Parser) (st : Status) (reporting : q.Reporting input merging)
      (status : st ≠ .ok → q.Explains st) :
      ({ q with outBuf := keptQueue q } : Parser).Reporting input merging ∧
        ∀ st', roundNext q st = .failed st' → q.Explains st' := by
    refine ⟨reporting.same rfl id, fun st' failed => ?_⟩
    rw [roundNext] at failed
    split at failed
    · rename_i scanFailed
      have scanned := reporting.scanned (by simpa using scanFailed)
      split at failed <;> cases failed
      exact .inl ⟨.inl scanned.1, scanned.2⟩
    split at failed
    · rename_i thrown
      cases failed
      exact status (by simpa using thrown)
    split at failed
    · rename_i stopped
      split at failed <;> cases failed
      exact reporting.oomStatus stopped
    split at failed
    · cases failed
    split at failed
    · cases failed
    · split at failed <;> cases failed
  intro p reporting
  have meets := parserStep p reporting
  cases result : Oyl.parserStep p with
  | ok a q =>
      rw [result] at meets
      rw [incRound_ok result]
      exact ended q .ok meets fun impossible => absurd rfl impossible
  | error stop q =>
      rw [result] at meets
      cases stop with
      | status st =>
          rw [incRound_error result]
          exact ended q st meets.reporting fun _ => meets.status st rfl
      | fuel =>
          rw [Oyl.incRound, result]
          exact meets

theorem takeQueued (evt : Event) : Reports input merging (takeQueued evt) :=
  .bind (still (fun _ => rfl) fun _ => id) fun _ => pure _

theorem incSteps (n fuel : Nat) : Reports input merging (incSteps n fuel) := by
  induction fuel with
  | zero => exact documents.fuel
  | succ fuel ih =>
      refine Triple.bind incRound fun next p known => ?_
      have reporting := known.1
      cases next with
      | more => exact ih p reporting
      | queued =>
          dsimp only
          rw [get_bind_eq]
          cases p.outBuf.head? with
          | some evt => exact takeQueued evt p reporting
          | none => exact reporting
      | fallBack => exact bind fallBack (fun _ => eagerNextEvent n n) p reporting
      | finished => exact reporting
      | failed st =>
          refine ⟨reporting, fun st' same => ?_⟩
          cases same
          exact known.2 st rfl

theorem nextEvent (fuel : Nat) : Reports input merging (nextEvent fuel) := by
  intro p reporting
  rw [Oyl.nextEvent, get_bind_eq]
  split
  · exact eagerNextEvent fuel fuel p reporting
  · cases p.outBuf[p.outCursor]? with
    | some evt => exact takeQueued evt p reporting
    | none =>
        dsimp only
        split
        · exact reporting
        split
        · rename_i failed
          have scanned := reporting.scanned (by simpa using failed)
          refine ⟨reporting, fun st same => ?_⟩
          cases same
          exact .inl ⟨.inl scanned.1, scanned.2⟩
        · exact incSteps fuel fuel _ (reporting.same rfl id)

end Reports

/-- The states between calls of `next_event`. -/
theorem Delivering.reporting {o : Options} {delivered : List Event}
    (reached : Delivering input o delivered p) : p.Reporting input o.merge := by
  induction reached with
  | new => exact {
      text := rfl
      scanner := ⟨[], Scanner.new_sound input⟩
      resumes := fun _ none => by cases none
      current := Nat.zero_le _
      resumed := Nat.zero_le _
      scanned := fun impossible => absurd rfl impossible
      stopped := fun impossible => absurd rfl impossible
      oom := Bool.noConfusion
      merges := rfl
      mark := fun _ => Nat.zero_le _
      returns := ⟨PState.noConfusion, PState.noConfusion, fun _ member => by cases member⟩ }
  | limits maxEvents maxDepth _ ih => exact ih.same rfl id
  | event _ ok ih =>
      have next := Triple.ok (Reports.nextEvent _) ih ok
      exact next
  | noEvent _ ok ih =>
      have next := Triple.ok (Reports.nextEvent _) ih ok
      exact next
  | failed _ fails ih => exact (Triple.error (Reports.nextEvent _) ih fails).reporting

end

/-- A call of `oyl_parse_next` fails only with a scan error, a parse error or a limit, and
leaves a message; with a limit above half of the range of `int` an expansion may also be more
than its buffer can hold.  Without merge keys the mark is inside of the input. -/
theorem failures_reported {input : Bytes} {o : Options} {delivered : List Event} {p q : Parser}
    {fuel : Nat} {st : Status} (reached : Delivering input o delivered p)
    (fails : nextEvent fuel p = .error (.status st) q) :
    ((st = .scan ∨ st = .parse ∨ st = .limit) ∧ q.errorMsg ≠ "" ∨
        st = .memory ∧ intMax / 2 < q.maxEvents) ∧
      (o.merge = false → q.errorMark.offset ≤ input.length) := by
  have reported := Triple.error (Reports.nextEvent fuel) reached.reporting fails
  exact ⟨reported.status st rfl, reported.reporting.mark⟩

/-- `]` -/
theorem failures_reported_bracket :
    ∃ q, nextEvent 8 ((Parser.new [rbracket]).configure { resolve := true }) =
        .error (.status .parse) q ∧ q.errorMsg ≠ "" ∧ q.errorMark.offset ≤ 1 := by
  have fails : ∃ q, nextEvent 8 ((Parser.new [rbracket]).configure { resolve := true }) =
      .error (.status .parse) q := ⟨_, rfl⟩
  obtain ⟨q, fails⟩ := fails
  obtain ⟨explained, inside⟩ := failures_reported .new fails
  rcases explained with ⟨_, known⟩ | ⟨impossible, _⟩
  · exact ⟨q, fails, known, inside rfl⟩
  · cases impossible

end Oyl
