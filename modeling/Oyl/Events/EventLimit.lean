import Oyl.Events.DefaultRuns
import Oyl.Expand.BindingRule

/-!
# The event limit

With an event limit no run delivers more events than it allows, whether they were queued by
the incremental parser, stored by the eager one or made by an expansion.
-/

namespace Oyl

open StateError

/-! ### The parser -/

/-- What counts against the event limit. -/
def Parser.spent (p : Parser) : Int × Nat × Nat × Nat × Nat × Option Scanner × Nat :=
  (p.maxEvents, p.evtBase, p.evtLen, p.eventsDelivered, p.outBuf.length, p.ckpt, p.ckptDelivered)

/-- What was queued and delivered is within the limit, and what was stored after the first
`base` events. -/
structure Parser.Fits (limit : Int) (base : Nat) (p : Parser) : Prop where
  bounded : p.maxEvents = limit
  based : p.evtBase = base
  stored : ((p.evtBase + p.evtLen : Nat) : Int) ≤ limit
  queued : ((p.eventsDelivered + p.outBuf.length : Nat) : Int) ≤ limit
  saved : p.ckpt ≠ none → (p.ckptDelivered : Int) ≤ limit
  returns : p.Returns

/-- A step that stays within the limit. -/
def Thrifty (limit : Int) (base : Nat) (p q : Parser) : Prop :=
  p.Fits limit base → q.Fits limit base

theorem thrifty_preorder (limit : Int) (base : Nat) : Preorder (Thrifty limit base) where
  refl _ := id
  trans first second := second ∘ first

section

variable {limit : Int} {base : Nat} {p q : Parser}

theorem Parser.Fits.same (fits : p.Fits limit base) (spent : q.spent = p.spent)
    (returns : p.Returns → q.Returns) : q.Fits limit base := by
  simp only [Parser.spent, Prod.mk.injEq] at spent
  obtain ⟨bounded, based, stored, count, queued, ckpt, saved⟩ := spent
  refine ⟨bounded.trans fits.bounded, based.trans fits.based, ?_, ?_, ?_, returns fits.returns⟩
  · rw [based, stored]
    exact fits.stored
  · rw [count, queued]
    exact fits.queued
  · rw [ckpt, saved]
    exact fits.saved

theorem thrifty_same (spent : q.spent = p.spent) (returns : p.Returns → q.Returns) :
    Thrifty limit base p q :=
  fun fits => fits.same spent returns

theorem thrifty_stopWith (p : Parser) (st : Status) (msg : String) :
    Thrifty limit base p (p.stopWith st msg) := by
  rw [Parser.stopWith]
  split <;> exact thrifty_same rfl id

theorem thrifty_peek : Respects (Thrifty limit base) peekToken := by
  intro p
  rw [after, peekToken, get_bind_eq]
  by_cases held : p.haveToken = true
  · rw [if_pos held]
    exact id
  · rw [if_neg held]
    cases scanToken p.scanner with
    | ok tok scanner => exact thrifty_same rfl id
    | error st scanner =>
        dsimp only
        cases scanner.errorMsg == "" <;> exact thrifty_same rfl id

/-! ### Documents -/

/-- An event is stored only below the limit. -/
theorem thrifty_enqueue (positive : 0 < limit) (evt : Event) :
    Respects (Thrifty limit base) (enqueue evt) := by
  refine .getBind fun p => ?_
  split
  · exact Respects.setBind (thrifty_preorder limit base) (thrifty_stopWith p _ _) id
  · rename_i room
    refine Respects.setBind (thrifty_preorder limit base) (fun fits => ?_) id
    have below : ((p.evtBase + p.events.length : Nat) : Int) < limit := by
      have bounded := fits.bounded
      simp only [Parser.overLimit, Bool.and_eq_true, decide_eq_true_eq, not_and] at room
      have fewer := room (by omega)
      rw [Parser.evtLen] at fewer
      omega
    refine { fits with stored := ?_ }
    change ((p.evtBase + (p.events ++ [_]).length : Nat) : Int) ≤ limit
    rw [List.length_append, List.length_singleton]
    omega

theorem thrifty_nodeFrame (positive : 0 < limit) : NodeFrame (Thrifty limit base) where
  toPreorder := thrifty_preorder limit base
  peek := thrifty_peek
  consume _ := thrifty_same rfl id
  enqueue evt _ := thrifty_enqueue positive evt
  events p events length _ := by
    refine thrifty_same ?_ id
    simp only [Parser.spent, Parser.evtLen, length]
  push type indent := by
    refine .getBind fun p => ?_
    split
    · exact thrifty_stopWith p _ _
    split
    · exact thrifty_stopWith p _ _
    · exact thrifty_same rfl id
  pop _ := thrifty_same rfl id
  props _ _ _ _ _ _ _ _ := thrifty_same rfl id
  message _ _ _ := thrifty_same rfl id
  limit p _ := thrifty_stopWith p _ _

theorem thrifty_update {u : Parser → Parser} (neutral : Neutral u) (p : Parser) :
    Thrifty limit base p (u p) := by
  refine thrifty_same ?_ (neutral.returns p)
  have output := neutral.output p
  obtain ⟨based, audit⟩ := neutral.counts p
  have queue : (u p).outBuf = p.outBuf := (congrArg Parser.outBuf output :)
  have events : (u p).events = p.events := (congrArg Parser.events output :)
  have bounded : (u p).maxEvents = p.maxEvents := (congrArg Parser.maxEvents output :)
  simp only [Parser.spent, Prod.mk.injEq, Parser.evtLen]
  exact ⟨bounded, based, by rw [events], congrArg Audit.eventsDelivered audit, by rw [queue],
    congrArg Audit.ckpt audit, congrArg Audit.ckptDelivered audit⟩

theorem thrifty_documents (positive : 0 < limit) :
    DocumentLogic (Respects (Thrifty limit base)) where
  toNodeLogic := (thrifty_nodeFrame positive).logic
  fuel _ := id
  update _ neutral := .modify fun p => thrifty_update neutral p
  boundary evt _ := .discard (thrifty_enqueue positive evt)

theorem thrifty_parseStream (positive : 0 < limit) (n : Nat) :
    Respects (Thrifty limit base) (parseStream (eager n)) := by
  obtain ⟨calls, directives⟩ := (thrifty_documents positive).eager n
  exact (thrifty_documents positive).parseStream calls directives fun evt =>
    .discard (thrifty_enqueue positive evt)

/-! ### Expansion -/

theorem thrifty_expansionFailed (b : EvtBuf) :
    Respects (Thrifty limit base) (expansionFailed b) := by
  rw [expansionFailed]
  split
  · exact fun _ => id
  · exact .bind (thrifty_preorder limit base) (.modify fun p => thrifty_stopWith p _ _) fun _ _ => id

/-- What an expansion may make, if there is something to expand. -/
theorem Parser.Fits.budget (fits : p.Fits limit base) (positive : 0 < limit) :
    0 < p.expansionLimit p.evtLen ∧
      (p.events ≠ [] → p.evtBase + p.expansionLimit p.evtLen ≤ limit) := by
  have bounded := fits.bounded
  have stored := fits.stored
  rw [Parser.expansionLimit, if_pos (by omega), bounded]
  refine ⟨by split <;> omega, fun some => ?_⟩
  have length : 0 < p.evtLen := List.length_pos_iff.mpr some
  split <;> omega

/-- The events are replaced by an expansion. -/
theorem Parser.Fits.expanded {budget : Int} (fits : p.Fits limit base)
    (room : p.evtBase + budget ≤ limit) {out : List Event} (within : (out.length : Int) ≤ budget) :
    ({ p with events := out, evtCursor := 0 } : Parser).Fits limit base := by
  refine { fits with stored := ?_ }
  change ((p.evtBase + out.length : Nat) : Int) ≤ limit
  omega

theorem mergePasses_thrifty {budget : Int} (positive : 0 < budget) (n : Nat) (p : Parser)
    (room : p.events ≠ [] → p.evtBase + budget ≤ limit) :
    Thrifty limit base p (after (mergePasses budget n) p) := by
  induction n generalizing p with
  | zero => exact id
  | succ n ih =>
      rw [mergePasses, after_getBind]
      cases result : mergePass p.events budget with
      | error e => exact thrifty_same rfl id
      | ok produced =>
          obtain ⟨out, changed⟩ := produced
          dsimp only
          split
          · exact thrifty_expansionFailed _ p
          split
          · rename_i more
            have some : p.events ≠ [] := by
              intro none
              rw [none] at result
              cases result
              cases more
            exact Respects.setBind (thrifty_preorder limit base)
              (fun fits => fits.expanded (room some) (mergePass_holds positive result).within)
              (ih _ fun _ => room some)
          · exact id

theorem resolvePasses_thrifty {budget : Int} (positive : 0 < budget) (cyclic : List Bool) (n : Nat)
    (p : Parser) (room : p.events ≠ [] → p.evtBase + budget ≤ limit) :
    Thrifty limit base p (after (resolvePasses cyclic budget n) p) := by
  induction n generalizing p with
  | zero => exact id
  | succ n ih =>
      rw [resolvePasses, after_getBind]
      have within := (resolvePass_holds positive p.events cyclic).within
      cases result : resolvePass p.events cyclic budget with
      | mk out changed =>
          rw [result] at within
          dsimp only
          split
          · exact thrifty_expansionFailed _ p
          split
          · rename_i more
            have some : p.events ≠ [] := by
              intro none
              rw [none] at result
              cases result
              cases more
            exact Respects.setBind (thrifty_preorder limit base)
              (fun fits => fits.expanded (room some) within) (ih _ fun _ => room some)
          · exact id

theorem thrifty_resolveMerges (positive : 0 < limit) :
    Respects (Thrifty limit base) resolveMerges := by
  refine .getBind fun p fits => ?_
  obtain ⟨some, room⟩ := fits.budget positive
  exact mergePasses_thrifty some _ p room fits

theorem thrifty_resolveAliases (positive : 0 < limit) :
    Respects (Thrifty limit base) resolveAliases := by
  refine .getBind fun p fits => ?_
  obtain ⟨some, room⟩ := fits.budget positive
  dsimp only
  split
  · exact fits
  · exact resolvePasses_thrifty some _ _ p room fits

theorem thrifty_checkEagerDepth : Respects (Thrifty limit base) checkEagerDepth := by
  refine .getBind fun p => ?_
  split
  · exact thrifty_stopWith p _ _
  · exact id

theorem thrifty_bindAnchors (p : Parser) : Thrifty limit base p p.bindAnchors := by
  rw [Parser.bindAnchors]
  split
  · exact id
  · refine thrifty_same ?_ id
    simp only [Parser.spent, Parser.evtLen, bindEvents_length]

theorem thrifty_unbindAnchors (p : Parser) : Thrifty limit base p p.unbindAnchors := by
  rw [Parser.unbindAnchors]
  split
  · exact id
  · refine thrifty_same ?_ id
    simp only [Parser.spent, Parser.evtLen, List.length_map]

theorem thrifty_expandDocument (positive : 0 < limit) :
    Respects (Thrifty limit base) expandDocument := by
  have logic := Respects.compositional (ε := Stop) (thrifty_preorder limit base)
  refine .getBind fun p => ?_
  have rest {last : ParseM Unit} (kept : Respects (Thrifty limit base) last) :=
    logic.optional (c := p.mergeEnabled) (thrifty_resolveMerges positive)
      (logic.optional (c := p.resolveEnabled) (thrifty_resolveAliases positive) kept)
  split
  · exact Respects.setBind (thrifty_preorder limit base) (thrifty_bindAnchors p)
      (rest (logic.bind (.modify thrifty_unbindAnchors) fun _ => thrifty_checkEagerDepth) _)
  · exact rest thrifty_checkEagerDepth p

theorem thrifty_skipDelivered : Respects (Thrifty limit base) skipDelivered := by
  refine .getBind fun p => ?_
  refine Respects.setBind (thrifty_preorder limit base) (thrifty_same rfl id) ?_
  split
  · exact Respects.setBind (thrifty_preorder limit base) (thrifty_same rfl id) (thrifty_same rfl id)
  · exact id

/-! ### Steps of the incremental parser -/

namespace Thrifty

/-- What follows may use that the state that was read is within the limit. -/
theorem look {α : Type} {f : Parser → ParseM α}
    (rest : ∀ p, p.Fits limit base → Respects (Thrifty limit base) (f p)) :
    Respects (Thrifty limit base) (get >>= f) :=
  fun p fits => rest p fits p fits

theorem peekQuiet : Respects (Thrifty limit base) peekQuiet := by
  intro p
  have same : after Oyl.peekQuiet p = after peekToken p := by
    rw [after, after, Oyl.peekQuiet]
    cases peekToken p with
    | ok a q => rfl
    | error e q => cases e <;> rfl
  rw [same]
  exact thrifty_peek p

theorem setState (state : PState) : Respects (Thrifty limit base) (setState state) :=
  .modify fun _ => thrifty_same rfl id

theorem consume : Respects (Thrifty limit base) consumeToken :=
  .modify fun _ => thrifty_same rfl id

theorem returnNode : Respects (Thrifty limit base) returnNode :=
  .modify fun _ => thrifty_same rfl id

theorem attach (evt : Event) : Respects (Thrifty limit base) (attachProps evt) :=
  .getBind fun _ => thrifty_same rfl id

theorem checkOom : Respects (Thrifty limit base) checkOom := by
  refine .getBind fun p => ?_
  split <;> exact id

/-- An event is queued only below the limit. -/
theorem queue (fits : p.Fits limit base) (positive : 0 < limit) (room : ¬p.incOverLimit = true)
    (evt : Event) : ({ p with outBuf := p.outBuf ++ [evt] } : Parser).Fits limit base := by
  have below : ((p.eventsDelivered + p.outBuf.length : Nat) : Int) < limit := by
    have bounded := fits.bounded
    simp only [Parser.incOverLimit, Bool.and_eq_true, decide_eq_true_eq, not_and] at room
    have fewer := room (by omega)
    omega
  refine { fits with queued := ?_ }
  change ((p.eventsDelivered + (p.outBuf ++ [evt]).length : Nat) : Int) ≤ limit
  rw [List.length_append, List.length_singleton]
  omega

theorem emit (positive : 0 < limit) (evt : Event) :
    Respects (Thrifty limit base) (incEmit evt) := by
  refine .modify fun p => ?_
  split
  · exact thrifty_stopWith p _ _
  · rename_i room
    split
    · exact fun fits => queue fits positive room evt
    · exact thrifty_same rfl id

theorem scalarToken (positive : 0 < limit) : Respects (Thrifty limit base) incEmitScalarToken := by
  refine .getBind fun p => ?_
  split
  · exact thrifty_stopWith p _ _
  rename_i room
  split
  · have attached (fits : p.Fits limit base) :
        (after (attachProps (p.nodeEvent .scalar)) p).Fits limit base := attach _ p fits
    exact fun fits => (queue (attached fits) positive room _).same rfl id
  · exact thrifty_same rfl id

/-- Fewer events may be kept. -/
theorem keep (fits : p.Fits limit base) {kept : List Event}
    (fewer : kept.length ≤ p.outBuf.length) :
    ({ p with outBuf := kept } : Parser).Fits limit base := by
  have queued := fits.queued
  refine { fits with queued := ?_ }
  change ((p.eventsDelivered + kept.length : Nat) : Int) ≤ limit
  omega

theorem withholdStart (p : Parser) : Thrifty limit base p p.withholdStart := by
  rw [Parser.withholdStart]
  dsimp only
  split
  · split
    · exact fun fits => keep fits (List.length_take_le' _ _)
    · exact id
  · exact id

theorem pushFrame (type : CtxType) (indent : Int) {returnState : PState}
    (stays : returnState ≠ .eagerDrain) :
    Respects (Thrifty limit base) (incPushFrame type indent returnState) := by
  refine .modify fun p => ?_
  split
  · exact thrifty_stopWith p _ _
  split
  · exact fun fits => thrifty_stopWith _ _ _ (withholdStart p fits)
  · refine thrifty_same rfl fun returns => ⟨returns.1, returns.2.1, fun frame member => ?_⟩
    rcases List.mem_cons.mp member with rfl | older
    · exact stays
    · exact returns.2.2 frame older

theorem popFrame {f : Frame → ParseM Unit}
    (rest : ∀ frame, frame.returnState ≠ .eagerDrain → Respects (Thrifty limit base) (f frame)) :
    Respects (Thrifty limit base) (incPopFrame >>= f) := by
  intro p fits
  obtain ⟨node, unroll, inner⟩ := fits.returns
  rcases opened : p.frames with _ | ⟨frame, frames⟩
  · have popped : incPopFrame p = .ok ⟨.blockMap, -1, .done⟩ p := by
      rw [incPopFrame, get_bind_eq]
      simp only [opened]
      rfl
    rw [after, run_bind_ok popped]
    exact rest _ PState.noConfusion p fits
  · have popped : incPopFrame p = .ok frame { p with frames := frames } := by
      rw [incPopFrame, get_bind_eq]
      simp only [opened]
      rfl
    rw [opened] at inner
    rw [after, run_bind_ok popped]
    exact rest frame (inner frame List.mem_cons_self) _ (fits.same rfl fun _ =>
      ⟨node, unroll, fun other member => inner other (List.mem_cons_of_mem _ member)⟩)

theorem checkpoint : Respects (Thrifty limit base) incCheckpoint := by
  refine .modify fun p => ?_
  split
  · exact id
  split
  · exact id
  · intro fits
    have queued := fits.queued
    refine { fits with saved := fun _ => ?_ }
    change (p.eventsDelivered : Int) ≤ limit
    omega

theorem openFlow (positive : 0 < limit) (isMap : Bool) :
    Respects (Thrifty limit base) (incOpenFlow isMap) := by
  have logic := Respects.compositional (ε := Stop) (thrifty_preorder limit base)
  exact look fun p fits => logic.bind (attach _) fun evt => logic.bind consume fun _ =>
    logic.bind (emit positive _) fun _ => logic.bind (pushFrame _ _ fits.returns.1) fun _ =>
      setState _

theorem openBlock (positive : 0 < limit) (type : CtxType) (next : PState) :
    Respects (Thrifty limit base) (incOpenBlock type next) := by
  have logic := Respects.compositional (ε := Stop) (thrifty_preorder limit base)
  exact logic.bind peekQuiet fun _ => look fun p fits => logic.bind (emit positive _) fun _ =>
    logic.bind (pushFrame _ _ fits.returns.1) fun _ => setState _

theorem blockNodeKey (positive : 0 < limit) : Respects (Thrifty limit base) stepBlockNodeKey := by
  have logic := Respects.compositional (ε := Stop) (thrifty_preorder limit base)
  have saved : Respects (Thrifty limit base)
      (modify fun p => { p with haveSavedNode := false } : ParseM Unit) :=
    .modify fun _ => thrifty_same rfl id
  exact look fun p fits => logic.bind (emit positive _) fun _ =>
    logic.bind (emit positive _) fun _ => logic.bind saved fun _ =>
      logic.bind (pushFrame _ _ fits.returns.1) fun _ => setState _

theorem emptyNode (positive : 0 < limit) : Respects (Thrifty limit base) incEmitEmpty :=
  .getBind fun p => emit positive _ p

theorem flowSep (positive : 0 < limit) (inSeq : Bool) :
    Respects (Thrifty limit base) (incFlowSep inSeq) := by
  have logic := Respects.compositional (ε := Stop) (thrifty_preorder limit base)
  exact logic.bind (thrifty_documents positive).peekType fun _ =>
    .ite (logic.bind consume fun _ => setState _) (.ite (setState _) (setState _))

theorem flowMapValue (positive : 0 < limit) : Respects (Thrifty limit base) incFlowMapValue := by
  have logic := Respects.compositional (ε := Stop) (thrifty_preorder limit base)
  refine logic.bind (thrifty_documents positive).peekType fun tt => ?_
  refine .ite (logic.bind (scalarToken positive) fun _ => flowSep positive _) (.ite ?_ ?_)
  · exact logic.bind (emptyNode positive) fun _ => setState _
  · exact .modify fun _ => thrifty_same rfl fun returns => ⟨PState.noConfusion, returns.2⟩

theorem steps (positive : 0 < limit) :
    StepLogic (fun _ => Respects (Thrifty limit base)) (Respects (Thrifty limit base)) := by
  have logic := Respects.compositional (ε := Stop) (thrifty_preorder limit base)
  have documents : DocumentLogic (Respects (Thrifty limit base)) := thrifty_documents positive
  exact {
    pure := logic.pure
    bind := logic.bind
    weaken := fun _ => id
    error := fun _ known => documents.error _ known
    read := fun _ _ rest => .getBind fun p => rest p p
    update := fun _ neutral => .modify fun p => thrifty_update neutral p
    peek := thrifty_peek
    peekQuiet := peekQuiet
    attach := attach
    props := documents.consumeProps
    emit := emit positive
    popFrame := fun _ => popFrame
    queue := id
    after := logic.bind
    look := fun _ _ rest => .getBind fun p => rest p p
    live := fun step => logic.bind checkOom fun _ => step
    drain := setState _
    checkpoint := fun step => logic.bind checkpoint fun _ => step
    scalarNode := logic.bind (scalarToken positive) fun _ => returnNode
    flowMapValue := flowMapValue positive
    flowMapKey := logic.bind (scalarToken positive) fun _ => logic.bind (setState _) fun _ =>
      logic.bind documents.peekType fun _ =>
        .ite (logic.bind consume fun _ => flowMapValue positive) (logic.pure _)
    openFlow := openFlow positive
    blockNodeKey := blockNodeKey positive
    openBlock := fun type next _ => openBlock positive type next }

theorem parserStep (positive : 0 < limit) : Respects (Thrifty limit base) parserStep := by
  have compositional := Respects.compositional (ε := Stop) (thrifty_preorder limit base)
  have logic : StepLogic (fun _ => Respects (Thrifty limit base)) (Respects (Thrifty limit base)) :=
    steps positive
  obtain ⟨step, same, dispatched⟩ := logic.dispatch
  rw [same]
  refine compositional.bind checkOom fun _ => .getBind fun p => ?_
  by_cases bareValue : p.state = .blockNodeBareValue
  · rw [(dispatched p).1 bareValue]
    exact compositional.bind (openBlock positive _ _) (fun _ => emptyNode positive) p
  · exact (dispatched p).2 bareValue p

/-- A round keeps no more than the step queued. -/
theorem incRound {next : StepResult} (positive : 0 < limit) (fits : p.Fits limit base)
    (ok : incRound p = .ok next q) : q.Fits limit base := by
  have stepped := parserStep positive p fits
  rcases incRound_eq p with ⟨st, round⟩ | ⟨r, round⟩
  · rw [round] at ok
    cases ok
    refine keep stepped ?_
    rw [keptQueue]
    split
    · exact List.length_take_le' _ _
    · exact Nat.le_refl _
  · rw [round] at ok
    cases ok

end Thrifty

/-! ### Runs of the eager parser -/

/-- The eager parser after `count` events; those that it skips were delivered before it started
again. -/
structure Handed (limit : Int) (count : Nat) (p : Parser) : Prop where
  rests : p.Rests
  fits : p.Fits limit p.evtBase
  within : (count : Int) ≤ limit
  cursor : p.evtCursor ≤ p.evtLen
  skips : 0 < p.skipN → p.evtCursor = p.evtLen
  counted : p.evtBase + p.evtCursor + p.skipN = count

variable {count : Nat} {p' : Parser}

/-- The next document counts after those before it. -/
theorem Handed.refill {n : Nat} (run : Handed limit count p) (positive : 0 < limit)
    (read : p.events[p.evtCursor]? = none) (running : p.streamEnded = false)
    (ok : eagerRefill (eager n) p = .ok () p') : Handed limit count p' := by
  obtain ⟨q, r, parsed, expanded, same, rest⟩ := eagerRefill_parts ok
  have next := reparsed run.rests running parsed expanded
  have consumed : p.evtCursor = p.evtLen :=
    Nat.le_antisymm run.cursor (List.getElem?_eq_none_iff.mp read)
  have fits : r.Fits limit (p.evtBase + p.evtLen) := by
    have start : ({ p with
        evtBase := p.evtBase + p.evtLen, events := [], evtCursor := 0 } : Parser).Fits limit
          (p.evtBase + p.evtLen) := { run.fits with based := rfl, stored := run.fits.stored }
    exact (thrifty_expandDocument positive).ok expanded
      ((thrifty_parseStream positive n).ok parsed start)
  have skipN : r.skipN = p.skipN := congrArg Audit.skipN same
  have counted := run.counted
  by_cases skips : r.skipN > 0
  · rw [if_pos skips] at rest
    obtain ⟨isNext, fewer, _⟩ := skipDelivered_ok rest
    have fits' := thrifty_skipDelivered.ok rest fits
    have cursor : p'.evtCursor = min r.skipN r.evtLen := by rw [isNext]
    have length : p'.evtLen = r.evtLen := by
      rw [isNext]
      rfl
    have based := fits'.based
    refine ⟨?_, based ▸ fits', run.within, ?_, fun _ => ?_, ?_⟩
    · rw [isNext]
      exact ⟨next.rests.eager, next.rests.contexts, next.rests.fresh, next.rests.ahead⟩
    all_goals omega
  · rw [if_neg skips] at rest
    cases rest
    have cursor := next.cursor
    have based := fits.based
    exact ⟨next.rests, based ▸ fits, run.within, by omega, fun more => absurd more skips, by omega⟩

/-- One call of `eager_next_event`. -/
theorem Handed.next {n fuel : Nat} {result : Option Event} (run : Handed limit count p)
    (positive : 0 < limit) (ok : eagerNextEvent (eager n) fuel p = .ok result p') :
    Handed limit (count + result.toList.length) p' := by
  induction fuel generalizing p with
  | zero => cases ok
  | succ fuel ih =>
      rw [eagerNextEvent, get_bind_eq] at ok
      cases read : p.events[p.evtCursor]? with
      | some evt =>
          rw [read] at ok
          cases ok
          obtain ⟨inside, _⟩ := List.getElem?_eq_some_iff.mp read
          have inside : p.evtCursor < p.evtLen := inside
          have counted := run.counted
          have stored := run.fits.stored
          have none : p.skipN = 0 := by
            refine Nat.eq_zero_of_not_pos fun skips => ?_
            have ended := run.skips skips
            omega
          refine ⟨⟨run.rests.eager, run.rests.contexts, run.rests.fresh, run.rests.ahead⟩,
            run.fits.same rfl id, ?_, inside,
            fun (skips : 0 < p.skipN) => absurd skips (by omega), ?_⟩
          · rw [Option.toList_some, List.length_singleton]
            omega
          · rw [Option.toList_some, List.length_singleton]
            change p.evtBase + (p.evtCursor + 1) + p.skipN = count + 1
            omega
      | none =>
          rw [read] at ok
          dsimp only at ok
          cases ended : p.streamEnded with
          | true =>
              rw [ended] at ok
              cases ok
              exact run
          | false =>
              rw [ended] at ok
              obtain ⟨_, q, refilled, rest⟩ := bind_eq_ok ok
              exact ih (run.refill positive read ended refilled) rest

/-! ### Runs of the incremental parser -/

variable {input : Bytes} {delivered : List Event}

/-- The incremental parser between calls; what waits counts. -/
structure Paying (input : Bytes) (limit : Int) (delivered : List Event) (p : Parser) : Prop where
  run : StepRun input delivered p
  fits : ({ p with outBuf := p.waiting } : Parser).Fits limit 0

theorem Paying.takeQueued {evt : Event} {result : Option Event}
    (paying : Paying input limit delivered p) (next : p.outBuf[p.outCursor]? = some evt)
    (ok : takeQueued evt p = .ok result p') :
    Paying input limit (delivered ++ result.toList) p' := by
  refine ⟨paying.run.takeQueued next ok, ?_⟩
  have waiting := Parser.waiting_takeQueued next ok
  have queued := paying.fits.queued
  rw [waiting, List.length_cons] at queued
  have fits := paying.fits
  have count : p'.eventsDelivered = p.eventsDelivered + 1 := by
    cases ok
    rfl
  have same : p'.maxEvents = p.maxEvents ∧ p'.evtBase = p.evtBase ∧ p'.evtLen = p.evtLen ∧
      p'.ckpt = p.ckpt ∧ p'.ckptDelivered = p.ckptDelivered ∧ (p.Returns → p'.Returns) := by
    cases ok
    exact ⟨rfl, rfl, rfl, rfl, rfl, id⟩
  obtain ⟨bounded, based, stored, ckpt, saved, returns⟩ := same
  refine ⟨bounded.trans fits.bounded, based.trans fits.based, ?_, ?_, ?_, returns fits.returns⟩
  · change ((p'.evtBase + p'.evtLen : Nat) : Int) ≤ limit
    rw [based, stored]
    exact fits.stored
  · change ((p'.eventsDelivered + p'.waiting.length : Nat) : Int) ≤ limit
    change ((p.eventsDelivered + (p'.waiting.length + 1) : Nat) : Int) ≤ limit at queued
    omega
  · change p'.ckpt ≠ none → (p'.ckptDelivered : Int) ≤ limit
    rw [ckpt, saved]
    exact fits.saved

/-- A fallback goes on where the incremental parser was. -/
theorem StepRun.handed (run : StepRun input delivered q) (fits : q.Fits limit 0)
    (positive : 0 < limit) : Handed limit delivered.length q.fallBack := by
  have within : (delivered.length : Int) ≤ limit := by
    have queued := fits.queued
    have count := run.faithful.count
    omega
  obtain ⟨before, since, rfl, has⟩ := run.faithful.accounts
  obtain ⟨rests, none, _⟩ := q.fallBack_empty
  have length : q.fallBack.evtLen = 0 := by
    rw [Parser.evtLen, none, List.length_nil]
  have fresh : q.fallBack.evtCursor = 0 ∧ q.fallBack.ckpt = .none ∧
      q.fallBack.maxEvents = q.maxEvents ∧ q.fallBack.eventsDelivered = 0 ∧
      q.fallBack.outBuf = q.outBuf ∧ (q.Returns → q.fallBack.Returns) := by
    rw [Parser.fallBack]
    cases q.ckpt <;> exact ⟨rfl, rfl, rfl, rfl, rfl, id⟩
  obtain ⟨cursor, ckpt, bounded, count, queue, returns⟩ := fresh
  have based : q.fallBack.evtBase = before.length ∧ (before.length : Int) ≤ limit := by
    cases saved : q.ckpt with
    | none =>
        rw [has.noCkpt saved, Parser.fallBack, saved]
        exact ⟨rfl, by
          rw [List.length_nil]
          exact Int.le_of_lt positive⟩
    | some scanner =>
        have kept := fits.saved (by rw [saved]; exact Option.some_ne_none scanner)
        rw [Parser.fallBack, saved]
        exact ⟨has.ckptDelivered, has.ckptDelivered ▸ kept⟩
  have skipping := has.skipping
  simp only [Parser.Skipping, Parser.skips, Prod.mk.injEq, List.length_nil] at skipping
  refine ⟨rests, ⟨bounded.trans fits.bounded, rfl, ?_, ?_, fun some => absurd ckpt some,
    returns fits.returns⟩, within, by omega, fun _ => by omega, ?_⟩
  · rw [based.1, length]
    exact based.2
  · have queued := fits.queued
    rw [count, queue]
    omega
  · rw [List.length_append]
    omega

/-- The rounds of a call. -/
theorem Paying.steps {n fuel : Nat} {result : Option Event} (run : StepRun input delivered p)
    (fits : p.Fits limit 0) (positive : 0 < limit) (empty : p.outBuf = [])
    (fresh : p.outCursor = 0) (clean : p.scanError = .ok)
    (ok : incSteps n fuel p = .ok result p') :
    Paying input limit (delivered ++ result.toList) p' ∨
      Handed limit (delivered.length + result.toList.length) p' := by
  induction fuel generalizing p with
  | zero => cases ok
  | succ fuel ih =>
      obtain ⟨next, q, round, rest⟩ := bind_eq_ok ok
      have fine (st : Status) : next ≠ .failed st := by
        rintro rfl
        cases rest
      obtain ⟨run', cursor, more, falls⟩ := run.round empty fresh clean round fine
      have fits' := Thrifty.incRound positive fits round
      have paying : Paying input limit delivered q := by
        have waiting : q.waiting = q.outBuf := by
          rw [Parser.waiting, cursor, List.drop_zero]
        refine ⟨run', ?_⟩
        rw [waiting]
        exact fits'
      cases next with
      | more =>
          obtain ⟨empty', clean'⟩ := more rfl
          exact ih run' fits' empty' cursor clean' rest
      | queued =>
          dsimp only at rest
          rw [get_bind_eq] at rest
          cases queue : q.outBuf with
          | nil =>
              rw [queue] at rest
              cases rest
              left
              rw [Option.toList_none, List.append_nil]
              exact paying
          | cons evt rest' =>
              rw [queue] at rest
              have isNext : q.outBuf[q.outCursor]? = some evt := by
                rw [cursor, queue]
                rfl
              exact .inl (paying.takeQueued isNext rest)
      | fallBack =>
          obtain ⟨_, r, fell, eager⟩ := bind_eq_ok rest
          cases fell
          exact .inr ((run'.handed fits' positive).next positive eager)
      | finished =>
          cases rest
          left
          rw [Option.toList_none, List.append_nil]
          exact paying
      | failed st => exact absurd rfl (fine st)

/-! ### Calls -/

/-- The parser after these events, in either mode. -/
def Spending (input : Bytes) (limit : Int) (delivered : List Event) (p : Parser) : Prop :=
  Paying input limit delivered p ∨ Handed limit delivered.length p

theorem Spending.next {fuel : Nat} {result : Option Event}
    (run : Spending input limit delivered p) (positive : 0 < limit)
    (ok : nextEvent fuel p = .ok result p') :
    Spending input limit (delivered ++ result.toList) p' := by
  rw [nextEvent, get_bind_eq] at ok
  rcases run with paying | handed
  · rw [if_neg (by rw [paying.run.incremental]; decide)] at ok
    cases isNext : p.outBuf[p.outCursor]? with
    | some evt =>
        simp only [isNext] at ok
        exact .inl (paying.takeQueued isNext ok)
    | none =>
        simp only [isNext] at ok
        split at ok
        · cases ok
          left
          rw [Option.toList_none, List.append_nil]
          exact paying
        split at ok
        · cases ok
        · rename_i fine
          have clean : p.scanError = .ok := by simpa using fine
          have none : p.waiting = [] :=
            List.drop_eq_nil_of_le (List.getElem?_eq_none_iff.mp isNext)
          have fits := paying.fits
          rw [none] at fits
          obtain ⟨_, q, stored, steps⟩ := bind_eq_ok ok
          cases stored
          rw [Spending, List.length_append]
          exact Paying.steps (paying.run.emptied none) (fits.same rfl id) positive rfl rfl clean
            steps
  · rw [handed.rests.eager] at ok
    right
    rw [List.length_append]
    exact handed.next positive ok

theorem Spending.new {o : Options} (limited : 0 < o.maxEvents) :
    Spending input o.maxEvents [] ((Parser.new input).configure o) := by
  have fits : ((Parser.new input).configure o).Fits o.maxEvents 0 := by
    refine ⟨rfl, rfl, Int.le_of_lt limited, Int.le_of_lt limited, fun some => absurd rfl some, ?_⟩
    exact ⟨PState.noConfusion, PState.noConfusion, fun _ member => by cases member⟩
  rcases AnyRun.new input o with run | ⟨_, _, _, _, _, _, run, _⟩
  · exact .inl ⟨run, fits⟩
  · exact .inr ⟨run.rests, fits, Int.le_of_lt limited, Nat.zero_le _,
      fun impossible => absurd impossible (Nat.lt_irrefl 0), rfl⟩

end

/-- With an event limit no run delivers more events than it allows. -/
theorem delivered_withinLimit {o : Options} {input : Bytes} {delivered : List Event} {p : Parser}
    (limited : 0 < o.maxEvents)
    (calls : Succeeding ((Parser.new input).configure o) delivered p) :
    (delivered.length : Int) ≤ o.maxEvents := by
  have run : Spending input o.maxEvents delivered p := by
    induction calls with
    | start => exact .new limited
    | event _ ok run => exact run.next limited ok
    | noEvent _ ok run =>
        have next := run.next limited ok
        rw [Option.toList_none, List.append_nil] at next
        exact next
  rcases run with paying | handed
  · have queued := paying.fits.queued
    have count : p.eventsDelivered = delivered.length := paying.run.faithful.count
    change ((p.eventsDelivered + p.waiting.length : Nat) : Int) ≤ o.maxEvents at queued
    omega
  · exact handed.within

/-- `a` -/
theorem delivered_withinLimit_scalar :
    ∃ delivered p, Succeeding ((Parser.new [97]).configure { maxEvents := 5 }) delivered p ∧
      .streamEnd ∈ delivered.map (·.type) ∧ (delivered.length : Int) ≤ 5 := by
  obtain ⟨delivered, p, calls, ended⟩ := exists_succeeding 8
    ((Parser.new [97]).configure { maxEvents := 5 }) 5
    (fun delivered _ => .streamEnd ∈ delivered.map (·.type)) (by decide +kernel)
  exact ⟨delivered, p, calls, ended, delivered_withinLimit (by decide) calls⟩

end Oyl
