import Oyl.Events.StepPlaces

/-!
# Steps of the incremental parser

From where the parser stands, the events that a step queues lead to where it
stands after the step.  There is one lemma for each function of the state machine.
-/

namespace Oyl

open StateError

section

variable {first : Origin} {place place' : Place} {n : Nat} {v : Stance} {p q : Parser} {α : Type}

/-! ### Shared steps -/

/-- Parse a node in a flow collection and return to `next`. -/
theorem incFlowNode_lands {next : PState} (awaits : v.Awaits next place) :
    Lands first n v place (incFlowNode next) :=
  .here (at_update { v with nodeReturn := next, state := .flowNode }
    fun _ stance => ⟨rfl, stance ▸ rfl⟩) awaits

theorem incFlowNodeOrEmpty_lands {next : PState} (ends : List TokenType) (room : n < 8)
    (awaits : v.Awaits next place) : Lands first n v place (incFlowNodeOrEmpty ends next) := by
  obtain ⟨place', filled, stands⟩ := awaits.completed
  exact .quiet calm_peekTypeQuiet fun tt => .ite (.emitEmpty room filled (.state stands))
    (incFlowNode_lands awaits)

theorem incBlockNode_lands {next : PState} (awaits : v.Awaits next place) :
    Lands first n v place (incBlockNode next) :=
  .here (at_update { v with nodeReturn := next, state := .blockNode }
    fun _ stance => ⟨rfl, stance ▸ rfl⟩) awaits

theorem incFlowSep_lands (inSeq : Bool)
    (inside : v.Inside (if inSeq then .flowSeqSep else .flowMapSep) place) :
    Lands first n v place (incFlowSep inSeq) := by
  refine .quiet calm_peekType fun tt => ?_
  cases inSeq with
  | true =>
      exact .ite (.quiet calm_consume fun _ => .state inside) (.ite (.state inside) (.state inside))
  | false =>
      exact .ite (.quiet calm_consume fun _ => .state inside) (.ite (.state inside) (.state inside))

/-! ### Flow states -/

theorem incOpenFlow_lands (isMap : Bool) (awaits : v.Awaits v.nodeReturn place) :
    Lands first 0 v place (incOpenFlow isMap) := by
  refine .read fun p stance => .attach _ fun evt type => .quiet calm_consume fun _ => ?_
  have returns : p.nodeReturn = v.nodeReturn := by
    rw [← stance]
    rfl
  cases isMap with
  | true =>
      obtain ⟨below, filled, opened⟩ :=
        awaits.opens ⟨.flowMap, p.tokCol, p.nodeReturn⟩ returns [.key]
      refine .emit (by omega) type filled (.push ?_)
      exact opened.inside .flowMapSep rfl
  | false =>
      obtain ⟨below, filled, opened⟩ :=
        awaits.opens ⟨.flowSeq, p.tokCol, p.nodeReturn⟩ returns [.items]
      refine .emit (by omega) type filled (.push ?_)
      exact opened.inside .flowSeqSep rfl

theorem stepFlowNode_lands (awaits : v.Awaits v.nodeReturn place) :
    Lands first 0 v place stepFlowNode := by
  obtain ⟨place', filled, stands⟩ := awaits.completed
  refine .quiet calm_peekTypeQuiet fun tt =>
    .optional calm_props.consumeProps calm_peekQuiet (.read fun p stance => ?_)
  split
  · exact .scalarToken (by omega) filled (.returnNode stands)
  · exact .read fun p _ => .attach _ fun evt type => .quiet calm_consume fun _ =>
      .emit (by omega) type filled (.returnNode stands)
  · exact incOpenFlow_lands false awaits
  · exact incOpenFlow_lands true awaits
  · exact .read fun p _ => .attach _ fun evt type =>
      .emit (by omega) type filled (.returnNode stands)

/-- Close a flow collection whose construct is the innermost. -/
theorem incCloseFlow_lands {type : CtxType} {evtType : EventType} {below : List Cell}
    {cell : Cell} (opened : v.Opened type below)
    (closes : (Place.inside (cell :: below)).feed evtType = some (.inside below)) :
    Lands first 0 v (.inside (cell :: below)) (incCloseFlow evtType) := by
  obtain ⟨frame, frames, top, _, after⟩ := opened
  refine .read fun p _ => .quiet calm_consume fun _ => .emit (by omega) rfl closes (.pop top ?_)
  have inside : Stance.Inside { v with frames := frames } frame.returnState (.inside below) :=
    ⟨below, after, rfl⟩
  refine .bind (at_setState frame.returnState) fun _ => ?_
  split
  · rename_i isSep
    have same : frame.returnState = .flowSeqSep := by simpa using isSep
    rw [same] at inside ⊢
    exact incFlowSep_lands true inside
  split
  · rename_i isSep
    have same : frame.returnState = .flowMapSep := by simpa using isSep
    rw [same] at inside ⊢
    exact incFlowSep_lands false inside
  · exact fun _ here => here.settled inside.stands

theorem stepFlowSeqEnd_lands (inside : v.Inside .flowSeqSep place) :
    Lands first 0 v place (incCloseFlow .sequenceEnd) := by
  obtain ⟨below, opened, rfl⟩ := inside.opened rfl
  exact incCloseFlow_lands opened rfl

theorem stepFlowMapEnd_lands (inside : v.Inside .flowMapSep place) :
    Lands first 0 v place (incCloseFlow .mappingEnd) := by
  obtain ⟨below, opened, rfl⟩ := inside.opened rfl
  exact incCloseFlow_lands opened rfl

theorem incFlowMapValue_lands (room : n < 8) (inside : v.Inside .flowMapValue place) :
    Lands first n v place incFlowMapValue := by
  have awaits := inside.awaits .flowMapSep rfl rfl rfl
  obtain ⟨place', filled, stands⟩ := awaits.completed
  refine .quiet calm_peekType fun tt => .ite ?_ (.ite ?_ (incFlowNode_lands awaits))
  · exact .scalarToken room filled (incFlowSep_lands false stands)
  · exact .emitEmpty room filled (.state stands)

theorem stepFlowMapLoop_lands (inside : v.Inside .flowMapSep place) :
    Lands first 0 v place stepFlowMapLoop := by
  have awaits := inside.awaits .flowMapValue rfl rfl rfl
  obtain ⟨place', filled, stands⟩ := awaits.completed
  refine .quiet calm_checkOom fun _ => .quiet calm_peekTypeQuiet fun tt => ?_
  split
  · exact .state inside
  · exact .error _
  · exact .quiet calm_consume fun _ => incFlowNodeOrEmpty_lands _ (by omega) awaits
  · exact .scalarToken (by omega) filled (.bind (at_setState .flowMapValue) fun _ =>
      Lands.quiet calm_peekType fun tt => .ite
        (.quiet calm_consume fun _ => incFlowMapValue_lands (by omega) stands) (.done stands))
  · exact incFlowNode_lands awaits

theorem stepFlowMapValue_lands (inside : v.Inside .flowMapValue place) :
    Lands first 0 v place stepFlowMapValue := by
  obtain ⟨place', filled, stands⟩ :=
    (inside.awaits .flowMapSep rfl rfl rfl).completed
  exact .quiet calm_peekTypeQuiet fun tt => .ite
    (.quiet calm_consume fun _ => incFlowMapValue_lands (by omega) inside)
    (.emitEmpty (by omega) filled (.state stands))

/-- `ST_FLOW_SEQ_SEP` and `ST_FLOW_MAP_SEP` -/
theorem stepFlowSep_lands (close : TokenType) {loop : PState} (msg : String)
    (stands : Stance.Stands { v with state := loop } place) :
    Lands first 0 v place (stepFlowSep close loop msg) :=
  .quiet calm_peekTypeQuiet fun _ => .ite (.quiet calm_consume fun _ => .state stands)
    (.ite (.state stands) (.error _))

/-- One more item of a flow sequence. -/
theorem flowSeq_filled (inside : v.Inside .flowSeqSep place) :
    ∃ next, place.fill [] = some next ∧ v.Inside .flowSeqSep next :=
  (inside.awaits .flowSeqSep rfl rfl rfl).completed

theorem stepFlowSeqEntry_lands (inside : v.Inside .flowSeqSep place) :
    Lands first 0 v place stepFlowSeqEntry := by
  obtain ⟨place', filled, stands⟩ := flowSeq_filled inside
  refine .quiet calm_peekQuiet fun _ => .read fun p _ => .attach _ fun evt type =>
    .quiet calm_consume fun _ => .quiet calm_peekTypeQuiet fun tt => .ite ?_ ?_
  · refine .here (at_update { v with saved := evt.type, state := .flowSeqEntryKey }
      fun _ stance => ⟨rfl, stance ▸ rfl⟩) ⟨inside, ?_⟩
    rw [Stance.HasLeaf, type]
    change (if p.tokType == .scalar then EventType.scalar else .alias) = _ ∨ _
    split
    · exact .inl rfl
    · exact .inr rfl
  · refine .emit (by omega) rfl ?_ (incFlowSep_lands true stands)
    rw [type]
    change place.feed (if p.tokType == .scalar then EventType.scalar else .alias) = _
    split <;> exact filled

/-- The value of a pair that has a key. -/
theorem incPairValue_lands (room : n < 8) (inside : v.Inside .flowSeqExplicitValue place) :
    Lands first n v place incPairValue :=
  incFlowNodeOrEmpty_lands _ room (inside.awaits _ rfl rfl rfl)

/-- A pair in a flow sequence begins. -/
theorem flowPair_opens (below : List Cell) :
    (Place.inside ([.items] ++ below)).feed .mappingStart =
      some (.inside ([.key, .items] ++ below)) := rfl

/-- A pair in a flow sequence up to its key. -/
theorem incPairKey_leads (first : Origin) (key : Event)
    (leaf : key.type = .scalar ∨ key.type = .alias) (inside : v.Inside .flowSeqSep place) :
    ∃ next, v.Inside .flowSeqExplicitValue next ∧
      Triple (At first 0 v place) (incPairKey key) (fun _ => At first 2 v next)
        (fun _ => Viable first) := by
  obtain ⟨below, opened, rfl⟩ := inside.opened rfl
  refine ⟨_, opened.inside .flowSeqExplicitValue rfl,
    .bind (at_emit (by omega) (flowPair_opens below)) fun _ => at_emit (by omega) ?_⟩
  rcases leaf with type | type <;> rw [type] <;> rfl

theorem stepFlowSeqProps_lands (stands : v.Stands place) (inside : v.Inside .flowSeqSep place) :
    Lands first 0 v place stepFlowSeqProps := by
  obtain ⟨place', filled, after⟩ := flowSeq_filled inside
  refine .quiet calm_props.consumeProps fun _ => .quiet calm_peekType fun tt =>
    .ite ?_ (.ite (.error _) (.done stands))
  exact .read fun p _ => .attach _ fun evt type =>
    .emit (by omega) type filled (incFlowSep_lands true after)

/-- Whether the flow collection at the current token is a key. -/
theorem isBlockKey_lands (next : Bool → ParseM Unit)
    (ofNext : ∀ isKey, Lands first n v place (next isKey)) :
    Lands first n v place (do
      let p ← get
      let (isKey, p) := p.flowIsBlockKey p.current.start.offset
      set p
      next isKey) :=
  fun p here => ofNext _ _ (here.calm (calm_covering p _))

theorem stepFlowSeqLoop_lands (state : v.state = .flowSeqLoop)
    (inside : v.Inside .flowSeqSep place) : Lands first 0 v place stepFlowSeqLoop := by
  have stands : v.Stands place := by
    rw [Stance.Stands, state]
    exact inside
  have awaits := inside.awaits .flowSeqSep rfl rfl rfl
  have entry : Lands first 0 v place (do
      setState .flowSeqEntry
      stepFlowSeqEntry) :=
    .bind (at_setState .flowSeqEntry) fun _ => stepFlowSeqEntry_lands inside
  have flow : Lands first 0 v place _ := isBlockKey_lands
    (fun isKey => if isKey then setState .eagerDrain else incFlowNode .flowSeqSep)
    fun isKey => .ite (.state trivial) (incFlowNode_lands awaits)
  refine .quiet calm_checkOom fun _ => .quiet calm_peekTypeQuiet fun tt => ?_
  split
  · exact .state inside
  · exact .read fun p _ => .ite (.error _) (.state inside)
  · exact entry
  · exact entry
  · exact flow
  · exact flow
  · refine .read fun p _ => .attach _ fun key type => ?_
    obtain ⟨next, after, leads⟩ := incPairKey_leads first key (.inl type) inside
    exact .bind leads fun _ => Lands.quiet calm_consume fun _ =>
      incPairValue_lands (by omega) after
  · exact stepFlowSeqProps_lands stands inside
  · exact stepFlowSeqProps_lands stands inside
  · exact .error _
  · exact .error _

theorem stepFlowSeqEntryKey_lands (leaf : v.HasLeaf) (inside : v.Inside .flowSeqSep place) :
    Lands first 0 v place stepFlowSeqEntryKey := by
  refine .read fun p stance => ?_
  have isLeaf : p.savedNode.type = .scalar ∨ p.savedNode.type = .alias := by
    rw [← stance] at leaf
    exact leaf
  obtain ⟨next, after, leads⟩ := incPairKey_leads first p.savedNode isLeaf inside
  exact .bind leads fun _ => Lands.update v (fun _ stance => ⟨rfl, stance⟩)
    (incPairValue_lands (by omega) after)

/-- The end of a pair that has a value. -/
theorem stepFlowPairEnd_lands {state : PState} (inside : v.Inside state place)
    (here : state.collection = some (.flowSeq, [.key, .items])) :
    Lands first 0 v place stepFlowPairEnd := by
  obtain ⟨below, opened, rfl⟩ := inside.opened here
  have fed : (Place.inside ([.key, .items] ++ below)).feed .mappingEnd =
      some (.inside ([.items] ++ below)) := rfl
  have after := opened.inside .flowSeqSep rfl
  exact .quiet calm_peekQuiet fun _ => .read fun p _ => .emit (by omega) rfl fed (.state after)

theorem stepFlowSeqExplicitKey_lands (inside : v.Inside .flowSeqSep place) :
    Lands first 0 v place stepFlowSeqExplicitKey := by
  obtain ⟨below, opened, rfl⟩ := inside.opened rfl
  have pair := opened.inside .flowSeqImplicitEnd rfl
  exact .read fun p _ => .emit (by omega) rfl (flowPair_opens below)
    (.quiet calm_consume fun _ =>
      incFlowNodeOrEmpty_lands _ (by omega) (pair.awaits _ rfl rfl rfl))

theorem stepFlowSeqExplicitValue_lands (inside : v.Inside .flowSeqExplicitValue place) :
    Lands first 0 v place stepFlowSeqExplicitValue := by
  have awaits := inside.awaits .flowSeqExplicitEnd rfl rfl rfl
  obtain ⟨place', filled, stands⟩ := awaits.completed
  exact .quiet calm_peekTypeQuiet fun tt => .ite
    (.quiet calm_consume fun _ => incFlowNodeOrEmpty_lands _ (by omega) awaits)
    (.emitEmpty (by omega) filled (.state stands))

theorem stepFlowSeqCheckColon_lands (inside : v.Inside .flowSeqSep place) :
    Lands first 0 v place stepFlowSeqCheckColon :=
  .quiet calm_peekTypeQuiet fun _ => .ite (.state trivial) (.state inside)

/-! ### Stream and document states -/

theorem stepStreamStart_lands (frames : v.frames = []) (shut : v.docOpen = false) :
    Lands first 0 v .start stepStreamStart :=
  .quiet calm_peekQuiet fun _ => .read fun p _ => .quiet calm_consume fun _ =>
    .emit (by omega) rfl rfl (.state ⟨frames, shut, rfl⟩)

theorem stepStreamDocLoop_lands (frames : v.frames = []) (shut : v.docOpen = false) :
    Lands first 0 v .between stepStreamDocLoop :=
  .quiet calm_peekTypeQuiet fun _ => .ite (.state ⟨frames, shut, rfl⟩)
    (.state ⟨frames, shut, rfl⟩)

theorem stepStreamEnd_lands : Lands first 0 v .between stepStreamEnd :=
  .quiet calm_peekQuiet fun _ => .read fun p _ => .quiet calm_consume fun _ =>
    .emit (by omega) rfl rfl (.here (at_update { v with state := .done }
      fun _ stance => ⟨rfl, stance ▸ rfl⟩) rfl)

theorem stepDocDirectives_lands (between : first.place = .between) (frames : v.frames = [])
    (shut : v.docOpen = false) :
    Lands first 0 v .between stepDocDirectives := by
  refine .quiet calm_peekTypeQuiet fun tt => .checkpoint between ?_
  split
  · exact .state trivial
  · exact .state ⟨frames, shut, rfl⟩
  · exact .quiet calm_consume fun _ => .state ⟨frames, shut, rfl⟩
  · exact .state ⟨frames, shut, rfl⟩
  · exact .state ⟨frames, shut, rfl⟩

theorem stepDocStart_lands (self : PState) (explicit : Bool) (frames : v.frames = [])
    (shut : v.docOpen = false) : Lands first 0 v .between (stepDocStart self explicit) := by
  have content {n : Nat} : Lands first n v (.inside [.document]) (modify fun p =>
      { p with docOpen := true, state := .docContent }) :=
    .here (at_update { v with docOpen := true, state := .docContent }
      fun _ stance => ⟨rfl, stance ▸ rfl⟩) ⟨frames, rfl⟩
  refine .read fun p stance => ?_
  have noDoc : p.docOpen = false := by
    rw [← stance] at shut
    exact shut
  rw [noDoc, if_neg (by simp), if_neg Bool.noConfusion]
  refine .quiet calm_peekQuiet fun _ => ?_
  cases explicit with
  | true =>
      refine of_get_set (J := Lands first 0 v .between) (fun p : Parser =>
        { p with docStartLine := p.current.start.line, haveToken := false }) _ ?_
      exact .read fun p _ => .update v (fun _ stance => ⟨rfl, stance⟩)
        (.emit (by omega) rfl rfl content)
  | false =>
      refine of_get_set (J := Lands first 0 v .between)
        (fun p : Parser => { p with docStartLine := 0 }) _ ?_
      exact .read fun p _ => .update v (fun _ stance => ⟨rfl, stance⟩)
        (.emit (by omega) rfl rfl content)

/-- What ends a document goes on between documents. -/
theorem endDocument_lands {state : PState} (frames : v.frames = [])
    (between : state = .streamDocLoop ∨ state = .streamEnd) :
    Lands first n v .between (modify fun p => { p with docOpen := false, state := state }) := by
  refine .here (at_update { v with docOpen := false, state := state }
    fun _ stance => ⟨rfl, stance ▸ rfl⟩) ?_
  rcases between with rfl | rfl <;> exact ⟨frames, rfl, rfl⟩

theorem Stance.Inside.closed (inside : v.Inside .docEndExplicit place) :
    v.frames = [] ∧ place = .inside [.closed] := by
  obtain ⟨cells, isAfter, rfl⟩ := inside
  cases frames : v.frames with
  | nil =>
      rw [frames] at isAfter
      cases isAfter
      exact ⟨rfl, rfl⟩
  | cons frame rest =>
      rw [frames, cellsAfter] at isAfter
      obtain ⟨_, _, impossible⟩ := Option.bind_eq_some_iff.mp isAfter
      cases impossible

theorem incEndDocument_lands (room : n < 8) (inside : v.Inside .docEndExplicit place) :
    Lands first n v place incEndDocument := by
  obtain ⟨frames, rfl⟩ := inside.closed
  have rest (isEnd : Bool) : Lands first n v (.inside [.closed]) (do
      let p ← get
      incEmit (if isEnd then p.tokenEvent .docEnd else p.implicitDocEnd)
      modify fun p => { p with docOpen := false, state := .streamDocLoop }) := by
    refine .read fun p _ => ?_
    have type : (if isEnd then p.tokenEvent .docEnd else p.implicitDocEnd).type = .docEnd := by
      cases isEnd <;> rfl
    exact .emit room type rfl (endDocument_lands frames (.inl rfl))
  exact .quiet calm_peekType fun tt => .ite (.error _)
    (.ite (.quiet calm_consume fun _ => rest _) (rest _))

theorem incEmptyDocument_lands {next : PState} (frames : v.frames = [])
    (between : next = .streamDocLoop ∨ next = .streamEnd) :
    Lands first 0 v (.inside [.document]) (incEmptyDocument next) :=
  .emitEmpty (by omega) rfl (.read fun p _ =>
    .emit (by omega) rfl rfl (endDocument_lands frames between))

theorem stepDocContent_lands (frames : v.frames = []) :
    Lands first 0 v (.inside [.document]) stepDocContent := by
  have closed : cellsAfter .docEndExplicit v.frames = some [.closed] := by
    rw [frames]
    rfl
  refine .quiet calm_peekTypeQuiet fun tt => ?_
  split
  · exact .emitEmpty (by omega) rfl (.state ⟨_, closed, rfl⟩)
  · exact incEmptyDocument_lands frames (.inl rfl)
  · exact incEmptyDocument_lands frames (.inr rfl)
  · exact .here (at_update { v with nodeReturn := .docEndExplicit, state := .blockNode }
      fun _ stance => ⟨rfl, stance ▸ rfl⟩) ⟨_, closed, rfl⟩

/-! ### Block states -/

theorem stepBlockNodeFlow_lands (awaits : v.Awaits v.nodeReturn place) :
    Lands first 0 v place stepBlockNodeFlow := by
  have flow : Lands first 0 v place _ := isBlockKey_lands
    (fun isKey => setState (if isKey then .eagerDrain else .flowNode)) fun isKey => by
      cases isKey
      · exact .state awaits
      · exact .state trivial
  refine of_get_congr (J := Lands first 0 v place) (fun p =>
    if p.nodeReturn == .blockMapLoop && p.current.start.line == p.valueColonLine &&
        !p.valueColonStartsLine then setState .flowNode
    else do
      let p ← get
      let (isKey, p) := p.flowIsBlockKey p.current.start.offset
      set p
      setState (if isKey then .eagerDrain else .flowNode)) ?_ ?_
  · intro p
    split <;> rfl
  · exact .read fun p _ => .ite (.state awaits) flow

theorem stepBlockNode_lands (awaits : v.Awaits v.nodeReturn place) :
    Lands first 0 v place stepBlockNode := by
  refine .quiet calm_peekTypeQuiet fun tt => ?_
  split
  · exact .state trivial
  · exact .state trivial
  · exact .state awaits
  · exact .state awaits
  · exact .state awaits
  · exact .state awaits
  · exact stepBlockNodeFlow_lands awaits
  · exact stepBlockNodeFlow_lands awaits
  · exact .state awaits
  · exact .error _
  · exact .error _
  · exact .error _
  · exact .error _
  · exact .state awaits

/-- A scalar or an alias, as a node or saved as the first key of a mapping. -/
theorem stepBlockNodeLeaf_lands {type : EventType} {keyState : PState}
    (leaf : type = .scalar ∨ type = .alias) (awaits : v.Awaits v.nodeReturn place)
    (saves : ∀ w : Stance, w.Awaits w.nodeReturn place → w.HasLeaf →
      Stance.Stands { w with state := keyState } place) :
    Lands first 0 v place (stepBlockNodeLeaf type keyState) := by
  obtain ⟨place', filled, stands⟩ := awaits.completed
  have fed : place.feed type = some place' := by rcases leaf with rfl | rfl <;> exact filled
  refine .quiet calm_peekQuiet fun _ => .read fun p _ => .quiet calm_consume fun _ =>
    .quiet calm_peekQuiet fun _ => ?_
  refine of_get_congr (J := Lands first 0 v place) (fun q =>
    if q.tokType == .blockMapValue &&
        q.current.start.line == (p.nodeEvent type).start.line then
      modify fun q => { q with
        savedNode := p.nodeEvent type, savedNodeCol := p.tokCol, haveSavedNode := true,
        state := keyState }
    else do
      incEmit (p.nodeEvent type)
      returnNode) ?_ ?_
  · intro q
    simp only [run_ite]
    split <;> rfl
  · exact .read fun q _ => .ite
      (.here (at_update { v with state := keyState, saved := type }
        fun _ stance => ⟨rfl, stance ▸ rfl⟩) (saves { v with saved := type } awaits leaf))
      (.emit (by omega) rfl fed (.returnNode stands))

/-- A mapping with its first key. -/
theorem stepBlockNodeKey_lands (awaits : v.Awaits v.nodeReturn place) (leaf : v.HasLeaf) :
    Lands first 0 v place stepBlockNodeKey := by
  refine .read fun p stance => ?_
  subst stance
  obtain ⟨below, filled, opened⟩ :=
    awaits.opens ⟨.blockMap, p.savedNodeCol, p.nodeReturn⟩ rfl [.key]
  have fed : (Place.inside ([.key] ++ below)).feed p.savedNode.type =
      some (.inside ([.value] ++ below)) := by
    have isLeaf : p.savedNode.type = .scalar ∨ p.savedNode.type = .alias := leaf
    rcases isLeaf with type | type <;> rw [type] <;> rfl
  refine .emit (by omega) rfl filled (.emit (by omega) rfl fed
    (.update p.stance (fun _ stance => ⟨rfl, stance⟩) (.push ?_)))
  exact opened.inside .blockMapPostKey rfl

/-- `ST_BLOCK_NODE_SEQ` and `ST_BLOCK_NODE_EXPLICIT_KEY` -/
theorem incOpenBlock_lands {type : CtxType} {next : PState} {cell : Cell}
    (awaits : v.Awaits v.nodeReturn place) (here : next.collection = some (type, [cell]))
    (opens : ∀ place : Place, place.feed
      (if type == .blockSeq then .sequenceStart else .mappingStart) = place.fill [cell]) :
    Lands first 0 v place (incOpenBlock type next) := by
  refine .quiet calm_peekQuiet fun _ => .read fun p stance => ?_
  subst stance
  obtain ⟨below, filled, opened⟩ := awaits.opens ⟨type, p.tokCol, p.nodeReturn⟩ rfl [cell]
  exact .emit (by omega) rfl ((opens place).trans filled) (.push (opened.inside _ here).stands)

/-- What may be queued when a mapping cannot be opened. -/
def BareQueue (p : Parser) : Prop := p.queued = [] ∨ p.queued = [.mappingStart]

theorem incEmit_bare {evt : Event} (type : evt.type = .mappingStart) :
    Triple (fun p => p.outBuf = []) (incEmit evt) (fun _ => BareQueue) fun _ _ => True := by
  refine .modify fun p empty => ?_
  rw [BareQueue, Parser.queued]
  split
  · have same := (stopWith_tally p .limit "event limit exceeded").1
    simp only [Parser.tally, Prod.mk.injEq] at same
    rw [Parser.hitLimit, same.1, empty]
    exact .inl rfl
  · rw [if_pos (by rw [empty]; exact Nat.zero_lt_succ 7), empty]
    exact .inr (congrArg (fun t => [t]) type)

theorem incPushFrame_bare (type : CtxType) (indent : Int) (returnState : PState) :
    Triple BareQueue (incPushFrame type indent returnState) (fun _ => BareQueue)
      fun _ _ => True := by
  intro p bare
  obtain ⟨q, pushed, result⟩ := pushFrame_result type indent returnState p
  rw [pushed]
  rcases result with ⟨same, _⟩ | ⟨_, _, k, queue⟩
  · simp only [Parser.tally, Prod.mk.injEq] at same
    change q.queued = [] ∨ q.queued = [.mappingStart]
    rw [Parser.queued, same.1]
    exact bare
  · change q.queued = [] ∨ q.queued = [.mappingStart]
    rw [Parser.queued, queue, List.map_take]
    rcases bare with empty | only
    · exact .inl (by rw [Parser.queued] at empty; rw [empty, List.take_nil])
    · rw [Parser.queued] at only
      rw [only]
      cases k with
      | zero => exact .inl rfl
      | succ k => exact .inr (by rw [List.take_succ_cons, List.take_nil])

theorem incOpenBlock_bare (next : PState) :
    Triple (fun p => p.outBuf = []) (incOpenBlock .blockMap next) (fun _ => BareQueue)
      fun _ _ => True := by
  refine .bind (.of_respects calm_peekQuiet (fun p q empty calm => ?_)
    fun _ _ _ _ _ _ => trivial) fun _ => .getBind fun p empty => ?_
  · have same := calm.1
    simp only [Parser.tally, Prod.mk.injEq] at same
    exact same.1.trans empty
  · exact .bind (.requires (fun q same => same ▸ empty) (incEmit_bare rfl)) fun _ =>
      .bind (incPushFrame_bare _ _ _) fun _ => .modify fun _ bare => bare

/-- The parser may stop when it opens the mapping, and still queue the empty key. -/
theorem stepBlockNodeBareValue_lands (begins : first.place = place)
    (awaits : v.Awaits v.nodeReturn place) :
    Lands first 0 v place stepBlockNodeBareValue := by
  have opens : Triple (At first 0 v place) (incOpenBlock .blockMap .blockMapValue)
      (fun _ p => ∃ w mid next, Pushed first w mid p ∧ mid.feed .scalar = some next ∧
        w.Stands next) (fun _ => Viable first) := by
    refine .bind (at_calm calm_peekQuiet) fun _ => at_get fun p stance => ?_
    subst stance
    obtain ⟨below, filled, opened⟩ := awaits.opens ⟨.blockMap, p.tokCol, p.nodeReturn⟩ rfl [.key]
    refine .bind (at_emit (by omega) filled) fun _ => .bind (at_push _ _ _) fun _ =>
      .modify fun q pushed => ?_
    obtain ⟨cursor, last, leads, live⟩ := pushed
    refine ⟨{ p.stance with
        state := .blockMapValue, frames := ⟨.blockMap, p.tokCol, p.nodeReturn⟩ :: p.frames },
      .inside ([.key] ++ below), .inside ([.value] ++ below),
      ⟨cursor, last, leads, fun running => ?_⟩, rfl,
      opened.inside .blockMapPostKey rfl⟩
    obtain ⟨isLast, stance, marked⟩ := live running
    refine ⟨isLast, ?_, marked⟩
    change { q.stance with state := .blockMapValue } = _
    rw [stance]
    rfl
  have opened := opens.both (incOpenBlock_bare .blockMapValue)
  refine .bind (.requires (fun p here =>
    ⟨here, List.length_eq_zero_iff.mp (Nat.le_zero.mp here.few)⟩) opened) fun _ => ?_
  refine Triple.getBind fun p both => .modify fun q same => ?_
  subst same
  obtain ⟨⟨w, mid, next, ⟨cursor, last, leads, live⟩, fed, stands⟩, bare⟩ := both
  obtain ⟨cells, _, filled⟩ := awaits
  subst begins
  have mapping : first.place.feed .mappingStart = some (.inside ([.key] ++ cells)) :=
    Place.fill_opened filled [.key]
  -- an empty key may follow in any case
  have more : ∃ last', first.place.feedAll (q.queued ++ [.scalar]) = some last' := by
    rcases bare with none | only
    · rw [none, List.nil_append, Place.feedAll_singleton]
      exact ⟨_, filled⟩
    · rw [only]
      exact ⟨_, Place.feedAll_trans _ ((Place.feedAll_singleton _ _).trans mapping)
        ((Place.feedAll_singleton _ _).trans rfl)⟩
  have few : q.outBuf.length < 8 := by
    have length : q.queued.length = q.outBuf.length := List.length_map _
    rcases bare with none | only
    · rw [← length, none]
      exact Nat.zero_lt_succ 7
    · rw [← length, only]
      exact Nat.succ_lt_succ (Nat.zero_lt_succ 6)
  rw [if_pos few]
  split
  · have same := (stopWith_tally q .limit "event limit exceeded").1
    simp only [Parser.tally, Prod.mk.injEq] at same
    refine ⟨same.2.2.2.2.2.trans cursor, last, ?_, fun running => ?_⟩
    · rw [Parser.queued, Parser.hitLimit, same.1]
      exact leads
    · cases same.2.1.symm.trans running
  · obtain ⟨last', fedAll⟩ := more
    refine ⟨cursor, last', ?_, fun running => ?_⟩
    · rw [Parser.queued, List.map_append]
      exact fedAll
    · obtain ⟨isLast, stance, marked⟩ := live running
      rw [Place.feedAll_append, leads, Option.bind_some, Place.feedAll_singleton, isLast,
        fed] at fedAll
      cases fedAll
      refine ⟨?_, marked⟩
      change q.stance.Stands next
      rw [stance]
      exact stands

theorem stepBlockNodeEmpty_lands (awaits : v.Awaits v.nodeReturn place) :
    Lands first 0 v place stepBlockNodeEmpty := by
  obtain ⟨place', filled, stands⟩ := awaits.completed
  exact .quiet calm_peekQuiet fun _ => .read fun p _ =>
    .emit (by omega) rfl filled (.returnNode stands)

theorem stepBlockMapLoop_lands (inside : v.Inside .blockMapLoop place) :
    Lands first 0 v place stepBlockMapLoop := by
  obtain ⟨place', filled, stands⟩ :=
    (inside.awaits .blockMapPostKey rfl rfl rfl).completed
  exact .quiet calm_peekTypeQuiet fun tt => .read fun p _ => .ite (.state inside)
    (.ite (.state inside) (.ite (.emitEmpty (by omega) filled (.state stands))
      (.ite (.state trivial) (.state inside))))

theorem stepBlockMapExplicitKey_lands (inside : v.Inside .blockMapLoop place) :
    Lands first 0 v place stepBlockMapExplicitKey := by
  have awaits := inside.awaits .blockMapPostKey rfl rfl rfl
  obtain ⟨place', filled, stands⟩ := awaits.completed
  exact .quiet calm_peekQuiet fun _ => .quiet calm_consume fun _ => .quiet calm_peekQuiet fun _ =>
    .read fun p _ => .ite (.emitEmpty (by omega) filled (.state stands))
      (incBlockNode_lands awaits)

theorem stepBlockMapSimpleKey_lands (inside : v.Inside .blockMapLoop place) :
    Lands first 0 v place stepBlockMapSimpleKey := by
  obtain ⟨place', filled, stands⟩ :=
    (inside.awaits .blockMapPostKey rfl rfl rfl).completed
  refine .quiet calm_peekTypeQuiet fun tt => .ite ?_ (.state trivial)
  refine .read fun p _ => .quiet calm_consume fun _ => .quiet calm_peekTypeQuiet fun tt' =>
    .ite (.emit (by omega) rfl ?_ (.state stands)) (.state trivial)
  change place.feed (if tt == .scalar then EventType.scalar else .alias) = _
  split <;> exact filled

theorem stepBlockMapPostKey_lands (inside : v.Inside .blockMapPostKey place) :
    Lands first 0 v place stepBlockMapPostKey := by
  obtain ⟨place', filled, stands⟩ := (inside.awaits .blockMapLoop rfl rfl rfl).completed
  exact .quiet calm_peekQuiet fun _ => .read fun p _ => .ite (.state inside)
    (.ite (.error _) (.emitEmpty (by omega) filled (.state stands)))

theorem stepBlockMapValue_lands (inside : v.Inside .blockMapPostKey place) :
    Lands first 0 v place stepBlockMapValue := by
  have awaits := inside.awaits .blockMapLoop rfl rfl rfl
  obtain ⟨place', filled, stands⟩ := awaits.completed
  have empty : Lands first 0 v place (do
      incEmitEmpty
      setState .blockMapLoop) := .emitEmpty (by omega) filled (.state stands)
  refine .quiet calm_peekTypeQuiet fun tt => .ite empty (.read fun p _ =>
    .quiet calm_consume fun _ => .quiet calm_peekQuiet fun _ => ?_)
  exact .update v (fun _ stance => ⟨rfl, stance⟩)
    (.read fun q _ => .ite empty (incBlockNode_lands awaits))

/-- Close a block collection whose construct is the innermost. -/
theorem incCloseBlock_lands {type : CtxType} {evtType : EventType} {below : List Cell}
    {cell : Cell} (opened : v.Opened type below)
    (closes : (Place.inside (cell :: below)).feed evtType = some (.inside below)) :
    Lands first 0 v (.inside (cell :: below)) (incCloseBlock evtType) := by
  obtain ⟨frame, frames, top, _, after⟩ := opened
  refine .pop top (.quiet calm_peekQuiet fun _ => .read fun p _ => .emit (by omega) rfl closes ?_)
  have inside : Stance.Inside { v with frames := frames } frame.returnState (.inside below) :=
    ⟨below, after, rfl⟩
  refine .bind (at_setState frame.returnState) fun _ => ?_
  split
  · rename_i isEnd
    have same : frame.returnState = .docEndExplicit := by simpa using isEnd
    rw [same] at inside ⊢
    exact incEndDocument_lands (by omega) inside
  · exact Lands.done inside.stands

theorem stepBlockMapEnd_lands (inside : v.Inside .blockMapLoop place) :
    Lands first 0 v place (incCloseBlock .mappingEnd) := by
  obtain ⟨below, opened, rfl⟩ := inside.opened rfl
  exact incCloseBlock_lands opened rfl

theorem stepBlockSeqEnd_lands (inside : v.Inside .blockSeqLoop place) :
    Lands first 0 v place (incCloseBlock .sequenceEnd) := by
  obtain ⟨below, opened, rfl⟩ := inside.opened rfl
  exact incCloseBlock_lands opened rfl

theorem stepBlockSeqLoop_lands (inside : v.Inside .blockSeqLoop place) :
    Lands first 0 v place stepBlockSeqLoop :=
  .quiet calm_peekQuiet fun _ => .read fun _ _ => .ite (.state inside) (.state inside)

theorem stepBlockSeqEntry_lands (inside : v.Inside .blockSeqLoop place) :
    Lands first 0 v place stepBlockSeqEntry := by
  have awaits := inside.awaits .blockSeqLoop rfl rfl rfl
  obtain ⟨place', filled, stands⟩ := awaits.completed
  exact .quiet calm_peekQuiet fun _ => .quiet calm_consume fun _ => .quiet calm_peekQuiet fun _ =>
    .read fun p _ => .ite (.emitEmpty (by omega) filled (.state stands))
      (incBlockNode_lands awaits)

/-- `parser_step` -/
theorem parserStep_lands (begins : first.place = place) (stands : v.Stands place) :
    Lands first 0 v place parserStep := by
  refine .quiet calm_checkOom fun _ => .read fun p stance => ?_
  have isState : p.state = v.state := by
    rw [← stance]
    rfl
  rw [isState]
  clear isState stance
  obtain ⟨state, nodeReturn, frames, docOpen, saved⟩ := v
  cases state with
  | streamStart =>
      obtain ⟨frames, shut, rfl⟩ := stands
      exact stepStreamStart_lands frames shut
  | streamDocLoop =>
      obtain ⟨frames, shut, rfl⟩ := stands
      exact stepStreamDocLoop_lands frames shut
  | streamEnd =>
      obtain ⟨frames, shut, rfl⟩ := stands
      exact stepStreamEnd_lands
  | docDirectives =>
      obtain ⟨frames, shut, rfl⟩ := stands
      exact stepDocDirectives_lands begins frames shut
  | docStartExplicit =>
      obtain ⟨frames, shut, rfl⟩ := stands
      exact stepDocStart_lands _ true frames shut
  | docStartImplicit =>
      obtain ⟨frames, shut, rfl⟩ := stands
      exact stepDocStart_lands _ false frames shut
  | docEndExplicit => exact incEndDocument_lands (by omega) stands
  | docContent =>
      obtain ⟨frames, rfl⟩ := stands
      exact stepDocContent_lands frames
  | blockNode => exact stepBlockNode_lands stands
  | blockNodeScalar => exact stepBlockNodeLeaf_lands (.inl rfl) stands fun _ => And.intro
  | blockNodeScalarKey =>
      obtain ⟨awaits, leaf⟩ := stands
      exact stepBlockNodeKey_lands awaits leaf
  | blockNodeAlias => exact stepBlockNodeLeaf_lands (.inr rfl) stands fun _ => And.intro
  | blockNodeAliasKey =>
      obtain ⟨awaits, leaf⟩ := stands
      exact stepBlockNodeKey_lands awaits leaf
  | blockNodeSeq => exact incOpenBlock_lands stands rfl fun _ => rfl
  | blockNodeExplicitKey => exact incOpenBlock_lands stands rfl fun _ => rfl
  | blockNodeBareValue => exact stepBlockNodeBareValue_lands begins stands
  | blockNodeEmpty => exact stepBlockNodeEmpty_lands stands
  | blockMapLoop => exact stepBlockMapLoop_lands stands
  | blockMapExplicitKey => exact stepBlockMapExplicitKey_lands stands
  | blockMapSimpleKey => exact stepBlockMapSimpleKey_lands stands
  | blockMapPostKey => exact stepBlockMapPostKey_lands stands
  | blockMapValue => exact stepBlockMapValue_lands stands
  | blockMapValueNode => exact .state stands
  | blockMapEnd => exact stepBlockMapEnd_lands stands
  | blockSeqLoop => exact stepBlockSeqLoop_lands stands
  | blockSeqEntry => exact stepBlockSeqEntry_lands stands
  | blockSeqEntryNode => exact .state stands
  | blockSeqEnd => exact stepBlockSeqEnd_lands stands
  | unroll => exact False.elim stands
  | flowSeqLoop => exact stepFlowSeqLoop_lands rfl stands
  | flowSeqEntry => exact stepFlowSeqEntry_lands stands
  | flowSeqEntryKey =>
      obtain ⟨inside, leaf⟩ := stands
      exact stepFlowSeqEntryKey_lands leaf inside
  | flowSeqImplicitEnd => exact stepFlowPairEnd_lands stands rfl
  | flowSeqExplicitKey => exact stepFlowSeqExplicitKey_lands stands
  | flowSeqExplicitValue => exact stepFlowSeqExplicitValue_lands stands
  | flowSeqExplicitEnd => exact stepFlowPairEnd_lands stands rfl
  | flowSeqCheckColon => exact stepFlowSeqCheckColon_lands stands
  | flowSeqSep => exact stepFlowSep_lands _ _ stands
  | flowSeqEnd => exact stepFlowSeqEnd_lands stands
  | flowMapLoop => exact stepFlowMapLoop_lands stands
  | flowMapValue => exact stepFlowMapValue_lands stands
  | flowMapSep => exact stepFlowSep_lands _ _ stands
  | flowMapEnd => exact stepFlowMapEnd_lands stands
  | flowNode => exact stepFlowNode_lands stands
  | eagerDrain => exact .done trivial
  | done => exact .done stands

end

end Oyl
