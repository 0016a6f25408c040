import Oyl.Events.EagerFlow
import Oyl.Parser.Driver

/-!
# A schema fills in missing tags

With a schema the eager parser does what it does without one, and every event that
has no tag of its own carries the one that the schema gives it.
-/

namespace Oyl

open StateError

/-- `evt` with the schema's tag, if it has none of its own. -/
def Schema.fill (schema : Schema) (evt : Event) : Event :=
  match evt.tag with
  | some _ => evt
  | none =>
      { evt with
        tag := match evt.type with
          | .scalar => schemaResolve schema evt.value evt.scalarStyle
          | .mappingStart => schema.defaultMapTag
          | .sequenceStart => schema.defaultSeqTag
          | _ => none }

/-- The state of the parser, had the schema been set. -/
def Parser.withSchema (schema : Schema) (p : Parser) : Parser :=
  { p with schema := some schema, events := p.events.map schema.fill }

/-- An eager parser without a schema that expands nothing. -/
structure Parser.Plain (p : Parser) : Prop where
  schema : p.schema = none
  tagged : p.Tagged
  incremental : p.incremental = false
  mergeEnabled : p.mergeEnabled = false
  resolveEnabled : p.resolveEnabled = false

/-- A collection that gives its properties to the mapping around it. -/
def Event.withoutProps (collStart : Mark) (schema : Option Schema) (coll : Event) : Event :=
  { coll with
    anchor := none
    tag := match schema with
      | none => none
      | some schema =>
          if coll.type == .mappingStart then schema.defaultMapTag else schema.defaultSeqTag
    start := collStart }

theorem modify_map {α β : Type} {f : α → β} {g : α → α} {h : β → β} {idx : Nat} {list : List α}
    (same : ∀ a ∈ list[idx]?, h (f a) = f (g a)) :
    (list.map f).modify idx h = (list.modify idx g).map f := by
  apply List.ext_getElem?
  intro i
  rw [List.getElem?_modify, List.getElem?_map, List.getElem?_map, List.getElem?_modify]
  cases here : list[i]? with
  | none => rfl
  | some a =>
      change some (if idx = i then h (f a) else f a) = some (f (if idx = i then g a else a))
      by_cases at_idx : idx = i
      · rw [if_pos at_idx, if_pos at_idx]
        exact congrArg some (same a (at_idx ▸ here))
      · rw [if_neg at_idx, if_neg at_idx]

/-- With the schema `x` does what it does without. -/
abbrev Fills (schema : Schema) {α : Type} (x : ParseM α) : Prop :=
  Commutes (Parser.withSchema schema) Parser.Plain x

namespace Schema

variable (schema : Schema)

theorem fill_type (evt : Event) : (schema.fill evt).type = evt.type := by
  rw [fill]
  split <;> rfl

theorem fill_start (evt : Event) : (schema.fill evt).start = evt.start := by
  rw [fill]
  split <;> rfl

theorem fill_stop (evt : Event) : (schema.fill evt).stop = evt.stop := by
  rw [fill]
  split <;> rfl

theorem getD_fill (events : List Event) (idx : Nat) :
    (events.map schema.fill).getD idx { type := .none } =
      schema.fill (events.getD idx { type := .none }) := by
  rw [List.getD_eq_getElem?_getD, List.getD_eq_getElem?_getD, List.getElem?_map]
  cases events[idx]? <;> rfl

theorem getLastD_fill (events : List Event) :
    (events.map schema.fill).getLastD { type := .none } =
      schema.fill (events.getLastD { type := .none }) := by
  rw [List.getLastD_eq_getLast?, List.getLastD_eq_getLast?, List.getLast?_map]
  cases events.getLast? <;> rfl

end Schema

namespace Parser

variable {schema : Schema} {p : Parser}

theorem withSchema_core : (p.withSchema schema).core = p.core := rfl

theorem withSchema_evtLen : (p.withSchema schema).evtLen = p.evtLen := List.length_map _

theorem withSchema_overLimit : (p.withSchema schema).overLimit = p.overLimit := by
  rw [overLimit, overLimit, withSchema_evtLen]
  rfl

theorem withSchema_stopWith (st : Status) (msg : String) :
    (p.withSchema schema).stopWith st msg = (p.stopWith st msg).withSchema schema := by
  have same : (p.withSchema schema).stopStatus = p.stopStatus := rfl
  rw [stopWith, stopWith, same]
  split <;> rfl

theorem withSchema_keyMapStart (idx : Nat) (flow : Bool) :
    (p.withSchema schema).keyMapStart idx flow = p.keyMapStart idx flow := by
  have same : ((p.withSchema schema).events.getD idx { type := .none }).start =
      (p.events.getD idx { type := .none }).start := by
    rw [withSchema, schema.getD_fill, schema.fill_start]
  rw [keyMapStart, keyMapStart, same]

/-- The tag of a stored event is filled in when the event is stored. -/
theorem withSchema_schemaTag (plain : p.schema = none) (evt : Event) :
    { evt with tag := (p.withSchema schema).schemaTag evt } =
      schema.fill { evt with tag := p.schemaTag evt } := by
  have none : p.schemaTag evt = evt.tag := by rw [schemaTag, plain]
  rw [none, Schema.fill, schemaTag, withSchema]
  cases tag : evt.tag with
  | some t => rfl
  | none => cases evt.type <;> rfl

theorem Plain.stopWith (plain : p.Plain) (st : Status) (msg : String) : (p.stopWith st msg).Plain := by
  rw [Parser.stopWith]
  split <;> exact ⟨plain.1, plain.2, plain.3, plain.4, plain.5⟩

end Parser

namespace Fills

variable {schema : Schema} {α : Type}

theorem error (msg : String) : Fills schema (parseError msg : ParseM α) :=
  .bind (.modify (fun _ _ => rfl) fun _ plain => ⟨plain.1, plain.2, plain.3, plain.4, plain.5⟩)
    fun _ => .throw _

theorem read (f : Parser → ParseM α) (blind : ∀ p, f p.core = f p)
    (rest : ∀ p, Fills schema (f p)) : Fills schema (get >>= f) := by
  refine .getBind (fun p _ => ?_) fun p plain => rest p p plain
  calc f (p.withSchema schema)
      = f (p.withSchema schema).core := (blind _).symm
    _ = f p.core := by rw [Parser.withSchema_core]
    _ = f p := blind p

theorem peek : Fills schema peekToken := by
  intro p plain
  rw [CommutesAt, after, peekToken, get_bind_eq, get_bind_eq]
  have held : (p.withSchema schema).haveToken = p.haveToken := rfl
  have scanner : (p.withSchema schema).scanner = p.scanner := rfl
  rw [held, scanner]
  split
  · exact ⟨rfl, plain⟩
  cases scanToken p.scanner with
  | ok tok scanner => exact ⟨rfl, plain.1, plain.2, plain.3, plain.4, plain.5⟩
  | error st scanner =>
      dsimp only
      split <;> exact ⟨rfl, plain.1, plain.2, plain.3, plain.4, plain.5⟩

/-- An update of the pending properties. -/
theorem write {u : Parser → Parser} (write : PropsWrite u)
    (tagged : ∀ p : Parser, p.Tagged → (u p).Tagged) : Fills schema (modify u) := by
  refine .modify (fun p _ => ?_) fun p plain => ?_
  · rw [write.output p, write.output (p.withSchema schema)]
    rfl
  · refine ⟨?_, tagged p plain.tagged, ?_, ?_, ?_⟩
    all_goals rw [write.props p]
    · exact plain.schema
    · exact plain.incremental
    · exact plain.mergeEnabled
    · exact plain.resolveEnabled

theorem enqueue (evt : Event) : Fills schema (enqueue evt) := by
  intro p plain
  rw [CommutesAt, after, Oyl.enqueue, get_bind_eq, get_bind_eq, Parser.withSchema_overLimit]
  split
  · refine ⟨?_, plain.stopWith _ _⟩
    rw [Parser.hitLimit, Parser.withSchema_stopWith]
    rfl
  · refine ⟨?_, plain.1, plain.2, plain.3, plain.4, plain.5⟩
    rw [Parser.withSchema_schemaTag plain.schema]
    change EStateM.Result.ok true _ = EStateM.Result.ok true _
    refine congrArg _ ?_
    rw [Parser.withSchema, Parser.withSchema, List.map_append]
    rfl

theorem enqueue' (evt : Event) : Fills schema (enqueue' evt) := .discard (enqueue evt)

theorem insertOrStop (idx : Nat) (evt : Event) : Fills schema (insertOrStop idx evt) := by
  refine .bind (.bind (enqueue evt) fun stored => ?_) fun stored => ?_
  · split
    · exact .pure _
    · refine .bind (.modify (fun p _ => ?_) fun p plain =>
        ⟨plain.1, plain.2, plain.3, plain.4, plain.5⟩) fun _ => .pure _
      have order : (p.events.map schema.fill).dropLast.take idx ++
          (p.events.map schema.fill).getLast?.toList ++
          (p.events.map schema.fill).dropLast.drop idx =
          (p.events.dropLast.take idx ++ p.events.getLast?.toList ++
            p.events.dropLast.drop idx).map schema.fill := by
        rw [List.map_append, List.map_append, List.map_take, List.map_drop, List.map_dropLast,
          List.getLast?_map]
        cases p.events.getLast? <;> rfl
      exact congrArg (fun events => { p with schema := some schema, events := events }) order
  · split
    · exact .getBind (fun _ _ => rfl) fun p plain => Commutes.throw _ p plain
    · exact .pure _

theorem stopWith (st : Status) (msg : String) : Fills schema (modify (·.stopWith st msg)) :=
  .modify (fun _ _ => Parser.withSchema_stopWith st msg) fun _ plain => plain.stopWith st msg

theorem push (type : CtxType) (indent : Int) : Fills schema (pushCtx type indent) := by
  intro p plain
  have line : (p.withSchema schema).docStartLine = p.docStartLine := rfl
  have token : (p.withSchema schema).current = p.current := rfl
  have depth : (p.withSchema schema).maxDepth = p.maxDepth := rfl
  have contexts : (p.withSchema schema).contexts = p.contexts := rfl
  rw [CommutesAt, after, pushCtx_run, pushCtx_run, line, token, depth, contexts]
  split
  · exact ⟨congrArg _ (Parser.withSchema_stopWith _ _), plain.stopWith _ _⟩
  split
  · exact ⟨congrArg _ (Parser.withSchema_stopWith _ _), plain.stopWith _ _⟩
  · exact ⟨rfl, plain.1, plain.2, plain.3, plain.4, plain.5⟩

theorem checkOom : Fills schema checkOom := by
  refine .getBind (fun _ _ => rfl) fun p plain => ?_
  split
  · exact Commutes.throw _ p plain
  · exact Commutes.pure _ p plain

theorem checkStop : Fills schema checkStop := by
  refine .bind checkOom fun _ => .getBind (fun p _ => ?_) fun p plain => ?_
  · rw [Parser.withSchema_overLimit]
  · split
    · exact Commutes.bind (stopWith _ _) (fun _ => .throw _) p plain
    · exact Commutes.pure _ p plain

theorem steps : NodeSteps (Fills schema) where
  toCompositional := Commutes.compositional
  error msg _ := error msg
  read := read
  peek := peek
  hold _ update := write update.toPropsWrite update.tagged
  checkOom := checkOom
  checkStop := checkStop
  store evt _ := enqueue' evt
  push := push
  pop := .modify (fun _ _ => rfl) fun _ plain => ⟨plain.1, plain.2, plain.3, plain.4, plain.5⟩

theorem back : PropsBack (Fills schema) Parser.Tagged where
  read f blind rest := by
    refine .getBind (fun p _ => ?_) fun p plain => rest p plain.tagged p plain
    rw [← blind, Parser.withSchema_core, blind]
  write q tagged u update same := write update fun p _ has => by
    rw [(same p).1] at has
    rw [(same p).2]
    exact tagged has

/-- What the events say besides their tags is read. -/
theorem readEvents {f : Parser → ParseM α} (same : ∀ p, f (p.withSchema schema) = f p)
    (rest : ∀ p, Fills schema (f p)) : Fills schema (get >>= f) :=
  .getBind (fun p _ => same p) fun p plain => rest p p plain

variable {r : Eager} (calls : r.All (Fills schema))

include calls

theorem flowSeqEntry : Fills schema (flowSeqEntry r) := by
  refine readEvents (fun p => ?_) fun p => .bind calls.flowNode fun _ =>
    .bind steps.peekType fun tt => ?_
  · rw [Parser.withSchema_evtLen]
  split
  · refine readEvents (fun q => ?_) fun q => ?_
    · rw [Parser.withSchema_evtLen, Parser.withSchema_keyMapStart]
    · split
      · exact .bind (insertOrStop _ _) fun _ => steps.flowPairRest calls
      · exact steps.flowPairRest calls
  · exact .pure _

omit calls in
/-- The outer properties go to a collection that is no key. -/
theorem giveOuter {outer : Parser} (tagged : outer.Tagged) (idx : Nat) :
    Fills schema (modify fun p =>
      { p.clearProps with events := p.events.modify idx outer.giveProps }) := by
  refine .modify (fun p _ => ?_) fun p plain =>
    ⟨plain.1, fun has => Bool.noConfusion has, plain.3, plain.4, plain.5⟩
  have given : (p.events.map schema.fill).modify idx outer.giveProps =
      (p.events.modify idx outer.giveProps).map schema.fill := by
    refine modify_map fun evt _ => ?_
    rw [Parser.giveProps, Parser.giveProps]
    cases has : outer.hasTag with
    | true =>
        obtain ⟨tag, isTag⟩ := Option.ne_none_iff_exists'.mp (tagged has)
        rw [isTag, Schema.fill, Schema.fill]
        cases evt.tag <;> rfl
    | false =>
        rw [Schema.fill, Schema.fill]
        cases isTag : evt.tag <;> simp only [isTag] <;> rfl
  exact congrArg (fun events => { p.clearProps with schema := some schema, events := events }) given

theorem innerFlow {outer : Parser} (tagged : outer.Tagged) (inner : Parser) (innerCol : Int)
    (innerLine : Nat) (isMap : Bool) :
    Fills schema (innerFlow r outer inner innerCol innerLine isMap) := by
  have rest (idx : Nat) (keyCol : Int) : Fills schema (do
      if (← Oyl.peekType) != .blockMapValue then
        if inner.propsConflict outer then
          parseError "a node cannot have two anchors or two tags"
        else
          modify fun p => { p.clearProps with events := p.events.modify idx outer.giveProps }
      else
        Oyl.insertOrStop idx
          { mapStartAt outer.propsStart with
            anchor := outer.pendingAnchor, tag := outer.pendingTag }
        pushCtx .blockMap keyCol
        Oyl.blockMappingRest r keyCol) := by
    refine .bind steps.peekType fun tt => ?_
    split
    · split
      · exact error _
      · exact giveOuter tagged idx
    · exact .bind (insertOrStop _ _) fun _ => .bind (push _ _) fun _ =>
        steps.blockMappingRest calls _
  refine of_get_set (J := Fills schema)
    (fun p : Parser => { p.clearProps with haveToken := false }) _ ?_
  refine readEvents (fun p => ?_) fun p => .bind (steps.hold _
    ⟨⟨fun _ => rfl, fun _ => rfl, fun _ held => Bool.noConfusion held⟩,
      fun _ _ has => Bool.noConfusion has⟩) fun _ => ?_
  · rw [Parser.withSchema_evtLen]
    rfl
  cases isMap with
  | true =>
      exact .bind (enqueue' _) fun _ => .bind (push _ _) fun _ =>
        .bind calls.flowMapping fun _ => rest _ _
  | false =>
      exact .bind (enqueue' _) fun _ => .bind (push _ _) fun _ =>
        .bind calls.flowSequence fun _ => rest _ _

omit calls in
/-- The event at `idx` starts a collection, which keeps the schema's tag of its own. -/
theorem movePropsToKeyMap {idx : Nat} {q : Parser} (plain : q.Plain)
    (starts : ∀ evt ∈ q.events[idx]?, evt.type = .mappingStart ∨ evt.type = .sequenceStart)
    (mapEvt : Event) (collStart : Mark) (anchor tag : Option Bytes) :
    CommutesAt (Parser.withSchema schema) Parser.Plain
      (movePropsToKeyMap idx mapEvt collStart anchor tag) q := by
  let keep := Event.withoutProps collStart
  have moved : (q.events.map schema.fill).modify idx (keep (some schema)) =
      (q.events.modify idx (keep none)).map schema.fill := by
    refine modify_map fun evt here => ?_
    have type := starts evt here
    have filled : keep (some schema) (schema.fill evt) = keep (some schema) evt := by
      dsimp only [keep]
      rw [Schema.fill]
      split <;> rfl
    rw [filled]
    rcases type with isMap | isSeq
    · dsimp only [keep, Event.withoutProps]
      rw [Schema.fill, isMap]
      rfl
    · dsimp only [keep, Event.withoutProps]
      rw [Schema.fill, isSeq]
      rfl
  have kept : keep q.schema = keep none := by rw [plain.schema]
  refine ⟨?_, plain.1, plain.2, plain.3, plain.4, plain.5⟩
  change EStateM.Result.ok _ { q with
      schema := some schema
      events := (q.events.map schema.fill).modify idx (keep (some schema)) } =
    EStateM.Result.ok _ { q with
      schema := some schema
      events := (q.events.modify idx (keep q.schema)).map schema.fill }
  rw [moved, kept]

end Fills

theorem openFlow_live (n : Nat) (isMap : Bool) : ReturnsLive (openFlow (eager n) isMap) := by
  have closes := eager_closes n
  refine .bind fun p => .bind fun _ => .bind fun _ => ?_
  cases isMap with
  | true => exact .bind fun _ => closes.flowMapping
  | false => exact .bind fun _ => closes.flowSequence

namespace Fills

variable {schema : Schema}

theorem blockFlow (n : Nat) (calls : (eager n).All (Fills schema)) (isMap : Bool) :
    Fills schema (blockFlow (eager n) isMap) := by
  refine .getBind (fun p _ => ?_) fun p plain =>
    (steps.openFlow calls isMap p plain).bind fun _ q opened => ?_
  · dsimp only
    rw [Parser.withSchema_evtLen]
    rfl
  have plainOpened := (steps.openFlow calls isMap p plain).2
  rw [after_ok opened] at plainOpened
  obtain ⟨start, more, type, events⟩ := openFlow_events (eager_writesFlow .value n) opened
    (openFlow_live n isMap p _ q opened) plain.incremental
  have peeks : Fills schema peekToken := peek
  refine (peeks q plainOpened).bind fun _ q' peeked => ?_
  have plainPeeked := (peeks q plainOpened).2
  rw [after_ok peeked] at plainPeeked
  obtain ⟨scanner, tok, update⟩ := peekToken_update peeked
  have starts (evt : Event) (here : evt ∈ q'.events[p.evtLen]?) :
      evt.type = .mappingStart ∨ evt.type = .sequenceStart := by
    have first : q'.events[p.evtLen]? = some start := by
      rw [update, events, Parser.evtLen, List.getElem?_append_right (Nat.le_refl _), Nat.sub_self]
      rfl
    rw [first] at here
    cases here
    rw [type]
    cases isMap
    · exact .inr rfl
    · exact .inl rfl
  refine .getBind ?_ ?_
  · have endLine : ((q'.withSchema schema).events.getLastD { type := .none }).stop =
        (q'.events.getLastD { type := .none }).stop := by
      rw [Parser.withSchema, schema.getLastD_fill, schema.fill_stop]
    dsimp only
    rw [endLine, Parser.withSchema_keyMapStart]
    rfl
  have rest (mapEvt : Event) (idx : Nat) (col : Int) : Fills schema (do
      Oyl.insertOrStop idx mapEvt
      pushCtx .blockMap col
      Oyl.blockMappingRest (eager n) col) :=
    .bind (insertOrStop _ _) fun _ => .bind (push _ _) fun _ => steps.blockMappingRest calls _
  dsimp only
  split
  · split
    · refine (movePropsToKeyMap plainPeeked starts _ _ _ _).bind fun mapEvt q'' moved => ?_
      cases moved
      exact rest _ _ _ _ ⟨plainPeeked.1, plainPeeked.2, plainPeeked.3, plainPeeked.4,
        plainPeeked.5⟩
    · exact rest _ _ _ q' plainPeeked
  · exact Commutes.pure _ q' plainPeeked

theorem documents : DocumentLogic (Fills schema) where
  toNodeSteps := steps
  flowSeqEntry _ := flowSeqEntry
  innerProps _ calls := steps.innerProps calls back fun _ inner innerCol innerLine isMap tagged =>
    innerFlow calls tagged inner innerCol innerLine isMap
  blockFlow := blockFlow
  fuel := .throw _
  update u neutral := by
    refine .modify (fun p _ => ?_) fun p plain => ?_
    · rw [neutral.output p, neutral.output (p.withSchema schema)]
      rfl
    · have mode := neutral.mode p
      have audit := (neutral.counts p).2
      have incremental : (u p).incremental = p.incremental := congrArg Audit.incremental audit
      have kept : (u p).schema = p.schema := by
        rw [neutral.output p]
        rfl
      simp only [Parser.mode, Prod.mk.injEq] at mode
      refine ⟨kept.trans plain.1, fun has => ?_, incremental.trans plain.3, mode.1.trans plain.4,
        mode.2.1.trans plain.5⟩
      rw [mode.2.2.2]
      exact plain.tagged (mode.2.2.1 ▸ has)
  boundary evt _ := enqueue' evt

/-- The next document of the stream. -/
theorem parseStream (n : Nat) : Fills schema (parseStream (eager n)) := by
  obtain ⟨calls, directives⟩ := documents.eager (J := Fills schema) n
  exact documents.parseStream calls directives enqueue'

/-! ### Delivering the events -/

theorem depthWithin_fill (maxDepth : Int) (events : List Event) (depth : Int) :
    depthWithin maxDepth depth (events.map schema.fill) = depthWithin maxDepth depth events := by
  induction events generalizing depth with
  | nil => rfl
  | cons evt rest ih =>
      rw [List.map_cons, depthWithin, depthWithin, schema.fill_type]
      cases evt.type <;> simp only [ih]

theorem checkEagerDepth : Fills schema checkEagerDepth := by
  intro p plain
  have within : depthWithin (p.withSchema schema).maxDepth 0 (p.withSchema schema).events =
      depthWithin p.maxDepth 0 p.events := depthWithin_fill _ _ _
  have depth : (p.withSchema schema).maxDepth = p.maxDepth := rfl
  rw [CommutesAt, after, Oyl.checkEagerDepth, get_bind_eq, get_bind_eq, within, depth]
  split
  · exact ⟨congrArg (EStateM.Result.error _) (Parser.withSchema_stopWith _ _), plain.stopWith _ _⟩
  · exact ⟨rfl, plain⟩

/-- Nothing is expanded. -/
theorem expandDocument : Fills schema expandDocument := by
  have depth (p : Parser) (merge : p.mergeEnabled = false) (resolve : p.resolveEnabled = false) :
      Oyl.expandDocument p = Oyl.checkEagerDepth p := by
    rw [Oyl.expandDocument, get_bind_eq, merge, resolve]
    rfl
  intro p plain
  rw [CommutesAt, after, depth p plain.mergeEnabled plain.resolveEnabled,
    depth (p.withSchema schema) plain.mergeEnabled plain.resolveEnabled]
  exact checkEagerDepth p plain

theorem foldl_fill (events : List Event) (sig : UInt64) :
    (events.map schema.fill).foldl sigStep sig = events.foldl sigStep sig := by
  rw [List.foldl_map]
  refine congrArg (fun step => events.foldl step sig) ?_
  funext sig evt
  rw [sigStep, schema.fill_type, sigStep]

theorem skipDelivered : Fills schema skipDelivered := by
  intro p plain
  have skips : (p.withSchema schema).skipN = p.skipN := rfl
  have sig : (p.withSchema schema).skipGot = p.skipGot := rfl
  have got : ((p.withSchema schema).events.take (min p.skipN p.evtLen)).foldl sigStep p.skipGot =
      (p.events.take (min p.skipN p.evtLen)).foldl sigStep p.skipGot := by
    rw [Parser.withSchema, ← List.map_take, foldl_fill]
  rw [CommutesAt, after, Oyl.skipDelivered, get_bind_eq, get_bind_eq, skips, sig,
    Parser.withSchema_evtLen, got]
  generalize (p.events.take (min p.skipN p.evtLen)).foldl sigStep p.skipGot = hash
  have apart : (p.withSchema schema).skipSig = p.skipSig ∧
      (p.withSchema schema).streamEnded = p.streamEnded := ⟨rfl, rfl⟩
  rw [run_bind, run_set, run_bind, run_set]
  dsimp only
  rw [apart.1, apart.2]
  split <;> exact ⟨rfl, plain.1, plain.2, plain.3, plain.4, plain.5⟩

theorem eagerRefill (n : Nat) : Fills schema (eagerRefill (eager n)) := by
  refine .bind (.modify (fun p _ => ?_) fun p plain =>
    ⟨plain.1, plain.2, plain.3, plain.4, plain.5⟩) fun _ => .bind (parseStream n) fun _ =>
      .bind expandDocument fun _ => .getBind (fun _ _ => rfl) fun p plain => ?_
  · rw [Parser.withSchema_evtLen]
    rfl
  · split
    · exact skipDelivered p plain
    · exact Commutes.pure _ p plain

end Fills

/-- The same result with the schema's tag in the event. -/
def Schema.fillResult (schema : Schema) :
    EStateM.Result Stop Parser (Option Event) → EStateM.Result Stop Parser (Option Event)
  | .ok evt p => .ok (evt.map schema.fill) (p.withSchema schema)
  | .error e p => .error e (p.withSchema schema)

theorem eagerNextEvent_fills (schema : Schema) (n fuel : Nat) {p : Parser} (plain : p.Plain) :
    eagerNextEvent (eager n) fuel (p.withSchema schema) =
        schema.fillResult (eagerNextEvent (eager n) fuel p) ∧
      (after (eagerNextEvent (eager n) fuel) p).Plain := by
  induction fuel generalizing p with
  | zero => exact ⟨rfl, plain⟩
  | succ fuel ih =>
      have found : (p.withSchema schema).events[(p.withSchema schema).evtCursor]? =
          p.events[p.evtCursor]?.map schema.fill := List.getElem?_map
      have ended : (p.withSchema schema).streamEnded = p.streamEnded := rfl
      rw [after, eagerNextEvent, get_bind_eq, get_bind_eq, found, ended]
      cases next : p.events[p.evtCursor]? with
      | some evt => exact ⟨rfl, plain.1, plain.2, plain.3, plain.4, plain.5⟩
      | none =>
          dsimp only [Option.map_none]
          split
          · exact ⟨rfl, plain⟩
          have refill : Fills schema (eagerRefill (eager n)) := Fills.eagerRefill n
          obtain ⟨image, kept⟩ := refill p plain
          cases refilled : eagerRefill (eager n) p with
          | ok a q =>
              rw [refilled] at image
              rw [after_ok refilled] at kept
              rw [run_bind_ok image, run_bind_ok refilled]
              exact ih kept
          | error e q =>
              rw [refilled] at image
              rw [after_error refilled] at kept
              rw [run_bind_error image, run_bind_error refilled]
              exact ⟨rfl, kept⟩

/-- What `n` calls of `oyl_parse_next` return, one after the other. -/
def outcomes (fuel : Nat) : Nat → Parser → List (Except Stop (Option Event))
  | 0, _ => []
  | n + 1, p =>
      match nextEvent fuel p with
      | .ok evt p => .ok evt :: outcomes fuel n p
      | .error e p => .error e :: outcomes fuel n p

theorem outcomes_fill (schema : Schema) (fuel n : Nat) {p : Parser} (plain : p.Plain) :
    outcomes fuel n (p.withSchema schema) =
      (outcomes fuel n p).map (Except.map (Option.map schema.fill)) := by
  induction n generalizing p with
  | zero => rfl
  | succ n ih =>
      have eager (q : Parser) (incremental : q.incremental = false) :
          nextEvent fuel q = eagerNextEvent (eager fuel) fuel q := by
        rw [nextEvent, get_bind_eq, incremental]
        rfl
      obtain ⟨image, kept⟩ := eagerNextEvent_fills schema fuel fuel plain
      rw [outcomes, outcomes, eager p plain.incremental,
        eager (p.withSchema schema) plain.incremental, image]
      rw [after] at kept
      cases result : eagerNextEvent (Oyl.eager fuel) fuel p with
      | ok evt q =>
          rw [result] at kept
          exact congrArg (Except.ok (evt.map schema.fill) :: ·) (ih kept)
      | error e q =>
          rw [result] at kept
          exact congrArg (Except.error e :: ·) (ih kept)

/-- Setting a schema only fills in the tags that the events of the eager parser lack. -/
theorem schema_fillsTags (schema : Schema) (input : Bytes) (maxEvents maxDepth : Int)
    (fuel n : Nat) :
    let o : Options := { maxEvents := maxEvents, maxDepth := maxDepth }
    outcomes fuel n ((Parser.new input).configure { o with schema := some schema }) =
      (outcomes fuel n { (Parser.new input).configure o with incremental := false }).map
        (Except.map (Option.map schema.fill)) := by
  intro o
  have plain : Parser.Plain { (Parser.new input).configure o with incremental := false } :=
    ⟨rfl, fun has => Bool.noConfusion has, rfl, rfl, rfl⟩
  exact outcomes_fill schema fuel n plain

/-- The tags that a schema gives to the nodes of `[true, x]`. -/
example :
    let tags (schema : Schema) := (outcomes 30 5
        ((Parser.new (ascii "[true, x]")).configure { schema := some schema })).map
      fun outcome => outcome.toOption.bind fun evt => evt.bind Event.tag
    tags schemaFailsafe = [none, none, some tagSeq, some tagStr, some tagStr] ∧
      tags schemaJson = [none, none, some tagSeq, some tagBool, some tagStr] := by
  decide +kernel

end Oyl
