import Oyl.Parser.Props

/-!
# The eager parser: nodes

The recursive-descent parser of `oyl_parser.c`.  The seven functions call each
other and loop without a bound that is visible in their arguments, so each is
written over a record `Eager` of the functions it may call; `eager n` ties the
knot for `n` nested calls and loop rounds, and stops with `Stop.fuel` beyond.
-/

namespace Oyl

/-- The mutually recursive functions of the eager parser.  A loop's next round
is a call of the function itself. -/
structure Eager where
  flowSequence : ParseM Unit
  flowMapping : ParseM Unit
  flowNode : ParseM Unit
  blockMapValue : Int → ParseM Unit
  blockMapping : Int → ParseM Unit
  blockSequence : Int → ParseM Unit
  blockNode : ParseM Unit
  directives : Bool → Bool → ParseM Bool

/-! ### Shared steps -/

/-- Consume the current token, a closing bracket, and close its collection. -/
def closeFlow (type : EventType) : ParseM Unit := do
  let p ← get
  consumeToken
  enqueue' (p.tokenEvent type)
  popCtx

/-- Close a block collection where the current token starts. -/
def closeBlock (type : EventType) : ParseM Unit := do
  enqueue' ((← get).pointEvent type)
  popCtx

/-- `if (!insert_event(...)) return OOM_STATUS(p)`. -/
def insertOrStop (idx : Nat) (evt : Event) : ParseM Unit := do
  if !(← insertEvent idx evt) then throwStatus (← get).oomStatus

/-- The start event of the mapping that the event at `idx` turned out to be a
key of. -/
def Parser.keyMapStart (p : Parser) (idx : Nat) (flow : Bool) : Event :=
  let start := (p.events.getD idx { type := .none }).start
  { type := .mappingStart, flow := flow, start := start, stop := start }

/-- An empty node if the next token is one of `ends`, else a flow node. -/
def flowNodeOrEmpty (r : Eager) (ends : List TokenType) : ParseM Unit := do
  if ends.contains (← peekType) then emitEmpty else r.flowNode

/-- The value after the `:` of a flow pair, or an empty one if there is no
`:`; `close` ends the collection. -/
def flowValue (r : Eager) (close : TokenType) : ParseM Unit := do
  if (← peekType) == .blockMapValue then
    consumeToken
    flowNodeOrEmpty r [.flowEntry, close]
  else emitEmpty

/-- After an entry of a flow collection: `,`, or `close` for the next round. -/
def flowSeparator (close : TokenType) (again : ParseM Unit) (msg : String) :
    ParseM Unit := do
  let tt ← peekType
  if tt == .flowEntry then
    consumeToken
    again
  else if tt == close then again
  else parseError msg

/-! ### Flow collections -/

/-- End of a pair in a flow sequence: zero width where the next token starts. -/
def endFlowPair : ParseM Unit := do
  peekToken
  enqueue' ((← get).pointEvent .mappingEnd)

/-- `? key : value` in a flow sequence. -/
def flowSeqExplicitPair (r : Eager) : ParseM Unit := do
  let p ← get
  enqueue' { p.tokenEvent .mappingStart with flow := true }
  consumeToken
  flowNodeOrEmpty r [.blockMapValue, .flowEntry, .flowSeqEnd]
  flowValue r .flowSeqEnd
  endFlowPair

/-- An entry of a flow sequence, wrapped in a mapping if a `:` follows. -/
def flowSeqEntry (r : Eager) : ParseM Unit := do
  let keyIdx := (← get).evtLen
  r.flowNode
  if (← peekType) == .blockMapValue then
    let p ← get
    if p.evtLen > keyIdx then
      insertOrStop keyIdx (p.keyMapStart keyIdx true)
    consumeToken
    flowNodeOrEmpty r [.flowEntry, .flowSeqEnd]
    endFlowPair

/-- `parse_flow_sequence`. -/
def parseFlowSequence (r : Eager) : ParseM Unit := do
  checkStop
  match ← peekType with
  | .flowSeqEnd => closeFlow .sequenceEnd
  | .flowEntry => parseError "unexpected ',' in flow sequence"
  | .blockMapKey =>
      flowSeqExplicitPair r
      flowSeparator .flowSeqEnd r.flowSequence
        "expected ',' or ']' in flow sequence"
  | _ =>
      flowSeqEntry r
      flowSeparator .flowSeqEnd r.flowSequence
        "expected ',' or ']' in flow sequence"

/-- The key of a flow mapping's entry. -/
def flowMapKey (r : Eager) : ParseM Unit := do
  if (← peekType) == .blockMapKey then
    consumeToken
    flowNodeOrEmpty r [.blockMapValue, .flowEntry, .flowMapEnd]
  else r.flowNode

/-- `parse_flow_mapping`. -/
def parseFlowMapping (r : Eager) : ParseM Unit := do
  checkStop
  match ← peekType with
  | .flowMapEnd => closeFlow .mappingEnd
  | .flowEntry => parseError "unexpected ',' in flow mapping"
  | _ =>
      flowMapKey r
      flowValue r .flowMapEnd
      flowSeparator .flowMapEnd r.flowMapping
        "expected ',' or '\x7d' in flow mapping"

/-- Open the flow collection at the current token and parse its contents. -/
def openFlow (r : Eager) (isMap : Bool) : ParseM Unit := do
  let p ← get
  let col := p.tokCol
  consumeToken
  enqueueWithProps
    { p.tokenEvent (if isMap then .mappingStart else .sequenceStart) with
      flow := true }
  if isMap then
    pushCtx .flowMap col
    r.flowMapping
  else
    pushCtx .flowSeq col
    r.flowSequence

/-- `parse_flow_node`. -/
def parseFlowNode (r : Eager) : ParseM Unit := do
  checkOom
  consumeProps
  match ← peekType with
  | .alias =>
      enqueueWithProps ((← get).nodeEvent .alias)
      consumeToken
  | .flowSeqStart => openFlow r false
  | .flowMapStart => openFlow r true
  | .scalar =>
      let evt ← attachProps ((← get).nodeEvent .scalar)
      consumeToken
      peekToken
      enqueue' evt
  | _ => emitEmpty

/-! ### Block collections -/

/-- Is the value of a block mapping's entry empty?  Anything left of the
mapping ends it and anything at its column is the next entry, except a block
sequence. -/
def Parser.blockValueEmpty (p : Parser) (mapIndent : Int) : Bool :=
  p.tokType.endsDocument || p.tokCol < mapIndent ||
    (p.tokCol == mapIndent && p.tokType != .blockSeqEntry)

/-- `parse_block_map_value`. -/
def parseBlockMapValue (r : Eager) (mapIndent : Int) : ParseM Unit := do
  checkOom
  if (← peekType) != .blockMapValue then emitEmpty
  else
    consumeToken
    peekToken
    if (← get).blockValueEmpty mapIndent then emitEmpty else r.blockNode

/-- The key after a `?` at the mapping's column. -/
def blockExplicitKey (r : Eager) (mapIndent : Int) : ParseM Unit := do
  consumeToken
  peekToken
  let p ← get
  if p.blockValueEmpty mapIndent then emitEmpty
  else if p.tokType == .anchor || p.tokType == .tag then
    consumeProps
    peekToken
    let p ← get
    -- properties of an empty key, if its ':' comes next
    if p.tokType == .blockMapValue && p.tokCol == mapIndent then emitEmpty
    else r.blockNode
  else r.blockNode

/-- An entry `? key` with its value. -/
def blockExplicitEntry (r : Eager) (mapIndent : Int) : ParseM Unit := do
  blockExplicitKey r mapIndent
  peekToken
  let p ← get
  if p.tokType == .blockMapValue && p.tokCol > mapIndent then
    parseError "explicit mapping value must be at the mapping's indentation"
  else if p.tokType == .blockMapValue && p.tokCol < mapIndent then emitEmpty
  else r.blockMapValue mapIndent

/-- A scalar or alias at the mapping's column, which must be a key. -/
def blockSimpleKey (r : Eager) (mapIndent : Int) (type : EventType) :
    ParseM Unit := do
  let evt ← attachProps ((← get).nodeEvent type)
  consumeToken
  if (← peekType) == .blockMapValue then
    enqueue' evt
    r.blockMapValue mapIndent
  else parseError "could not find expected ':' after mapping key"

/-- A flow collection at the mapping's column, which must be a key. -/
def blockFlowKey (r : Eager) (mapIndent : Int) : ParseM Unit := do
  r.flowNode
  if (← peekType) == .blockMapValue then r.blockMapValue mapIndent
  else parseError "could not find expected ':' after mapping key"

/-- An entry with an implicit key, its properties included; the result says
whether there was one. -/
def blockImplicitEntry (r : Eager) (mapIndent : Int) : ParseM Bool := do
  consumeProps
  peekToken
  let p ← get
  if p.hasProps && p.current.start.line != p.propsLine then
    parseError "mapping key properties must be on the key's line"
  else
    match p.tokType with
    | .blockMapValue =>
        if p.hasProps then
          emitEmpty
          r.blockMapValue mapIndent
          return true
        else return false
    | .scalar =>
        blockSimpleKey r mapIndent .scalar
        return true
    | .alias =>
        if p.tokCol == mapIndent then
          blockSimpleKey r mapIndent .alias
          return true
        else return false
    | .flowSeqStart | .flowMapStart =>
        blockFlowKey r mapIndent
        return true
    | _ => return false

/-- `parse_block_mapping`. -/
def parseBlockMapping (r : Eager) (mapIndent : Int) : ParseM Unit := do
  checkStop
  peekToken
  let p ← get
  if p.tokCol != mapIndent then return ()
  else
    match p.tokType with
    | .blockMapKey =>
        blockExplicitEntry r mapIndent
        r.blockMapping mapIndent
    | .blockMapValue =>
        emitEmpty
        r.blockMapValue mapIndent
        r.blockMapping mapIndent
    | .streamEnd | .docStart | .docEnd | .blockSeqEntry => return ()
    | _ =>
        if ← blockImplicitEntry r mapIndent then r.blockMapping mapIndent

/-- `parse_block_sequence`. -/
def parseBlockSequence (r : Eager) (seqIndent : Int) : ParseM Unit := do
  checkStop
  peekToken
  let p ← get
  if p.tokType != .blockSeqEntry || p.tokCol != seqIndent then return ()
  else
    consumeToken
    peekToken
    let p ← get
    if p.tokCol ≤ seqIndent then
      emitEmpty
      r.blockSequence seqIndent
    else if p.tokType.endsDocument then emitEmpty
    else
      r.blockNode
      r.blockSequence seqIndent

/-! ### Block nodes -/

namespace Parser

/-- `key_colon_follows`: an implicit key's `:` is on the line where the key
ends. -/
def keyColonFollows (p : Parser) (keyEndLine : Nat) : Bool :=
  p.tokType == .blockMapValue && !p.inFlow && p.current.start.line == keyEndLine

/-- The `:` belongs to the block mapping the parser is in. -/
def colonInParent (p : Parser) : Bool :=
  match p.topCtx with
  | some ctx => ctx.type == .blockMap && p.tokCol == ctx.indent
  | none => false

/-- Do the pending properties, on an earlier line, belong to an empty node
because the current token starts an entry of the enclosing collection? -/
def propsOfEmptyNode (p : Parser) : Bool :=
  p.hasProps && !p.inFlow && p.current.start.line != p.propsLine &&
    match p.topCtx with
    | some parent =>
        p.tokCol < parent.indent || (p.tokCol == parent.indent &&
          !(p.tokType == .blockSeqEntry && parent.type == .blockMap))
    | none => false

/-- Is a `-` after properties an entry of an enclosing sequence? -/
def seqEntryOfParent (p : Parser) : Bool :=
  p.hasProps &&
    match p.topCtx with
    | some ctx =>
        p.tokCol < ctx.indent || (ctx.type == .blockSeq && p.tokCol == ctx.indent)
    | none => false

/-- Does the current scalar belong to the mapping the parser is in? -/
def scalarOfParent (p : Parser) : Bool :=
  match p.topCtx with
  | some ctx => ctx.type == .blockMap && p.tokCol ≤ ctx.indent
  | none => false

/-- Column of a scalar key that starts at `col` of line `line`: properties on
its line are part of it. -/
def keyCol (p : Parser) (line : Nat) (col : Int) : Int :=
  if p.hasProps && p.propsLine == line && p.propsCol < col then p.propsCol else col

/-- Key column and `:` are right of the enclosing collection. -/
def keyNested (p : Parser) (keyCol : Int) : Bool :=
  match p.topCtx with
  | some ctx => keyCol > ctx.indent && p.tokCol > ctx.indent
  | none => true

def clearProps (p : Parser) : Parser :=
  { p with
    pendingAnchor := none, pendingTag := none, hasAnchor := false, hasTag := false }

/-- Replace the pending properties by those of `q`. -/
def withPropsOf (p q : Parser) : Parser :=
  { p with
    pendingAnchor := q.pendingAnchor
    pendingTag := q.pendingTag
    hasAnchor := q.hasAnchor
    hasTag := q.hasTag }

/-- Give `evt` the pending properties, leaving its start. -/
def giveProps (p : Parser) (evt : Event) : Event :=
  { evt with
    anchor := if p.hasAnchor then p.pendingAnchor else evt.anchor
    tag := if p.hasTag then p.pendingTag else evt.tag }

/-- Two anchors or two tags for one node. -/
def propsConflict (p q : Parser) : Bool :=
  (p.hasAnchor && q.hasAnchor) || (p.hasTag && q.hasTag)

end Parser

/-- The value of a mapping's first key, its other entries and its end. -/
def blockMappingRest (r : Eager) (col : Int) : ParseM Unit := do
  r.blockMapValue col
  r.blockMapping col
  closeBlock .mappingEnd

/-- A block sequence at the current `-`; `inner` are properties for its first
entry. -/
def openBlockSequence (r : Eager) (inner : Option Parser) : ParseM Unit := do
  let p ← get
  enqueueWithProps (p.tokenEvent .sequenceStart)
  pushCtx .blockSeq p.tokCol
  match inner with
  | some inner => modify fun p => p.withPropsOf inner
  | none => pure ()
  r.blockSequence p.tokCol
  closeBlock .sequenceEnd

/-- Two runs of properties before a scalar: the outer ones are those of a
mapping if the scalar is a key. -/
def innerScalar (r : Eager) (inner : Parser) (innerCol : Int) (innerLine : Nat) :
    ParseM Unit := do
  let p ← get
  let evt := inner.giveProps (p.nodeEvent .scalar)
  let scalarCol := if evt.start.line == innerLine then innerCol else p.tokCol
  consumeToken
  peekToken
  let p ← get
  if p.keyColonFollows evt.start.line then
    enqueueWithProps (mapStartAt evt.start)
    pushCtx .blockMap scalarCol
    enqueue' evt
    blockMappingRest r scalarCol
  else if inner.propsConflict p then
    parseError "a node cannot have two anchors or two tags"
  else enqueueWithProps evt

/-- Two runs of properties before a `:`: an empty key has the inner ones. -/
def innerEmptyKey (r : Eager) (inner : Parser) (innerCol : Int) : ParseM Unit := do
  let p ← get
  enqueueWithProps (p.pointEvent .mappingStart)
  pushCtx .blockMap innerCol
  enqueue' (inner.giveProps (p.pointEvent .scalar))
  blockMappingRest r innerCol

/-- Two runs of properties before a flow collection: the outer ones are those
of a mapping if the collection is a key. -/
def innerFlow (r : Eager) (outer inner : Parser) (innerCol : Int)
    (innerLine : Nat) (isMap : Bool) : ParseM Unit := do
  let p ← get
  let keyCol := if p.current.start.line == innerLine then innerCol else p.tokCol
  let idx := p.evtLen
  set { p.clearProps with haveToken := false }
  enqueue' (inner.giveProps
    { p.tokenEvent (if isMap then .mappingStart else .sequenceStart) with
      flow := true })
  if isMap then
    pushCtx .flowMap p.tokCol
    r.flowMapping
  else
    pushCtx .flowSeq p.tokCol
    r.flowSequence
  if (← peekType) != .blockMapValue then
    if inner.propsConflict outer then
      parseError "a node cannot have two anchors or two tags"
    else
      modify fun p => { p.clearProps with events := p.events.modify idx outer.giveProps }
  else
    insertOrStop idx
      { mapStartAt outer.propsStart with
        anchor := outer.pendingAnchor, tag := outer.pendingTag }
    pushCtx .blockMap keyCol
    blockMappingRest r keyCol

/-- A second run of properties follows the pending ones: these are for a
collection, the second run for its first node. -/
def innerProps (r : Eager) : ParseM Unit := do
  let outer ← get
  set outer.clearProps
  consumeProps
  let inner ← get
  set { inner.withPropsOf outer with propsStart := outer.propsStart }
  let innerCol := outer.tokCol
  let innerLine := outer.current.start.line
  match ← peekType with
  | .scalar => innerScalar r inner innerCol innerLine
  | .blockSeqEntry => openBlockSequence r (some inner)
  | .flowSeqStart => innerFlow r outer inner innerCol innerLine false
  | .flowMapStart => innerFlow r outer inner innerCol innerLine true
  | tt =>
      if tt == .blockMapValue && !(← get).inFlow then
        innerEmptyKey r inner innerCol
      else
        -- the outer properties are overwritten here
        modify fun p => p.withPropsOf inner
        enqueueWithProps ((← get).pointEvent .scalar)

/-- An alias, which may be the first key of a block mapping. -/
def blockAlias (r : Eager) : ParseM Unit := do
  let p ← get
  let evt := p.nodeEvent .alias
  let aliasCol := p.tokCol
  consumeToken
  peekToken
  let p ← get
  if p.keyColonFollows evt.start.line then
    enqueueWithProps (mapStartAt evt.start)
    pushCtx .blockMap aliasCol
    enqueue' evt
    blockMappingRest r aliasCol
  else if p.hasProps then parseError "an alias cannot have an anchor or tag"
  else enqueue' evt

/-- A flow collection, which may be the first key of a block mapping. -/
def blockFlow (r : Eager) (isMap : Bool) : ParseM Unit := do
  let before ← get
  let onLine := before.propsLine == before.current.start.line
  -- a key with properties on its line starts at them
  let flowCol := if before.hasProps && onLine then before.propsCol else before.tokCol
  let idx := before.evtLen
  openFlow r isMap
  peekToken
  let p ← get
  let endLine := (p.events.getLastD { type := .none }).stop.line
  if p.keyColonFollows endLine && !p.colonInParent then
    let mapEvt := p.keyMapStart idx false
    let mapEvt ←
      if before.hasProps && !onLine then
        movePropsToKeyMap idx mapEvt before.current.start
          (if before.hasAnchor then before.pendingAnchor else none)
          (if before.hasTag then before.pendingTag else none)
      else pure mapEvt
    insertOrStop idx mapEvt
    pushCtx .blockMap flowCol
    blockMappingRest r flowCol

/-- A scalar, which may be the first key of a block mapping. -/
def blockScalar (r : Eager) : ParseM Unit := do
  let p ← get
  if p.scalarOfParent then emitEmpty
  else
    let evt := p.nodeEvent .scalar
    let scalarCol := p.tokCol
    consumeToken
    peekToken
    let p ← get
    let keyCol := p.keyCol evt.start.line scalarCol
    if p.keyColonFollows evt.start.line && p.keyNested keyCol then
      if p.hasProps && p.propsLine != evt.start.line then
        enqueueWithProps (mapStartAt evt.start)
        pushCtx .blockMap keyCol
        enqueue' evt
      else
        enqueue' (mapStartAt evt.start)
        pushCtx .blockMap keyCol
        enqueueWithProps evt
      blockMappingRest r keyCol
    else enqueueWithProps evt

/-- A block mapping that starts with `?`. -/
def blockExplicitMapping (r : Eager) : ParseM Unit := do
  let p ← get
  enqueueWithProps (p.tokenEvent .mappingStart)
  pushCtx .blockMap p.tokCol
  r.blockMapping p.tokCol
  closeBlock .mappingEnd

/-- A block mapping that starts with `:`, whose first key is empty. -/
def blockBareValue (r : Eager) : ParseM Unit := do
  let p ← get
  if p.hasProps && p.propsLine == p.current.start.line then
    enqueue' (mapStartAt p.propsStart)
    pushCtx .blockMap p.propsCol
    emitEmpty
    blockMappingRest r p.propsCol
  else
    enqueueWithProps (p.tokenEvent .mappingStart)
    pushCtx .blockMap p.tokCol
    r.blockMapping p.tokCol
    closeBlock .mappingEnd

/-- `parse_block_node`. -/
def parseBlockNode (r : Eager) : ParseM Unit := do
  checkOom
  consumeProps
  peekToken
  let p ← get
  if p.tokType == .blockSeqEntry && p.hasProps &&
      p.current.start.line == p.propsLine then
    parseError "block sequence cannot start on the same line as its properties"
  else if p.propsOfEmptyNode then emitEmpty
  else if (p.tokType == .anchor || p.tokType == .tag) && p.hasProps then
    innerProps r
  else
    match p.tokType with
    | .alias => blockAlias r
    | .flowSeqStart => blockFlow r false
    | .flowMapStart => blockFlow r true
    | .blockSeqEntry =>
        if p.seqEntryOfParent then emitEmpty else openBlockSequence r none
    | .scalar => blockScalar r
    | .blockMapKey => blockExplicitMapping r
    | .blockMapValue => if p.inFlow then emitEmpty else blockBareValue r
    | _ => emitEmpty

end Oyl
