import Oyl.Parser.Lookahead
import Oyl.Parser.Props

/-!
# The incremental parser

The explicit state machine of `oyl_parser.c`: each step looks at the next
tokens, queues at most a few events and picks the next state.  A stack of
frames holds the open collections with the states to return to.
-/

namespace Oyl

/-! ### Shared steps -/

/-- `peek_token` with its status ignored: after a scanner error the current
token is stale. -/
def peekQuiet : ParseM Unit := fun p =>
  match peekToken p with
  | .ok () p => .ok () p
  | .error (.status _) p => .ok () p
  | .error .fuel p => .error .fuel p

def peekTypeQuiet : ParseM TokenType := do
  peekQuiet
  return (← get).tokType

def setState (state : PState) : ParseM Unit :=
  modify fun p => { p with state := state }

namespace Parser

/-- The event limit is reached by what was delivered and queued. -/
def incOverLimit (p : Parser) : Bool :=
  p.maxEvents > 0 && ((p.eventsDelivered + p.outBuf.length : Nat) : Int) ≥ p.maxEvents

/-- The indent of the innermost frame, 0 without one. -/
def frameIndent (p : Parser) : Int := (p.topFrame.map (·.indent)).getD 0

/-- Withhold the queued events from the last collection start on. -/
def withholdStart (p : Parser) : Parser :=
  let opens (evt : Event) := evt.type == .mappingStart || evt.type == .sequenceStart
  match p.outBuf.reverse.findIdx? opens with
  | some back =>
      let k := p.outBuf.length - 1 - back
      if k ≥ p.outCursor then { p with outBuf := p.outBuf.take k } else p
  | none => p

end Parser

/-- `inc_emit` -/
def incEmit (evt : Event) : ParseM Unit :=
  modify fun p =>
    if p.incOverLimit then p.hitLimit "event limit exceeded"
    else if p.outBuf.length < 8 then { p with outBuf := p.outBuf ++ [evt] }
    else { p with dropped := true }

/-- An empty scalar, without properties, where the current token starts. -/
def incEmitEmpty : ParseM Unit := do
  incEmit ((← get).pointEvent .scalar)

/-- `inc_push_frame` -/
def incPushFrame (type : CtxType) (indent : Int) (returnState : PState) : ParseM Unit :=
  modify fun p =>
    if !type.isFlow && p.docStartLine != 0 && p.current.start.line == p.docStartLine then
      p.stopWith .parse "block collection cannot start on the '---' line"
    else if p.maxDepth > 0 && (p.frames.length : Int) ≥ p.maxDepth then
      p.withholdStart.hitLimit "nesting depth limit exceeded"
    else { p with frames := ⟨type, indent, returnState⟩ :: p.frames }

/-- `inc_pop_frame` -/
def incPopFrame : ParseM Frame := do
  let p ← get
  match p.frames with
  | [] => return ⟨.blockMap, -1, .done⟩
  | frame :: frames =>
      set { p with frames := frames }
      return frame

/-- `inc_emit_scalar_token` -/
def incEmitScalarToken : ParseM Unit := do
  let p ← get
  if p.incOverLimit then set (p.hitLimit "event limit exceeded")
  else
    if p.outBuf.length < 8 then
      let evt ← attachProps (p.nodeEvent .scalar)
      modify fun p => { p with outBuf := p.outBuf ++ [evt] }
    else set { p with dropped := true }
    consumeToken

/-- `inc_flow_sep` -/
def incFlowSep (inSeq : Bool) : ParseM Unit := do
  let tt ← peekType
  if tt == .flowEntry then
    consumeToken
    setState (if inSeq then .flowSeqLoop else .flowMapLoop)
  else if tt == (if inSeq then .flowSeqEnd else .flowMapEnd) then
    setState (if inSeq then .flowSeqEnd else .flowMapEnd)
  else setState (if inSeq then .flowSeqSep else .flowMapSep)

/-- Parse a flow node and continue in state `next`. -/
def incFlowNode (next : PState) : ParseM Unit :=
  modify fun p => { p with nodeReturn := next, state := .flowNode }

/-- An empty node if the next token is one of `ends`, else a flow node;
continue in state `next`. -/
def incFlowNodeOrEmpty (ends : List TokenType) (next : PState) : ParseM Unit := do
  if ends.contains (← peekTypeQuiet) then
    incEmitEmpty
    setState next
  else incFlowNode next

/-- `inc_flow_map_value`, with the `:` already consumed. -/
def incFlowMapValue : ParseM Unit := do
  let tt ← peekType
  if tt == .scalar then
    incEmitScalarToken
    incFlowSep false
  else if tt == .flowEntry || tt == .flowMapEnd then
    incEmitEmpty
    setState .flowMapSep
  else incFlowNode .flowMapSep

/-- `starts_line`: only blanks before `offset` on its line. -/
def startsLine (input : Bytes) (offset : Nat) : Bool :=
  let before := ((input.take offset).reverse).dropWhile isBlank
  match before with
  | [] => true
  | c :: _ => isBreak c || (before.length == 3 && input.take 3 == [0xEF, 0xBB, 0xBF])

/-- `inc_checkpoint`: at a document's start, in a clean state, save where the
eager parser may start again. -/
def incCheckpoint : ParseM Unit :=
  modify fun p =>
    if !p.outBuf.isEmpty || p.scanError != .ok || p.docOpen || !p.frames.isEmpty ||
        p.hasAnchor || p.hasTag || !p.haveToken then p
    else if p.ckpt.isSome &&
        p.current.start.offset - p.ckptTok.start.offset < p.ckptSpacing then p
    else
      { p with
        ckpt := some p.scanner
        ckptTok := p.current
        ckptHaveTok := p.haveToken
        ckptDelivered := p.eventsDelivered
        ckptSig := p.deliveredSig }

/-- The event that ends a document where the current token starts. -/
def Parser.implicitDocEnd (p : Parser) : Event :=
  { p.pointEvent .docEnd with implicit := true }

/-- `inc_end_document` -/
def incEndDocument : ParseM Unit := do
  let tt ← peekType
  if !tt.endsDocument then parseError "unexpected content after document root node"
  else
    if tt == .docEnd then consumeToken
    let p ← get
    incEmit (if tt == .docEnd then p.tokenEvent .docEnd else p.implicitDocEnd)
    modify fun p => { p with docOpen := false, state := .streamDocLoop }

/-! ### Flow states -/

/-- Open a flow collection at the current token, with its properties. -/
def incOpenFlow (isMap : Bool) : ParseM Unit := do
  let p ← get
  let evt ← attachProps
    { p.tokenEvent (if isMap then .mappingStart else .sequenceStart) with flow := true }
  consumeToken
  incEmit evt
  incPushFrame (if isMap then .flowMap else .flowSeq) p.tokCol p.nodeReturn
  setState (if isMap then .flowMapLoop else .flowSeqLoop)

/-- Continue in the state that waits for the node just completed. -/
def returnNode : ParseM Unit := modify fun p => { p with state := p.nodeReturn }

def stepFlowNode : ParseM Unit := do
  let tt ← peekTypeQuiet
  if tt == .tag || tt == .anchor then
    consumeProps
    peekQuiet
  match (← get).tokType with
  | .scalar =>
      incEmitScalarToken
      returnNode
  | .alias =>
      let evt ← attachProps ((← get).nodeEvent .alias)
      consumeToken
      incEmit evt
      returnNode
  | .flowSeqStart => incOpenFlow false
  | .flowMapStart => incOpenFlow true
  | _ =>
      incEmit (← attachProps ((← get).pointEvent .scalar))
      returnNode

/-- Close a flow collection at its bracket and return to its frame's state. -/
def incCloseFlow (type : EventType) : ParseM Unit := do
  let p ← get
  consumeToken
  incEmit (p.tokenEvent type)
  let frame ← incPopFrame
  setState frame.returnState
  if frame.returnState == .flowSeqSep then incFlowSep true
  else if frame.returnState == .flowMapSep then incFlowSep false

def stepFlowMapLoop : ParseM Unit := do
  checkOom
  match ← peekTypeQuiet with
  | .flowMapEnd => setState .flowMapEnd
  | .flowEntry => parseError "unexpected ',' in flow mapping"
  | .blockMapKey =>
      consumeToken
      incFlowNodeOrEmpty [.blockMapValue, .flowEntry, .flowMapEnd] .flowMapValue
  | .scalar =>
      incEmitScalarToken
      setState .flowMapValue
      if (← peekType) == .blockMapValue then
        consumeToken
        incFlowMapValue
  | _ => incFlowNode .flowMapValue

def stepFlowMapValue : ParseM Unit := do
  if (← peekTypeQuiet) == .blockMapValue then
    consumeToken
    incFlowMapValue
  else
    incEmitEmpty
    setState .flowMapSep

/-- `ST_FLOW_MAP_SEP` and `ST_FLOW_SEQ_SEP`. -/
def stepFlowSep (close : TokenType) (loop : PState) (msg : String) : ParseM Unit := do
  let tt ← peekTypeQuiet
  if tt == .flowEntry then
    consumeToken
    setState loop
  else if tt == close then setState loop
  else parseError msg

def stepFlowSeqEntry : ParseM Unit := do
  peekQuiet
  let p ← get
  let evt ← attachProps (p.nodeEvent (if p.tokType == .scalar then .scalar else .alias))
  consumeToken
  if (← peekTypeQuiet) == .blockMapValue then
    modify fun p =>
      { p with savedNode := evt, haveSavedNode := true, state := .flowSeqEntryKey }
  else
    incEmit evt
    incFlowSep true

/-- The value of an implicit pair in a flow sequence, after its `:`. -/
def incPairValue : ParseM Unit :=
  incFlowNodeOrEmpty [.flowEntry, .flowSeqEnd] .flowSeqImplicitEnd

/-- Start an implicit pair in a flow sequence with its key `key`. -/
def incPairKey (key : Event) : ParseM Unit := do
  incEmit { mapStartAt key.start with flow := true }
  incEmit key

/-- Properties before an entry of a flow sequence. -/
def stepFlowSeqProps : ParseM Unit := do
  consumeProps
  let tt ← peekType
  if tt == .flowEntry || tt == .flowSeqEnd then
    incEmit (← attachProps ((← get).pointEvent .scalar))
    incFlowSep true
  else if tt == .tag || tt == .anchor then
    parseError "expected ',' or ']' in flow sequence"

def stepFlowSeqLoop : ParseM Unit := do
  checkOom
  match ← peekTypeQuiet with
  | .flowSeqEnd => setState .flowSeqEnd
  | .blockMapKey =>
      if (← get).hasProps then parseError "expected ',' or ']' in flow sequence"
      else setState .flowSeqExplicitKey
  | .scalar | .alias =>
      setState .flowSeqEntry
      stepFlowSeqEntry
  | .flowSeqStart | .flowMapStart =>
      let p ← get
      let (isKey, p) := p.flowIsBlockKey p.current.start.offset
      set p
      if isKey then setState .eagerDrain else incFlowNode .flowSeqSep
  | .blockMapValue =>
      let key ← attachProps ((← get).pointEvent .scalar)
      incPairKey key
      consumeToken
      incPairValue
  | .tag | .anchor => stepFlowSeqProps
  | .flowEntry => parseError "unexpected ',' in flow sequence"
  | _ => parseError "unexpected token in flow sequence"

def stepFlowSeqEntryKey : ParseM Unit := do
  incPairKey (← get).savedNode
  modify fun p => { p with haveSavedNode := false, haveToken := false }
  incPairValue

/-- `ST_FLOW_SEQ_IMPLICIT_END` and `ST_FLOW_SEQ_EXPLICIT_END`. -/
def stepFlowPairEnd : ParseM Unit := do
  peekQuiet
  incEmit ((← get).pointEvent .mappingEnd)
  setState .flowSeqSep

def stepFlowSeqExplicitKey : ParseM Unit := do
  incEmit { (← get).tokenEvent .mappingStart with flow := true }
  consumeToken
  incFlowNodeOrEmpty [.blockMapValue, .flowEntry, .flowSeqEnd] .flowSeqExplicitValue

def stepFlowSeqExplicitValue : ParseM Unit := do
  if (← peekTypeQuiet) == .blockMapValue then
    consumeToken
    incFlowNodeOrEmpty [.flowEntry, .flowSeqEnd] .flowSeqExplicitEnd
  else
    incEmitEmpty
    setState .flowSeqExplicitEnd

def stepFlowSeqCheckColon : ParseM Unit := do
  if (← peekTypeQuiet) == .blockMapValue then setState .eagerDrain
  else setState .flowSeqSep

/-! ### Stream and document states -/

def stepStreamStart : ParseM Unit := do
  peekQuiet
  let p ← get
  consumeToken
  incEmit (p.tokenEvent .streamStart)
  setState .streamDocLoop

def stepStreamDocLoop : ParseM Unit := do
  if (← peekTypeQuiet) == .streamEnd then setState .streamEnd
  else setState .docDirectives

def stepStreamEnd : ParseM Unit := do
  peekQuiet
  let p ← get
  consumeToken
  incEmit (p.tokenEvent .streamEnd)
  modify fun p => { p with streamEnded := true, state := .done }

def stepDocDirectives : ParseM Unit := do
  let tt ← peekTypeQuiet
  incCheckpoint
  match tt with
  | .directive => setState .eagerDrain
  | .docStart => setState .docStartExplicit
  | .docEnd =>
      consumeToken
      setState .streamDocLoop
  | .streamEnd => setState .streamEnd
  | _ => setState .docStartImplicit

/-- Start a document, after the end of one that is still open. -/
def stepDocStart (self : PState) (explicit : Bool) : ParseM Unit := do
  let p ← get
  if p.docOpen && !p.frames.isEmpty then
    set { p with unrollReturn := self, state := .unroll }
  else
    if p.docOpen then
      peekQuiet
      incEmit (← get).implicitDocEnd
      modify fun p => { p with docOpen := false }
    peekQuiet
    let p ← get
    if explicit then
      set { p with docStartLine := p.current.start.line, haveToken := false }
      incEmit (p.tokenEvent .docStart)
    else
      set { p with docStartLine := 0 }
      incEmit { p.pointEvent .docStart with implicit := true }
    modify fun p => { p with docOpen := true, state := .docContent }

/-- An empty document that the current token ends; continue in `next`. -/
def incEmptyDocument (next : PState) : ParseM Unit := do
  incEmitEmpty
  incEmit (← get).implicitDocEnd
  modify fun p => { p with docOpen := false, state := next }

def stepDocContent : ParseM Unit := do
  match ← peekTypeQuiet with
  | .docEnd =>
      incEmitEmpty
      setState .docEndExplicit
  | .docStart => incEmptyDocument .streamDocLoop
  | .streamEnd => incEmptyDocument .streamEnd
  | _ => modify fun p => { p with nodeReturn := .docEndExplicit, state := .blockNode }

def stepUnroll : ParseM Unit := do
  let p ← get
  if p.frames.isEmpty then setState p.unrollReturn
  else
    let frame ← incPopFrame
    peekQuiet
    incEmit ((← get).pointEvent
      (if frame.type == .blockMap || frame.type == .flowMap then .mappingEnd
      else .sequenceEnd))

/-! ### Block states -/

/-- A block node's flow collection is parsed here unless it is a key: it cannot
be one on the line of an implicit key's `:`. -/
def stepBlockNodeFlow : ParseM Unit := do
  let p ← get
  if p.nodeReturn == .blockMapLoop && p.current.start.line == p.valueColonLine &&
      !p.valueColonStartsLine then
    setState .flowNode
  else
    let (isKey, p) := p.flowIsBlockKey p.current.start.offset
    set p
    setState (if isKey then .eagerDrain else .flowNode)

def stepBlockNode : ParseM Unit := do
  match ← peekTypeQuiet with
  | .tag | .anchor => setState .eagerDrain
  | .alias => setState .blockNodeAlias
  | .blockSeqEntry => setState .blockNodeSeq
  | .blockMapKey => setState .blockNodeExplicitKey
  | .blockMapValue => setState .blockNodeBareValue
  | .flowSeqStart | .flowMapStart => stepBlockNodeFlow
  | .scalar => setState .blockNodeScalar
  | .flowSeqEnd | .flowMapEnd | .flowEntry =>
      parseError "unexpected flow indicator outside a flow collection"
  | .directive =>
      parseError "directive requires a preceding document end marker '...'"
  | _ => setState .blockNodeEmpty

/-- `ST_BLOCK_NODE_SCALAR` and `ST_BLOCK_NODE_ALIAS`: a node, or the first key
of a mapping. -/
def stepBlockNodeLeaf (type : EventType) (keyState : PState) : ParseM Unit := do
  peekQuiet
  let p ← get
  let evt := p.nodeEvent type
  let col := p.tokCol
  consumeToken
  peekQuiet
  let p ← get
  if p.tokType == .blockMapValue && p.current.start.line == evt.start.line then
    set { p with
      savedNode := evt, savedNodeCol := col, haveSavedNode := true, state := keyState }
  else
    incEmit evt
    returnNode

/-- `ST_BLOCK_NODE_SCALAR_KEY` and `ST_BLOCK_NODE_ALIAS_KEY`. -/
def stepBlockNodeKey : ParseM Unit := do
  let p ← get
  incEmit (mapStartAt p.savedNode.start)
  incEmit p.savedNode
  modify fun p => { p with haveSavedNode := false }
  incPushFrame .blockMap p.savedNodeCol p.nodeReturn
  setState .blockMapValue

/-- Open a block collection at the current token and continue in `next`. -/
def incOpenBlock (type : CtxType) (next : PState) : ParseM Unit := do
  peekQuiet
  let p ← get
  incEmit (p.tokenEvent (if type == .blockSeq then .sequenceStart else .mappingStart))
  incPushFrame type p.tokCol p.nodeReturn
  setState next

def stepBlockNodeBareValue : ParseM Unit := do
  incOpenBlock .blockMap .blockMapValue
  incEmitEmpty

def stepBlockNodeEmpty : ParseM Unit := do
  peekQuiet
  incEmit ((← get).tokenEvent .scalar)
  returnNode

/-- Parse a block node and continue in state `next`. -/
def incBlockNode (next : PState) : ParseM Unit :=
  modify fun p => { p with nodeReturn := next, state := .blockNode }

def stepBlockMapLoop : ParseM Unit := do
  let tt ← peekTypeQuiet
  let p ← get
  let atIndent := p.tokCol == p.frameIndent
  if tt == .blockMapKey && atIndent then setState .blockMapExplicitKey
  else if (tt == .scalar || tt == .alias) && atIndent then setState .blockMapSimpleKey
  else if tt == .blockMapValue && atIndent then
    incEmitEmpty
    setState .blockMapValue
  else if tt == .tag || tt == .anchor || tt == .flowSeqStart || tt == .flowMapStart then
    setState .eagerDrain
  else setState .blockMapEnd

/-- Nothing is indented past the mapping's column, and no block sequence sits
at it: an entry's key or value is empty. -/
def Parser.incBlockEmpty (p : Parser) : Bool :=
  p.tokCol < p.frameIndent || (p.tokCol == p.frameIndent && p.tokType != .blockSeqEntry) ||
    p.tokType.endsDocument

def stepBlockMapExplicitKey : ParseM Unit := do
  peekQuiet
  consumeToken
  peekQuiet
  if (← get).incBlockEmpty then
    incEmitEmpty
    setState .blockMapPostKey
  else incBlockNode .blockMapPostKey

def stepBlockMapSimpleKey : ParseM Unit := do
  let tt ← peekTypeQuiet
  if tt == .scalar || tt == .alias then
    let evt := (← get).nodeEvent (if tt == .scalar then .scalar else .alias)
    consumeToken
    if (← peekTypeQuiet) == .blockMapValue then
      incEmit evt
      setState .blockMapValue
    else setState .eagerDrain
  else setState .eagerDrain

def stepBlockMapPostKey : ParseM Unit := do
  peekQuiet
  let p ← get
  if p.tokType == .blockMapValue && p.tokCol == p.frameIndent then
    setState .blockMapValue
  else if p.tokType == .blockMapValue && p.tokCol > p.frameIndent then
    parseError "explicit mapping value must be at the mapping's indentation"
  else
    incEmitEmpty
    setState .blockMapLoop

def stepBlockMapValue : ParseM Unit := do
  if (← peekTypeQuiet) != .blockMapValue then
    incEmitEmpty
    setState .blockMapLoop
  else
    let p ← get
    let colon := p.current.start
    consumeToken
    peekQuiet
    modify fun q =>
      { q with
        valueColonLine := colon.line
        valueColonStartsLine := startsLine p.input colon.offset }
    if (← get).incBlockEmpty then
      incEmitEmpty
      setState .blockMapLoop
    else incBlockNode .blockMapLoop

/-- End a block collection and return to its frame's state. -/
def incCloseBlock (type : EventType) : ParseM Unit := do
  let frame ← incPopFrame
  peekQuiet
  incEmit ((← get).pointEvent type)
  setState frame.returnState
  if frame.returnState == .docEndExplicit then incEndDocument

def stepBlockSeqLoop : ParseM Unit := do
  peekQuiet
  let p ← get
  if p.tokType == .blockSeqEntry && p.tokCol == p.frameIndent then
    setState .blockSeqEntry
  else setState .blockSeqEnd

def stepBlockSeqEntry : ParseM Unit := do
  peekQuiet
  consumeToken
  peekQuiet
  let p ← get
  if p.tokCol ≤ p.frameIndent || p.tokType.endsDocument then
    incEmitEmpty
    setState .blockSeqLoop
  else incBlockNode .blockSeqLoop

/-- `parser_step` with `parser_step_flow`. -/
def parserStep : ParseM Unit := do
  checkOom
  match (← get).state with
  | .streamStart => stepStreamStart
  | .streamDocLoop => stepStreamDocLoop
  | .streamEnd => stepStreamEnd
  | .docDirectives => stepDocDirectives
  | .docStartExplicit => stepDocStart .docStartExplicit true
  | .docStartImplicit => stepDocStart .docStartImplicit false
  | .docEndExplicit => incEndDocument
  | .docContent => stepDocContent
  | .blockNode => stepBlockNode
  | .blockNodeScalar => stepBlockNodeLeaf .scalar .blockNodeScalarKey
  | .blockNodeScalarKey => stepBlockNodeKey
  | .blockNodeAlias => stepBlockNodeLeaf .alias .blockNodeAliasKey
  | .blockNodeAliasKey => stepBlockNodeKey
  | .blockNodeSeq => incOpenBlock .blockSeq .blockSeqLoop
  | .blockNodeExplicitKey => incOpenBlock .blockMap .blockMapLoop
  | .blockNodeBareValue => stepBlockNodeBareValue
  | .blockNodeEmpty => stepBlockNodeEmpty
  | .blockMapLoop => stepBlockMapLoop
  | .blockMapExplicitKey => stepBlockMapExplicitKey
  | .blockMapSimpleKey => stepBlockMapSimpleKey
  | .blockMapPostKey => stepBlockMapPostKey
  | .blockMapValue => stepBlockMapValue
  | .blockMapValueNode => setState .blockMapLoop
  | .blockMapEnd => incCloseBlock .mappingEnd
  | .blockSeqLoop => stepBlockSeqLoop
  | .blockSeqEntry => stepBlockSeqEntry
  | .blockSeqEntryNode => setState .blockSeqLoop
  | .blockSeqEnd => incCloseBlock .sequenceEnd
  | .unroll => stepUnroll
  | .flowSeqLoop => stepFlowSeqLoop
  | .flowSeqEntry => stepFlowSeqEntry
  | .flowSeqEntryKey => stepFlowSeqEntryKey
  | .flowSeqImplicitEnd => stepFlowPairEnd
  | .flowSeqExplicitKey => stepFlowSeqExplicitKey
  | .flowSeqExplicitValue => stepFlowSeqExplicitValue
  | .flowSeqExplicitEnd => stepFlowPairEnd
  | .flowSeqCheckColon => stepFlowSeqCheckColon
  | .flowSeqSep =>
      stepFlowSep .flowSeqEnd .flowSeqLoop "expected ',' or ']' in flow sequence"
  | .flowSeqEnd => incCloseFlow .sequenceEnd
  | .flowMapLoop => stepFlowMapLoop
  | .flowMapValue => stepFlowMapValue
  | .flowMapSep =>
      stepFlowSep .flowMapEnd .flowMapLoop "expected ',' or '\x7d' in flow mapping"
  | .flowMapEnd => incCloseFlow .mappingEnd
  | .flowNode => stepFlowNode
  | .eagerDrain | .done => return ()

end Oyl
