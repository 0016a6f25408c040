import Oyl.Scanner.Token
import Oyl.Schema

/-!
# Parser state

The state shared by the eager and the incremental parser of `oyl_parser.c`,
with the helpers both use: limits, the event list, the context stack, token
lookahead, and the pending anchor and tag.  Stacks are lists with the top
first; allocation does not fail.
-/

namespace Oyl

inductive CtxType where
  | blockMap
  | blockSeq
  | flowMap
  | flowSeq
  deriving DecidableEq, Repr, Inhabited

/-- Is the token one of those that end a document? -/
def TokenType.endsDocument : TokenType → Bool
  | .streamEnd | .docStart | .docEnd => true
  | _ => false

def CtxType.isFlow : CtxType → Bool
  | .flowMap | .flowSeq => true
  | .blockMap | .blockSeq => false

structure CtxEntry where
  type : CtxType
  indent : Int
  deriving DecidableEq, Repr, Inhabited

/-- `parser_state`. -/
inductive PState where
  | streamStart
  | streamDocLoop
  | streamEnd
  | docDirectives
  | docStartExplicit
  | docStartImplicit
  | docEndExplicit
  | docContent
  | blockNode
  | blockNodeScalar
  | blockNodeScalarKey
  | blockNodeAlias
  | blockNodeAliasKey
  | blockNodeSeq
  | blockNodeExplicitKey
  | blockNodeBareValue
  | blockNodeEmpty
  | blockMapLoop
  | blockMapExplicitKey
  | blockMapSimpleKey
  | blockMapPostKey
  | blockMapValue
  | blockMapValueNode
  | blockMapEnd
  | blockSeqLoop
  | blockSeqEntry
  | blockSeqEntryNode
  | blockSeqEnd
  | unroll
  | flowSeqLoop
  | flowSeqEntry
  | flowSeqEntryKey
  | flowSeqImplicitEnd
  | flowSeqExplicitKey
  | flowSeqExplicitValue
  | flowSeqExplicitEnd
  | flowSeqCheckColon
  | flowSeqSep
  | flowSeqEnd
  | flowMapLoop
  | flowMapValue
  | flowMapSep
  | flowMapEnd
  | flowNode
  | eagerDrain
  | done
  deriving DecidableEq, Repr, Inhabited

/-- `state_frame`. -/
structure Frame where
  type : CtxType
  indent : Int
  returnState : PState
  deriving DecidableEq, Repr, Inhabited

/-- A `%TAG` handle and its prefix. -/
structure TagDirective where
  handle : Bytes
  expansion : Bytes
  deriving DecidableEq, Repr

/-- `oyl_parser`.  The event list is `events`, drained by `evtCursor`; the
incremental parser's output buffer is `outBuf`, drained by `outCursor`. -/
structure Parser where
  scanner : Scanner
  input : Bytes
  current : Token := {}
  haveToken : Bool := false
  events : List Event := []
  evtCursor : Nat := 0
  contexts : List CtxEntry := []
  pendingAnchor : Option Bytes := none
  pendingTag : Option Bytes := none
  hasAnchor : Bool := false
  hasTag : Bool := false
  propsLine : Nat := 0
  propsCol : Int := 0
  propsStart : Mark := ⟨0, 0, 0⟩
  tagDirectives : List TagDirective := []
  streamStarted : Bool := false
  streamEnded : Bool := false
  docOpen : Bool := false
  schema : Option Schema := none
  mergeEnabled : Bool := false
  resolveEnabled : Bool := false
  maxEvents : Int := 10000
  maxDepth : Int := 256
  docStartLine : Nat := 0
  errorMsg : String := ""
  errorMark : Mark := ⟨0, 0, 0⟩
  oom : Bool := false
  stopStatus : Status := .ok
  incremental : Bool := true
  state : PState := .streamStart
  frames : List Frame := []
  outBuf : List Event := []
  outCursor : Nat := 0
  /-- Was an event dropped for want of room in `outBuf`?  The source does not record it. -/
  dropped : Bool := false
  savedNode : Event := { type := .none }
  savedNodeCol : Int := 0
  haveSavedNode : Bool := false
  unrollReturn : PState := .streamStart
  nodeReturn : PState := .streamStart
  eventsDelivered : Nat := 0
  deliveredSig : UInt64 := 0
  scanError : Status := .ok
  scanErrorOut : Nat := 0
  valueColonLine : Nat := 0
  valueColonStartsLine : Bool := false
  boundNames : Option (List Bytes) := none
  fkValid : Bool := false
  fkLo : Nat := 0
  fkHi : Nat := 0
  fkKeys : List Nat := []
  fkAmbiguous : Bool := false
  ckpt : Option Scanner := none
  ckptTok : Token := {}
  ckptHaveTok : Bool := false
  ckptDelivered : Nat := 0
  ckptSig : UInt64 := 0
  evtBase : Nat := 0
  skipN : Nat := 0
  skipSig : UInt64 := 0
  skipGot : UInt64 := 0
  /-- `OYL_CKPT_SPACING`, a constant of the build. -/
  ckptSpacing : Nat := 65536
  deriving DecidableEq, Repr

/-- `oyl_parser_new` -/
def Parser.new (input : Bytes) : Parser :=
  { scanner := Scanner.new input, input := input }

/-- Why a parsing function stopped: the status it returned, or the end of the
model's fuel, which is no result of the source. -/
inductive Stop where
  | status (st : Status)
  | fuel
  deriving DecidableEq, Repr

abbrev ParseM := EStateM Stop Parser

def throwStatus (st : Status) : ParseM α := throw (.status st)

/-- `PARSE_ERROR`. -/
def parseError (msg : String) : ParseM α := do
  modify fun p => { p with errorMsg := msg, errorMark := p.current.start }
  throwStatus .parse

namespace Parser

def evtLen (p : Parser) : Nat := p.events.length

/-- `stop_with`: the first stop status and message are kept. -/
def stopWith (p : Parser) (st : Status) (msg : String) : Parser :=
  if p.stopStatus == .ok then
    { p with
      errorMsg := msg, errorMark := p.current.start, stopStatus := st, oom := true }
  else { p with oom := true }

def hitLimit (p : Parser) (msg : String) : Parser := p.stopWith .limit msg

/-- `OOM_STATUS`. -/
def oomStatus (p : Parser) : Status :=
  if p.stopStatus == .ok then .memory else p.stopStatus

def overLimit (p : Parser) : Bool :=
  p.maxEvents > 0 && ((p.evtBase + p.evtLen : Nat) : Int) ≥ p.maxEvents

/-- The tag an event gets from the schema when it has none. -/
def schemaTag (p : Parser) (evt : Event) : Option Bytes :=
  match p.schema, evt.tag with
  | some schema, none =>
      match evt.type with
      | .scalar => schemaResolve schema evt.value evt.scalarStyle
      | .mappingStart => schema.defaultMapTag
      | .sequenceStart => schema.defaultSeqTag
      | _ => none
  | _, tag => tag

/-- Token column, 0-based. -/
def tokCol (p : Parser) : Int := (p.current.start.col : Int) - 1

def tokType (p : Parser) : TokenType := p.current.type

def hasProps (p : Parser) : Bool := p.hasAnchor || p.hasTag

def topCtx (p : Parser) : Option CtxEntry := p.contexts.head?

def topFrame (p : Parser) : Option Frame := p.frames.head?

/-- Inside a flow collection?  The incremental parser tracks nesting in its
frame stack, the eager parser in its context stack. -/
def inFlow (p : Parser) : Bool :=
  if p.incremental then (p.topFrame.map (·.type.isFlow)).getD false
  else (p.topCtx.map (·.type.isFlow)).getD false

end Parser

/-- The status a stopped parser reports: `if (p->oom) return OOM_STATUS(p)`. -/
def checkOom : ParseM Unit := do
  let p ← get
  if p.oom then throwStatus p.oomStatus

/-- What every loop of the eager parser checks first. -/
def checkStop : ParseM Unit := do
  checkOom
  if (← get).overLimit then
    modify fun p => p.hitLimit "event limit exceeded"
    throwStatus .limit

/-- `enqueue`; the result says whether the event was stored. -/
def enqueue (evt : Event) : ParseM Bool := do
  let p ← get
  if p.overLimit then
    set (p.hitLimit "event limit exceeded")
    return false
  else
    set { p with events := p.events ++ [{ evt with tag := p.schemaTag evt }] }
    return true

def enqueue' (evt : Event) : ParseM Unit := discard (enqueue evt)

/-- `insert_event`: insert before index `idx` of the event list. -/
def insertEvent (idx : Nat) (evt : Event) : ParseM Bool := do
  if !(← enqueue evt) then return false
  modify fun p =>
    let before := p.events.dropLast
    { p with
      events := before.take idx ++ p.events.getLast?.toList ++ before.drop idx }
  return true

/-- `push_ctx`. -/
def pushCtx (type : CtxType) (indent : Int) : ParseM Unit := do
  let p ← get
  if !type.isFlow && p.docStartLine != 0 &&
      p.current.start.line == p.docStartLine then
    set (p.stopWith .parse "block collection cannot start on the '---' line")
  else if p.maxDepth > 0 && (p.contexts.length : Int) ≥ p.maxDepth then
    set (p.hitLimit "nesting depth limit exceeded")
  else
    set { p with contexts := ⟨type, indent⟩ :: p.contexts }

def popCtx : ParseM Unit := modify fun p => { p with contexts := p.contexts.tail }

/-- `peek_token`. -/
def peekToken : ParseM Unit := do
  let p ← get
  if p.haveToken then return ()
  match scanToken p.scanner with
  | .ok tok scanner =>
      set { p with scanner := scanner, current := tok, haveToken := true }
  | .error st scanner =>
      let p := { p with scanner := scanner }
      let p := if scanner.errorMsg == "" then p else
        { p with errorMsg := scanner.errorMsg, errorMark := scanner.errorMark }
      set { p with scanError := st, scanErrorOut := p.outBuf.length }
      throwStatus st

def consumeToken : ParseM Unit := modify fun p => { p with haveToken := false }

/-- Type of the next token. -/
def peekType : ParseM TokenType := do
  peekToken
  return (← get).tokType

/-- The event for the current scalar or alias token, without properties. -/
def Parser.nodeEvent (p : Parser) (type : EventType) : Event :=
  { type := type
    value := p.current.value
    scalarStyle := if type == .scalar then p.current.scalarStyle else .plain
    start := p.current.start
    stop := p.current.stop }

/-- An event spanning the current token. -/
def Parser.tokenEvent (p : Parser) (type : EventType) : Event :=
  { type := type, start := p.current.start, stop := p.current.stop }

/-- A zero-width event where the current token starts. -/
def Parser.pointEvent (p : Parser) (type : EventType) : Event :=
  { type := type, start := p.current.start, stop := p.current.start }

/-- The start event of a mapping whose first key starts at `mark`. -/
def mapStartAt (mark : Mark) : Event :=
  { type := .mappingStart, start := mark, stop := mark }

/-- `attach_props`. -/
def attachProps (evt : Event) : ParseM Event := do
  let p ← get
  let evt' := { evt with
    anchor := if p.hasAnchor then p.pendingAnchor else evt.anchor
    tag := if p.hasTag then p.pendingTag else evt.tag
    start := if p.hasProps then p.propsStart else evt.start }
  set { p with
    pendingAnchor := if p.hasAnchor then none else p.pendingAnchor
    pendingTag := if p.hasTag then none else p.pendingTag
    hasAnchor := false
    hasTag := false }
  return evt'

/-- Attach the pending properties and store the event. -/
def enqueueWithProps (evt : Event) : ParseM Unit := do
  enqueue' (← attachProps evt)

/-- `emit_empty`. -/
def emitEmpty : ParseM Unit := do
  enqueueWithProps ((← get).pointEvent .scalar)

/-- `unroll_all`: close all block contexts at the top of the stack. -/
def unrollAll (mark : Mark) : Nat → ParseM Unit
  | 0 => pure ()
  | n + 1 => do
      match (← get).topCtx with
      | none => return ()
      | some top =>
          if top.type.isFlow then return ()
          enqueue' {
            type := if top.type == .blockMap then .mappingEnd else .sequenceEnd
            start := mark
            stop := mark }
          popCtx
          unrollAll mark n

end Oyl
