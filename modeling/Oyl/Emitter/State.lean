import Oyl.Emitter.Scalars

/-!
# The emitter

`oyl_emitter.c` from `push_ctx` to `oyl_emit`: the stack of open collections and what each
event writes.  The fields that are never read (`column`, `doc_open`, `wrote_block_key`) are
left out.
-/

namespace Oyl

/-- `emit_ctx_type` -/
inductive EmitCtxType where
  | blockMap
  | blockSeq
  | flowMap
  | flowSeq
  deriving DecidableEq, Repr

namespace EmitCtxType

def isFlow : EmitCtxType → Bool
  | .flowMap | .flowSeq => true
  | .blockMap | .blockSeq => false

def isMap : EmitCtxType → Bool
  | .blockMap | .flowMap => true
  | .blockSeq | .flowSeq => false

end EmitCtxType

/-- `emit_ctx` -/
structure EmitCtx where
  type : EmitCtxType
  indent : Nat := 0
  count : Nat := 0
  expectKey : Bool
  complexKey : Bool := false
  deriving DecidableEq, Repr

/-- `oyl_emit_style` -/
inductive EmitStyle where
  | block
  | flow
  | minimal
  deriving DecidableEq, Repr

/-- `oyl_emitter`; the top of the stack comes first. -/
structure Emitter where
  style : EmitStyle := .block
  indent : Nat := 2
  buf : Bytes := []
  stack : List EmitCtx := []
  firstDoc : Bool := true
  afterSeqDash : Bool := false
  keyWasAlias : Bool := false
  wroteProps : Bool := false
  deriving DecidableEq, Repr

namespace Emitter

/-- `buf_put` and `buf_puts` -/
def puts (e : Emitter) (s : Bytes) : Emitter := { e with buf := e.buf ++ s }

/-- `buf_indent` -/
def putIndent (e : Emitter) (spaces : Nat) : Emitter := e.puts (List.replicate spaces space)

/-- Is the last byte of the buffer another one? -/
def lastIsNot (e : Emitter) (c : UInt8) : Bool := !e.buf.isEmpty && e.buf.getLast? != some c

/-- Is the last byte of the buffer this one? -/
def lastIs (e : Emitter) (c : UInt8) : Bool := e.buf.getLast? == some c

/-- End the line, if it is not at its start. -/
def freshLine (e : Emitter) : Emitter := if e.lastIsNot lf then e.puts [lf] else e

/-- Take back a blank at the end. -/
def dropSpace (e : Emitter) : Emitter :=
  if e.lastIs space then { e with buf := e.buf.dropLast } else e

def pushCtx (e : Emitter) (type : EmitCtxType) (indent : Nat) : Emitter :=
  { e with stack := { type := type, indent := indent, expectKey := type.isMap } :: e.stack }

def topCtx (e : Emitter) : Option EmitCtx := e.stack.head?

def popCtx (e : Emitter) : Emitter := { e with stack := e.stack.tail }

def inAnyFlow (e : Emitter) : Bool := e.stack.any (·.type.isFlow)

def entrySep (e : Emitter) : Bytes := if e.style == .minimal then [comma] else [comma, space]

def kvSep : Bytes := [colon, space]

/-! ### Properties -/

def emitAnchor (e : Emitter) (anchor : Option Bytes) : Emitter :=
  let name := anchor.getD []
  if name.isEmpty then e else e.puts (amp :: name ++ [space])

def hasProps (evt : Event) : Bool :=
  !(evt.anchor.getD []).isEmpty || !(evt.tag.getD []).isEmpty

def emitProps (e : Emitter) (evt : Event) : Emitter :=
  let e := { e with wroteProps := hasProps evt }
  (e.emitAnchor evt.anchor).puts (emitTag (evt.tag.getD []))

def emitBlockCollectionProps (e : Emitter) (evt : Event) (afterKey : Bool) : Emitter :=
  if !hasProps evt then e
  else
    let e := if afterKey then e.puts [space] else e
    (e.emitProps evt).dropSpace

def emitComplexKeyOpen (e : Emitter) (evt : Event) : Emitter :=
  let e := (e.puts [question]).emitBlockCollectionProps evt true
  { e with
    stack := e.stack.modifyHead fun map => { map with complexKey := true }
    afterSeqDash := false }

/-! ### Nodes -/

/-- The blank between an alias key and its `:`. -/
def afterAlias (e : Emitter) : Emitter :=
  if e.keyWasAlias then { e.puts [space] with keyWasAlias := false } else e

/-- What is written before the value of an explicit key. -/
def beforeValue (e : Emitter) (ctx : EmitCtx) : Emitter :=
  if ctx.complexKey then
    let e := e.freshLine.putIndent ctx.indent
    { e with stack := e.stack.modifyHead fun map => { map with complexKey := false } }
  else e

/-- `emit_pre_node` -/
def emitPreNode (e : Emitter) (isCollection : Bool) : Emitter :=
  match e.topCtx with
  | none => e.freshLine
  | some ctx =>
      match ctx.type with
      | .blockMap =>
          if ctx.expectKey then
            if e.afterSeqDash then e
            else if e.lastIsNot lf then (e.puts [lf]).putIndent ctx.indent
            else if !e.buf.isEmpty then e.putIndent ctx.indent
            else e
          else
            (e.beforeValue ctx).afterAlias.puts
              (if isCollection then [colon] else [colon, space])
      | .blockSeq =>
          { (e.freshLine.putIndent ctx.indent).puts [dash, space] with afterSeqDash := true }
      | .flowMap =>
          if ctx.expectKey then if ctx.count > 0 then e.puts e.entrySep else e
          else e.afterAlias.puts kvSep
      | .flowSeq => if ctx.count > 0 then e.puts e.entrySep else e

def EmitCtx.advance (ctx : EmitCtx) : EmitCtx :=
  if ctx.type.isMap then
    if ctx.expectKey then { ctx with expectKey := false }
    else { ctx with expectKey := true, count := ctx.count + 1 }
  else { ctx with count := ctx.count + 1 }

/-- `advance_ctx` -/
def advanceCtx (e : Emitter) : Emitter :=
  if e.stack.isEmpty then e
  else { e with stack := e.stack.modifyHead EmitCtx.advance, afterSeqDash := false }

/-- Is the next node a key of the innermost mapping? -/
def isKey (e : Emitter) : Bool := e.topCtx.any fun ctx => ctx.type.isMap && ctx.expectKey

/-- `emit_scalar` -/
def emitScalar (e : Emitter) (evt : Event) : Emitter :=
  let val := evt.value
  let flowCtx := e.inAnyFlow || e.style != .block
  let indent := e.topCtx.elim e.indent fun ctx => ctx.indent + e.indent
  match chooseStyle evt.scalarStyle val flowCtx e.isKey evt.tag with
  | .plain =>
      if val.isEmpty then
        if e.topCtx.any (·.type == .flowSeq) && !e.wroteProps then e.puts (ascii "~")
        else if !e.wroteProps && !e.isKey then e.dropSpace
        else e
      else e.puts val
  | .singleQuoted => e.puts (emitSingleQuoted val)
  | .doubleQuoted => e.puts (emitDoubleQuoted val)
  | .literal | .folded => e.puts (emitBlockScalar val indent)

/-! ### Collections -/

/-- Is the innermost collection a block mapping whose next node is a key, or a value? -/
def inBlockMap (e : Emitter) (expectKey : Bool) : Bool :=
  e.topCtx.any fun ctx => ctx.type == .blockMap && ctx.expectKey == expectKey

def useFlow (e : Emitter) (evt : Event) : Bool := e.style != .block || evt.flow || e.inAnyFlow

/-- Everything before a collection's first entry, without its opening bracket. -/
def openCollection (e : Emitter) (evt : Event) : Emitter :=
  let useFlow := e.useFlow evt
  let asKey := !useFlow && e.inBlockMap true
  let mapValue := !useFlow && e.inBlockMap false
  let e := e.emitPreNode (!useFlow)
  if asKey then e.emitComplexKeyOpen evt
  else if useFlow then e.emitProps evt
  else e.emitBlockCollectionProps evt mapValue

/-- Enter a collection; the collection around it has one entry more. -/
def enter (e : Emitter) (type : EmitCtxType) (indent : Nat) : Emitter :=
  { (e.advanceCtx.pushCtx type indent) with afterSeqDash := e.afterSeqDash }

/-- The column of a block mapping. -/
def mappingIndent (e : Emitter) : Nat :=
  match e.topCtx with
  | some ctx =>
      if ctx.type == .blockSeq then ctx.indent + 2
      else if ctx.type == .blockMap then ctx.indent + e.indent
      else 0
  | none => 0

/-- The column of a block sequence. -/
def sequenceIndent (e : Emitter) : Nat :=
  match e.topCtx with
  | some ctx => if ctx.type.isFlow then 0 else ctx.indent + e.indent
  | none => 0

def startMapping (e : Emitter) (evt : Event) : Emitter :=
  let useFlow := e.useFlow evt
  let asKey := !useFlow && e.inBlockMap true
  let e := e.openCollection evt
  if useFlow then (e.puts [lbrace]).enter .flowMap 0
  else
    -- properties cannot share the line of the first key
    let e := if !asKey && e.afterSeqDash && hasProps evt then { e with afterSeqDash := false }
      else e
    e.enter .blockMap e.mappingIndent

def startSequence (e : Emitter) (evt : Event) : Emitter :=
  let useFlow := e.useFlow evt
  let e := e.openCollection evt
  if useFlow then (e.puts [lbracket]).enter .flowSeq 0
  else e.enter .blockSeq e.sequenceIndent

/-- The end of a collection: its closing bracket in flow style, both brackets where a block
collection is empty. -/
def endCollection (e : Emitter) (ctx : EmitCtx) (own : EmitCtxType) (opening closing : UInt8) :
    Emitter :=
  let e :=
    if ctx.type == own then e.puts [closing]
    else if ctx.count == 0 then
      let e := if e.lastIsNot space && e.lastIsNot lf then e.puts [space] else e
      e.puts [opening, closing]
    else e
  { e.popCtx with afterSeqDash := false }

/-- `oyl_emit`; `none` is `OYL_ERR_EMIT`, which leaves the emitter as it was. -/
def emit (e : Emitter) (evt : Event) : Option Emitter :=
  match evt.type with
  | .none => none
  | .streamStart => some { e with firstDoc := true }
  | .streamEnd => some e.freshLine
  | .docStart =>
      let e :=
        if !evt.implicit then
          let e := if !e.firstDoc then e.freshLine else e
          e.puts [dash, dash, dash]
        else e
      some { e with firstDoc := false }
  | .docEnd => some (if !evt.implicit then e.freshLine.puts [dot, dot, dot, lf] else e)
  | .mappingStart => some (e.startMapping evt)
  | .mappingEnd => e.topCtx.map fun ctx => e.endCollection ctx .flowMap lbrace rbrace
  | .sequenceStart => some (e.startSequence evt)
  | .sequenceEnd => e.topCtx.map fun ctx => e.endCollection ctx .flowSeq lbracket rbracket
  | .scalar => some ((((e.emitPreNode false).emitProps evt).emitScalar evt).advanceCtx)
  | .alias =>
      let e := e.emitPreNode false
      let e := { e with keyWasAlias := e.isKey }
      some ((e.puts (star :: evt.value)).advanceCtx)

/-! ### Calls -/

/-- A call of the emitter's user. -/
inductive Call where
  | emit (evt : Event)
  | setStyle (style : EmitStyle)
  | setIndent (indent : Int)
  deriving DecidableEq, Repr

/-- One call.  A failed one changes nothing. -/
def call (e : Emitter) : Call → Emitter
  | .emit evt => (e.emit evt).getD e
  | .setStyle style => { e with style := style }
  | .setIndent indent =>
      { e with indent := (if indent < 1 then 1 else if indent > 10 then 10 else indent).toNat }

def calls (e : Emitter) (cs : List Call) : Emitter := cs.foldl call e

end Emitter

end Oyl
