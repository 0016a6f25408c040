import Oyl.Parser.State

/-!
# Tags and node properties

Tag handles and percent-decoding, and the loop that collects the anchor and
the tag of the next node.
-/

namespace Oyl

/-- `hex_val`; `none` for a byte that is no hexadecimal digit. -/
def hexVal (c : UInt8) : Option UInt8 :=
  if 0x30 ≤ c && c ≤ 0x39 then some (c - 0x30)
  else if 0x61 ≤ c && c ≤ 0x66 then some (c - 0x61 + 10)
  else if 0x41 ≤ c && c ≤ 0x46 then some (c - 0x41 + 10)
  else none

/-- `pct_decode`: decode `%XX`. -/
def pctDecode : Bytes → Bytes
  | 0x25 :: hi :: lo :: rest =>
      match hexVal hi, hexVal lo with
      | some hi, some lo => (hi <<< 4 ||| lo) :: pctDecode rest
      | _, _ => 0x25 :: pctDecode (hi :: lo :: rest)
  | c :: rest => c :: pctDecode rest
  | [] => []

/-- Length of the handle `!name!` that starts `raw`, found by its second `!`. -/
def namedHandleLen (raw : Bytes) : Option Nat :=
  ((raw.drop 1).findIdx? (· == bang)).map (· + 2)

/-- `expand_tag`. -/
def expandTag (directives : List TagDirective) (raw : Bytes) : Bytes :=
  if raw.head? != some bang then raw
  else if raw.length ≥ 3 && raw[1]? == some less && raw.getLast? == some greater then
    pctDecode ((raw.drop 2).dropLast)
  else
    let handleLen :=
      if raw[1]? == some bang then 2
      else if raw.length ≥ 3 then (namedHandleLen raw).getD 1
      else 1
    match directives.find? (·.handle == raw.take handleLen) with
    | some directive => directive.expansion ++ pctDecode (raw.drop handleLen)
    | none =>
        if raw[1]? == some bang then
          ascii "tag:yaml.org,2002:" ++ pctDecode (raw.drop 2)
        else raw

/-- `tag_handle_declared`. -/
def tagHandleDeclared (directives : List TagDirective) (raw : Bytes) : Bool :=
  if raw.length < 3 || raw.head? != some bang || raw[1]? == some bang ||
      raw[1]? == some less then true
  else
    match namedHandleLen raw with
    | none => true
    | some len => directives.any (·.handle == raw.take len)

namespace Parser

/-- Column of the enclosing collection in the eager parser's context stack. -/
def parentIndent (p : Parser) : Int := (p.topCtx.map (·.indent)).getD (-1)

/-- `props_continuation_ok`. -/
def propsContinuationOk (p : Parser) : Bool :=
  !p.hasProps || p.current.start.line == p.propsLine || p.inFlow ||
    p.tokCol > p.parentIndent

/-- `prop_starts_node_line`: does the current property token have content
after it on its line? -/
def propStartsNodeLine (p : Parser) : Bool :=
  match (p.input.drop p.current.stop.offset).dropWhile isBlank with
  | [] => false
  | c :: _ => !isBreak c && c != hash

/-- Does a property on a new line start the properties of a node of its own? -/
def propStartsInnerNode (p : Parser) (had : Bool) : Bool :=
  had && p.current.start.line != p.propsLine && !p.inFlow && p.propStartsNodeLine

/-- Record where the node's properties start. -/
def startProps (p : Parser) : Parser :=
  { p with
    propsLine := p.current.start.line
    propsCol := p.tokCol
    propsStart := p.current.start }

def takeAnchor (p : Parser) : Parser :=
  let p := if p.hasTag then p else p.startProps
  { p with pendingAnchor := some p.current.value, hasAnchor := true,
           haveToken := false }

def takeTag (p : Parser) : Parser :=
  let p := if p.hasAnchor then p else p.startProps
  { p with pendingTag := some (expandTag p.tagDirectives p.current.value),
           hasTag := true, haveToken := false }

end Parser

/-- One round of the `consume_props` loop: whether a property was taken. -/
def consumeProp : ParseM Bool := do
  peekToken
  let p ← get
  let wanted := (p.tokType == .anchor && !p.hasAnchor) ||
    (p.tokType == .tag && !p.hasTag)
  if wanted && !p.propsContinuationOk then return false
  else if p.tokType == .anchor && !p.hasAnchor then
    if p.propStartsInnerNode p.hasTag then return false
    else
      set p.takeAnchor
      return true
  else if p.tokType == .tag && !p.hasTag then
    if p.propStartsInnerNode p.hasAnchor then return false
    else
      let p := if p.hasAnchor then p else p.startProps
      set p
      if !tagHandleDeclared p.tagDirectives p.current.value then
        parseError "undefined tag handle"
      else
        set p.takeTag
        return true
  else return false

/-- `consume_props`: at most one anchor and one tag, so three rounds. -/
def consumeProps : ParseM Unit := do
  if ← consumeProp then
    if ← consumeProp then
      discard consumeProp
  let p ← get
  if p.hasProps && p.tokType == .alias &&
      (p.current.start.line == p.propsLine || p.inFlow) then
    parseError "an alias cannot have an anchor or tag"

/-- `move_props_to_key_map`: the flow collection at index `idx` turned out to
be a key, and the properties written on an earlier line go to the mapping. -/
def movePropsToKeyMap (idx : Nat) (mapEvt : Event) (collStart : Mark)
    (anchor tag : Option Bytes) : ParseM Event := do
  modify fun p =>
    { p with
      events := p.events.modify idx fun coll =>
        { coll with
          anchor := none
          tag := match p.schema with
            | none => none
            | some schema =>
                if coll.type == .mappingStart then schema.defaultMapTag
                else schema.defaultSeqTag
          start := collStart } }
  return { mapEvt with anchor := anchor, tag := tag }

/-- `ensure_doc` -/
def ensureDoc (explicit : Bool) (mark : Mark) : ParseM Unit := do
  if !(← get).docOpen then
    enqueue' { type := .docStart, implicit := !explicit, start := mark, stop := mark }
    modify fun p => { p with docOpen := true }

end Oyl
