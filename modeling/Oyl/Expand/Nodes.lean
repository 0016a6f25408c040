import Oyl.Parser.State

/-!
# Event nodes, anchor tables and output buffers

What merge expansion and alias resolution share: the extent of a node in an
event list, the table of the anchored nodes, and the bounded output buffer.
-/

namespace Oyl

/-- Index just past the event that closes the collection of type `start` that
is open `depth` deep, in the events from index `j` on. -/
def findClose (start close : EventType) : Nat → Nat → List Event → Option Nat
  | _, _, [] => none
  | depth, j, evt :: rest =>
      if evt.type == start then findClose start close (depth + 1) (j + 1) rest
      else if evt.type == close then
        if depth == 1 then some (j + 1)
        else findClose start close (depth - 1) (j + 1) rest
      else findClose start close depth (j + 1) rest

/-- The event type that closes a collection. -/
def EventType.closing : EventType → EventType
  | .mappingStart => .mappingEnd
  | .sequenceStart => .sequenceEnd
  | _ => .none

def EventType.opens : EventType → Bool
  | .mappingStart | .sequenceStart => true
  | _ => false

def eventAt (events : List Event) (idx : Nat) : Event :=
  events.getD idx { type := .none }

/-- `node_end`: exclusive end of the node at `idx`. -/
def nodeEnd (events : List Event) (idx : Nat) : Nat :=
  let type := (eventAt events idx).type
  if type.opens then
    (findClose type type.closing 1 (idx + 1) (events.drop (idx + 1))).getD (idx + 1)
  else idx + 1

/-- The events of `[start, stop)`. -/
def slice (events : List Event) (start stop : Nat) : List Event :=
  (events.drop start).take (stop - start)

/-- `merge_anchor` -/
structure AnchorEntry where
  name : Bytes
  start : Nat
  stop : Nat
  deriving DecidableEq, Repr, Inhabited

/-- An anchor that names something. -/
def Event.anchorName (evt : Event) : Option Bytes :=
  match evt.anchor with
  | some (c :: name) => some (c :: name)
  | _ => none

/-- `atbl_build`: the anchored nodes in document order. -/
def atblBuild (events : List Event) : List AnchorEntry :=
  (List.range events.length).filterMap fun i =>
    (eventAt events i).anchorName.map fun name =>
      { name := name, start := i, stop := nodeEnd events i }

/-- `atbl_lookup`: index of the latest entry with this name. -/
def atblLookup (entries : List AnchorEntry) (name : Bytes) : Option Nat :=
  (List.range entries.length).reverse.find? fun i =>
    (entries.getD i default).name == name

/-- `evt_buf`; allocation does not fail, but a capacity above half of the range of
`int` cannot grow. -/
structure EvtBuf where
  data : List Event := []
  cap : Int
  limit : Int
  oom : Bool := false
  limited : Bool := false
  deriving DecidableEq, Repr

namespace EvtBuf

/-- `ebuf_init` for a pass over `evtLen` events. -/
def init (evtLen : Nat) (limit : Int) : EvtBuf :=
  { cap := max (asInt (evtLen * 2)) 64, limit := limit }

/-- `ebuf_push` -/
def push (b : EvtBuf) (evt : Event) : EvtBuf :=
  if b.oom then b
  else if b.limit > 0 && (b.data.length : Int) ≥ b.limit then
    { b with oom := true, limited := true }
  else if (b.data.length : Int) ≥ b.cap then
    if b.cap > intMax / 2 then { b with oom := true }
    else { b with data := b.data ++ [evt], cap := b.cap * 2 }
  else { b with data := b.data ++ [evt] }

/-- `ebuf_push_range` -/
def pushAll (b : EvtBuf) (events : List Event) : EvtBuf := events.foldl push b

end EvtBuf

/-- A copy of an event carries no anchor: it is not a new definition. -/
def Event.copy (evt : Event) : Event := { evt with anchor := none }

/-- `expansion_limit`: what the event limit leaves, or a multiple of the
unexpanded list. -/
def Parser.expansionLimit (p : Parser) (unexpanded : Nat) : Int :=
  if p.maxEvents > 0 then
    if p.maxEvents - p.evtBase > 1 then p.maxEvents - p.evtBase else 1
  else
    let limit : Int := unexpanded * 16 + 100000
    if limit > intMax / 2 then intMax / 2 else limit

/-- `expansion_failed` -/
def expansionFailed (b : EvtBuf) : ParseM Unit :=
  if !b.limited then throwStatus .memory
  else do
    modify fun p => p.hitLimit "alias/merge expansion exceeds the event limit"
    throwStatus .limit

end Oyl
