import Oyl.Expand.Nodes

/-!
# Anchor binding

An alias refers to the most recent node with that anchor before it in the same
document.  Before expansion every definition gets a unique internal name and
each alias the name of its definition; afterwards the original names return.
-/

namespace Oyl

/-- The decimal digits of a serial number. -/
def decimal (n : Nat) : Bytes := (Nat.toDigits 10 n).map fun c => UInt8.ofNat c.toNat

/-- The internal name of the anchor `name` with serial number `serial`. -/
def boundName (name : Bytes) (serial : Nat) : Bytes := name ++ 0 :: decimal serial

/-- What binding keeps while it walks the events: the definitions of the
current document, and the original names with index 0 unused. -/
structure BindState where
  slots : List (Bytes × Bytes) := []
  names : List Bytes := [[]]
  deriving DecidableEq, Repr

/-- Give an anchored event its internal name and record the definition. -/
def bindAnchor (st : BindState) (evt : Event) : Event × BindState :=
  match evt.anchorName with
  | none => (evt, st)
  | some name =>
      let bound := boundName name st.names.length
      ({ evt with anchor := some bound },
        { slots := (name, bound) :: st.slots, names := st.names ++ [name] })

/-- Point an alias at its definition. -/
def bindAlias (st : BindState) (evt : Event) : Event :=
  if evt.type == .alias then
    match st.slots.lookup evt.value with
    | some bound => { evt with value := bound }
    | none => evt
  else evt

def bindEvent (st : BindState) (evt : Event) : Event × BindState :=
  if evt.type == .docStart then (evt, { st with slots := [] })
  else
    let (evt, st) := bindAnchor st evt
    (bindAlias st evt, st)

def bindEvents (st : BindState) : List Event → List Event × BindState
  | [] => ([], st)
  | evt :: rest =>
      let (evt, st) := bindEvent st evt
      let (rest, st) := bindEvents st rest
      (evt :: rest, st)

/-- `bind_anchors` -/
def Parser.bindAnchors (p : Parser) : Parser :=
  if p.events.all (·.anchorName.isNone) then p
  else
    let (events, st) := bindEvents {} p.events
    { p with events := events, boundNames := some st.names }

/-- The value of a run of decimal digits, as `strtoul` reads it. -/
def decimalValue (digits : Bytes) : Nat :=
  (digits.takeWhile isDigit).foldl (fun n c => n * 10 + (c.toNat - 48)) 0

/-- `unbind_name` -/
def unbindName (names : List Bytes) (name : Bytes) : Bytes :=
  match name.dropWhile (· != 0) with
  | [] => name
  | _ :: digits => names.getD (decimalValue digits) []

def unbindEvent (names : List Bytes) (evt : Event) : Event :=
  { evt with
    anchor := evt.anchor.map (unbindName names)
    value := if evt.type == .alias then unbindName names evt.value else evt.value }

/-- `unbind_anchors` -/
def Parser.unbindAnchors (p : Parser) : Parser :=
  match p.boundNames with
  | none => p
  | some names =>
      { p with events := p.events.map (unbindEvent names), boundNames := none }

end Oyl
