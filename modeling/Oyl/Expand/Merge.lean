import Oyl.Expand.Nodes

/-!
# Merge keys

`resolve_merges`: the value of each `<<` key is copied into its mapping, in up
to 32 passes over the whole event list.
-/

namespace Oyl

/-- Where a mapping's entry is: its key and value are the events of
`[keyStart, valStart)` and `[valStart, valEnd)`. -/
structure Entry where
  keyStart : Nat
  valStart : Nat
  valEnd : Nat
  deriving DecidableEq, Repr

/-- The entries from `pos` on of the mapping whose end event is at `stop`, at
most `fuel` of them. -/
def entriesFrom (events : List Event) (stop : Nat) : Nat → Nat → List Entry
  | 0, _ => []
  | fuel + 1, pos =>
      if pos < stop then
        let keyEnd := nodeEnd events pos
        let valEnd := nodeEnd events keyEnd
        ⟨pos, keyEnd, valEnd⟩ :: entriesFrom events stop fuel valEnd
      else []

/-- The entries of the mapping at `[start, stop)`, as each loop over a
mapping's pairs visits them. -/
def entries (events : List Event) (start stop : Nat) : List Entry :=
  entriesFrom events (stop - 1) (stop - 1 - start) (start + 1)

/-- `is_merge_key` -/
def isMergeKey (evt : Event) : Bool :=
  evt.type == .scalar && evt.scalarStyle == .plain && evt.value == [less, less]

/-- The keys of the set, and the output. -/
structure MergeState where
  out : EvtBuf
  seen : List Bytes := []
  deriving DecidableEq, Repr

/-- `kset_add` -/
def ksetAdd (seen : List Bytes) (key : Bytes) : List Bytes :=
  if seen.contains key then seen else seen ++ [key]

/-- Does the entry have a scalar as its key? -/
def Entry.scalarKey (events : List Event) (e : Entry) : Bool :=
  e.valStart - e.keyStart == 1 && (eventAt events e.keyStart).type == .scalar

def Entry.key (events : List Event) (e : Entry) : Event := eventAt events e.keyStart

/-- Copy one entry of a merge source, unless its key was seen. -/
def mergeEntry (events : List Event) (st : MergeState) (e : Entry) : MergeState :=
  let key := (e.key events).value
  if e.scalarKey events && st.seen.contains key then st
  else
    { out := st.out.pushAll ((slice events e.keyStart e.valEnd).map Event.copy)
      seen := if e.scalarKey events then ksetAdd st.seen key else st.seen }

/-- `merge_from_mapping` -/
def mergeFromMapping (events : List Event) (start stop : Nat) (st : MergeState) :
    MergeState :=
  (entries events start stop).foldl (mergeEntry events) st

/-- `merge_source` -/
def mergeSource (events : List Event) (anchors : List AnchorEntry) (pos : Nat)
    (st : MergeState) : Except String MergeState :=
  match (eventAt events pos).type with
  | .mappingStart => .ok (mergeFromMapping events pos (nodeEnd events pos) st)
  | .alias =>
      match atblLookup anchors (eventAt events pos).value with
      | none => .error "merge key refers to an undefined anchor"
      | some idx =>
          let anchor := anchors.getD idx default
          if (eventAt events anchor.start).type != .mappingStart then
            .error "merge key must refer to a mapping"
          else .ok (mergeFromMapping events anchor.start anchor.stop st)
  | _ => .error "merge value must be a mapping or a sequence of mappings"

/-- The sources from `pos` to the sequence's end event at `stop`. -/
def mergeSources (events : List Event) (anchors : List AnchorEntry) (stop : Nat) :
    Nat → Nat → MergeState → Except String MergeState
  | 0, _, st => .ok st
  | fuel + 1, pos, st =>
      if pos < stop then do
        let st ← mergeSource events anchors pos st
        mergeSources events anchors stop fuel (nodeEnd events pos) st
      else .ok st

/-- `process_merge_value` -/
def processMergeValue (events : List Event) (anchors : List AnchorEntry) (e : Entry)
    (st : MergeState) : Except String MergeState :=
  if (eventAt events e.valStart).type != .sequenceStart then
    mergeSource events anchors e.valStart st
  else
    mergeSources events anchors (e.valEnd - 1) (e.valEnd - 1 - e.valStart)
      (e.valStart + 1) st

/-- Process the merge keys of a mapping in order; an error comes with the key
it is about. -/
def processMergeKeys (events : List Event) (anchors : List AnchorEntry) :
    List Entry → MergeState → Except (String × Mark) MergeState
  | [], st => .ok st
  | e :: rest, st =>
      if isMergeKey (e.key events) then
        match processMergeValue events anchors e st with
        | .error msg => .error (msg, (e.key events).start)
        | .ok st => processMergeKeys events anchors rest st
      else processMergeKeys events anchors rest st

/-- Rebuild the mapping at `[start, stop)`: explicit entries first, then those
of its merge sources whose keys are new. -/
def rebuildMapping (events : List Event) (anchors : List AnchorEntry)
    (start stop : Nat) (out : EvtBuf) : Except (String × Mark) EvtBuf := do
  let all := entries events start stop
  let explicit := all.filter fun e => !isMergeKey (e.key events)
  let seen := (explicit.filter (·.scalarKey events)).foldl
    (fun seen e => ksetAdd seen (e.key events).value) []
  let out := out.push (eventAt events start)
  let out := explicit.foldl
    (fun out e => out.pushAll (slice events e.keyStart e.valEnd)) out
  let st ← processMergeKeys events anchors all { out := out, seen := seen }
  return st.out.push (eventAt events (stop - 1))

/-- One pass over the events from `i` on: the output, and whether a mapping
was rebuilt. -/
def mergePassFrom (events : List Event) (anchors : List AnchorEntry) :
    Nat → Nat → EvtBuf → Bool → Except (String × Mark) (EvtBuf × Bool)
  | 0, _, out, changed => .ok (out, changed)
  | fuel + 1, i, out, changed =>
      if i < events.length && !out.oom then
        let evt := eventAt events i
        let stop := nodeEnd events i
        if evt.type == .mappingStart &&
            (entries events i stop).any fun e => isMergeKey (e.key events) then do
          let out ← rebuildMapping events anchors i stop out
          mergePassFrom events anchors fuel stop out true
        else mergePassFrom events anchors fuel (i + 1) (out.push evt) changed
      else .ok (out, changed)

def mergePass (events : List Event) (limit : Int) :
    Except (String × Mark) (EvtBuf × Bool) :=
  mergePassFrom events (atblBuild events) events.length 0 (.init events.length limit)
    false

/-- The passes of `resolve_merges`, at most `n` of them. -/
def mergePasses (limit : Int) : Nat → ParseM Unit
  | 0 => pure ()
  | n + 1 => do
      let p ← get
      match mergePass p.events limit with
      | .error (msg, mark) =>
          set { p with errorMsg := msg, errorMark := mark }
          throwStatus .parse
      | .ok (out, changed) =>
          if out.oom then expansionFailed out
          else if changed then
            set { p with events := out.data, evtCursor := 0 }
            mergePasses limit n

/-- `MAX_MERGE_PASSES` -/
def maxMergePasses : Nat := 32

/-- `resolve_merges` -/
def resolveMerges : ParseM Unit := do
  let p ← get
  mergePasses (p.expansionLimit p.evtLen) maxMergePasses

end Oyl
