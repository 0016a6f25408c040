import Oyl.Expand.Nodes

/-!
# Alias resolution

`resolve_aliases`: a depth-first search marks the anchors whose node can reach
a reference cycle; the other aliases are replaced by copies of their nodes, in
up to 32 passes over the whole event list.
-/

namespace Oyl

/-- The search's colours `ACYCLE_WHITE`, `ACYCLE_GRAY` and `ACYCLE_BLACK`. -/
inductive Colour where
  | white
  | gray
  | black
  deriving DecidableEq, Repr, Inhabited

/-- The entries that the aliases inside entry `idx`'s node refer to. -/
def aliasTargets (events : List Event) (anchors : List AnchorEntry) (idx : Nat) :
    List Nat :=
  let entry := anchors.getD idx default
  (slice events entry.start entry.stop).filterMap fun evt =>
    if evt.type == .alias then atblLookup anchors evt.value else none

/-- The loop of the search over the targets of a node: whether a target closes
a cycle, and the colours then. -/
def visitTargets (visit : Nat → List Colour → Bool × List Colour) :
    List Nat → List Colour → Bool × List Colour
  | [], colours => (false, colours)
  | k :: rest, colours =>
      match colours.getD k .white with
      | .gray => (true, colours)
      | .black => visitTargets visit rest colours
      | .white =>
          let (found, colours) := visit k colours
          if found then (true, colours) else visitTargets visit rest colours

/-- `alias_has_cycle`, for nodes at most `fuel` deep. -/
def aliasHasCycle (targets : Nat → List Nat) :
    Nat → Nat → List Colour → Bool × List Colour
  | 0, _, colours => (false, colours)
  | fuel + 1, idx, colours =>
      let (found, colours) :=
        visitTargets (aliasHasCycle targets fuel) (targets idx) (colours.set idx .gray)
      if found then (true, colours) else (false, colours.set idx .black)

/-- The loop that starts a search at every white entry. -/
def searchAll (targets : Nat → List Nat) (fuel : Nat) :
    List Nat → List Colour → List Colour
  | [], colours => colours
  | idx :: rest, colours =>
      if colours.getD idx .white == .white then
        searchAll targets fuel rest (aliasHasCycle targets fuel idx colours).2
      else searchAll targets fuel rest colours

/-- The flags `cyclic`: an entry left gray is on or leads to a cycle. -/
def cyclicFlags (events : List Event) (anchors : List AnchorEntry) : List Bool :=
  let n := anchors.length
  (searchAll (aliasTargets events anchors) n (List.range n)
    (List.replicate n .white)).map (· == .gray)

/-- Push one event, an alias that can be resolved as a copy of its node. -/
def resolveEvent (events : List Event) (anchors : List AnchorEntry)
    (cyclic : List Bool) (out : EvtBuf × Bool) (evt : Event) : EvtBuf × Bool :=
  if out.1.oom then out
  else if evt.type == .alias then
    match atblLookup anchors evt.value with
    | none => (out.1.push evt, out.2)
    | some idx =>
        if cyclic.getD idx false then (out.1.push evt, out.2)
        else
          let entry := anchors.getD idx default
          (out.1.pushAll ((slice events entry.start entry.stop).map Event.copy), true)
  else (out.1.push evt, out.2)

/-- One pass: the output, and whether an alias was replaced. -/
def resolvePass (events : List Event) (cyclic : List Bool) (limit : Int) :
    EvtBuf × Bool :=
  events.foldl (resolveEvent events (atblBuild events) cyclic)
    (.init events.length limit, false)

/-- The passes of `resolve_aliases`, at most `n` of them. -/
def resolvePasses (cyclic : List Bool) (limit : Int) : Nat → ParseM Unit
  | 0 => pure ()
  | n + 1 => do
      let p ← get
      let (out, changed) := resolvePass p.events cyclic limit
      if out.oom then expansionFailed out
      else if changed then
        set { p with events := out.data, evtCursor := 0 }
        resolvePasses cyclic limit n

/-- `resolve_aliases` -/
def resolveAliases : ParseM Unit := do
  let p ← get
  let anchors := atblBuild p.events
  if anchors.isEmpty then pure ()
  else
    resolvePasses (cyclicFlags p.events anchors) (p.expansionLimit p.evtLen) 32

/-- `check_eager_depth` over the events from `depth` open collections on. -/
def depthWithin (maxDepth : Int) : Int → List Event → Bool
  | _, [] => true
  | depth, evt :: rest =>
      match evt.type with
      | .mappingStart | .sequenceStart =>
          depth + 1 ≤ maxDepth && depthWithin maxDepth (depth + 1) rest
      | .mappingEnd | .sequenceEnd => depthWithin maxDepth (depth - 1) rest
      | _ => depthWithin maxDepth depth rest

/-- `check_eager_depth` -/
def checkEagerDepth : ParseM Unit := do
  let p ← get
  if p.maxDepth > 0 && !depthWithin p.maxDepth 0 p.events then
    set (p.hitLimit
      (if p.mergeEnabled || p.resolveEnabled then
        "nesting depth limit exceeded after alias/merge expansion"
      else "nesting depth limit exceeded"))
    throwStatus .limit

end Oyl
