import Oyl.Parser.Document
import Oyl.Parser.Incremental
import Oyl.Expand.Bind
import Oyl.Expand.Merge
import Oyl.Expand.Resolve

/-!
# The event interface

`oyl_parse_next`: events come from the incremental parser until it meets
something it leaves to the eager one, which then starts again at a checkpoint
and skips what was delivered.
-/

namespace Oyl

/-- The parser's settings, each with the setter that makes it eager. -/
structure Options where
  schema : Option Schema := none
  merge : Bool := false
  resolve : Bool := false
  maxEvents : Int := 10000
  maxDepth : Int := 256
  deriving DecidableEq, Repr

/-- `oyl_parser_set_schema` and the other setters, on a new parser. -/
def Parser.configure (p : Parser) (o : Options) : Parser :=
  { p with
    schema := o.schema
    mergeEnabled := o.merge
    resolveEnabled := o.resolve
    maxEvents := o.maxEvents
    maxDepth := o.maxDepth
    incremental := p.incremental && o.schema.isNone && !o.merge && !o.resolve }

/-- The signature after one more event. -/
def sigStep (sig : UInt64) (evt : Event) : UInt64 :=
  sig * 31 + UInt64.ofNat evt.type.toNat

/-- The loop of `pow31`. -/
def pow31Loop : Nat → Nat → UInt64 → UInt64 → UInt64
  | 0, _, r, _ => r
  | fuel + 1, n, r, b =>
      if n == 0 then r
      else pow31Loop fuel (n / 2) (if n % 2 == 1 then r * b else r) (b * b)

/-- `pow31`: 31 to the power `n`, modulo 2 to the 64. -/
def pow31 (n : Nat) : UInt64 := pow31Loop n n 1 31

/-- `skip_delivered` -/
def skipDelivered : ParseM Unit := do
  let p ← get
  let n := min p.skipN p.evtLen
  let got := (p.events.take n).foldl sigStep p.skipGot
  let p := { p with skipGot := got, evtCursor := n, skipN := p.skipN - n }
  set p
  if (p.skipN == 0 && got != p.skipSig) || (p.skipN > 0 && p.streamEnded) then
    set { p with streamEnded := true }
    parseError ("input not supported by the incremental parser (please report); " ++
      "parse with merge keys or alias resolution enabled")

/-- What `eager_next_event` does with a document that was just parsed. -/
def expandDocument : ParseM Unit := do
  let p ← get
  if p.mergeEnabled || p.resolveEnabled then set p.bindAnchors
  if p.mergeEnabled then resolveMerges
  if p.resolveEnabled then resolveAliases
  if p.mergeEnabled || p.resolveEnabled then modify Parser.unbindAnchors
  checkEagerDepth

/-- One round of the `eager_next_event` loop: the next document's events. -/
def eagerRefill (r : Eager) : ParseM Unit := do
  modify fun p => { p with evtBase := p.evtBase + p.evtLen, events := [], evtCursor := 0 }
  parseStream r
  expandDocument
  if (← get).skipN > 0 then skipDelivered

/-- `eager_next_event`, for at most `fuel` documents and nested calls; `none`
is the event of type `NONE` after the end. -/
def eagerNextEvent (r : Eager) : Nat → ParseM (Option Event)
  | 0 => throw .fuel
  | fuel + 1 => do
      let p ← get
      match p.events[p.evtCursor]? with
      | some evt =>
          set { p with evtCursor := p.evtCursor + 1 }
          return some evt
      | none =>
          if p.streamEnded then return none
          else
            eagerRefill r
            eagerNextEvent r fuel

/-- Fall back to the eager parser, from the checkpoint if there is one. -/
def Parser.fallBack (p : Parser) : Parser :=
  let q := { p with
    incremental := false
    state := .done
    streamStarted := p.ckpt.isSome
    streamEnded := false
    docOpen := false
    events := []
    evtCursor := 0
    contexts := []
    hasAnchor := false
    hasTag := false
    pendingAnchor := none
    pendingTag := none
    oom := false
    stopStatus := .ok
    eventsDelivered := 0
    ckpt := none
    skipGot := 0 }
  match p.ckpt with
  | some scanner =>
      let skip := p.eventsDelivered - p.ckptDelivered
      { q with
        scanner := scanner
        current := p.ckptTok
        haveToken := p.ckptHaveTok
        evtBase := p.ckptDelivered
        skipN := skip
        skipSig := p.deliveredSig - p.ckptSig * pow31 skip }
  | none =>
      { q with
        scanner := Scanner.new p.input
        haveToken := false
        evtBase := 0
        skipN := p.eventsDelivered
        skipSig := p.deliveredSig }

/-- Deliver the next buffered event of the incremental parser. -/
def takeQueued (evt : Event) : ParseM (Option Event) := do
  modify fun p =>
    let last := p.outBuf.length ≤ p.outCursor + 1
    { p with
      outBuf := if last then [] else p.outBuf
      outCursor := if last then 0 else p.outCursor + 1
      eventsDelivered := p.eventsDelivered + 1
      deliveredSig := sigStep p.deliveredSig evt }
  return some evt

/-- What follows one step of the incremental parser. -/
inductive StepResult where
  | more
  | queued
  | fallBack
  | finished
  | failed (st : Status)
  deriving DecidableEq, Repr

/-- One round of the loop in `next_event`: a step, and what to do next. -/
def incRound : ParseM StepResult := fun p =>
  let finish (p : Parser) (st : Status) : EStateM.Result Stop Parser StepResult :=
    if p.scanError != .ok then
      -- only what was queued before the scanner's error is kept
      let p := { p with outBuf := p.outBuf.take p.scanErrorOut }
      .ok (if p.outBuf.isEmpty then .failed p.scanError else .queued) p
    else if st != .ok then .ok (.failed st) p
    else if p.oom then
      .ok (if p.outBuf.isEmpty then .failed p.oomStatus else .queued) p
    else if p.state == .eagerDrain then .ok .fallBack p
    else if !p.outBuf.isEmpty then .ok .queued p
    else .ok (if p.state == .done then .finished else .more) p
  match parserStep p with
  | .ok () p => finish p .ok
  | .error (.status st) p => finish p st
  | .error .fuel p => .error .fuel p

/-- The loop of `next_event`: steps until there is output. -/
def incSteps (eagerFuel : Nat) : Nat → ParseM (Option Event)
  | 0 => throw .fuel
  | fuel + 1 => do
      match ← incRound with
      | .more => incSteps eagerFuel fuel
      | .queued =>
          match (← get).outBuf.head? with
          | some evt => takeQueued evt
          | none => return none
      | .fallBack =>
          modify Parser.fallBack
          eagerNextEvent (eager eagerFuel) eagerFuel
      | .finished => return none
      | .failed st => throwStatus st

/-- `next_event`, hence `oyl_parse_next`. -/
def nextEvent (fuel : Nat) : ParseM (Option Event) := do
  let p ← get
  if !p.incremental then eagerNextEvent (eager fuel) fuel
  else
    match p.outBuf[p.outCursor]? with
    | some evt => takeQueued evt
    | none =>
        if p.state == .done then return none
        else if p.scanError != .ok then throwStatus p.scanError
        else
          set { p with outBuf := [], outCursor := 0 }
          incSteps fuel fuel

/-- How a run of `oyl_parse_next` calls ended. -/
inductive RunEnd where
  | streamEnd
  | noEvent
  | failed (st : Status)
  | fuel
  deriving DecidableEq, Repr

/-- Call `oyl_parse_next` until the end of the stream, an error, or the model's
fuel is spent: the delivered events and how the run ended. -/
def runFrom (callFuel : Nat) : Nat → Parser → List Event × RunEnd
  | 0, _ => ([], .fuel)
  | fuel + 1, p =>
      match nextEvent callFuel p with
      | .ok (some evt) p =>
          if evt.type == .streamEnd then ([evt], .streamEnd)
          else
            let (rest, stop) := runFrom callFuel fuel p
            (evt :: rest, stop)
      | .ok none _ => ([], .noEvent)
      | .error (.status st) _ => ([], .failed st)
      | .error .fuel _ => ([], .fuel)

/-- Parse `input` with the given options. -/
def run (fuel : Nat) (o : Options) (input : Bytes) : List Event × RunEnd :=
  runFrom fuel fuel ((Parser.new input).configure o)

end Oyl
