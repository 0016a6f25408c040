import Oyl.Events.EagerFrame
import Oyl.Events.Grammar

/-!
# From tokens to events

What the data of tokens and events are, and how the elementary steps of the
parsers carry them: tokens that were scanned are ahead, consumed into events,
or, for properties, pending.
-/

namespace Oyl

open StateError

/-- What a token or an event can carry. -/
inductive Datum where
  | value
  | anchor
  | tag
  deriving DecidableEq, Repr

/-- The data of an event; an empty plain scalar says nothing. -/
def Event.data (kind : Datum) (evt : Event) : List Bytes :=
  match kind with
  | .value =>
      if evt.type == .alias || (evt.type == .scalar &&
          !(evt.scalarStyle == .plain && evt.value.isEmpty)) then [evt.value] else []
  | .anchor => evt.anchor.toList
  | .tag => evt.tag.toList

/-- The data of a token, a tag as it is expanded. -/
def Token.data (kind : Datum) (directives : List TagDirective) (tok : Token) : List Bytes :=
  match kind with
  | .value =>
      if tok.type == .alias || (tok.type == .scalar &&
          !(tok.scalarStyle == .plain && tok.value.isEmpty)) then [tok.value] else []
  | .anchor => if tok.type == .anchor then [tok.value] else []
  | .tag => if tok.type == .tag then [expandTag directives tok.value] else []

/-- The tokens that a scanner returns on its way to another state. -/
inductive Scans : Scanner → List Token → Scanner → Prop
  | nil (s : Scanner) : Scans s [] s
  | cons {s next last : Scanner} {tok : Token} {toks : List Token} :
      scanToken s = .ok tok next → Scans next toks last → Scans s (tok :: toks) last

theorem Scans.trans {first next last : Scanner} {left right : List Token}
    (before : Scans first left next) (after : Scans next right last) :
    Scans first (left ++ right) last := by
  induction before with
  | nil => exact after
  | cons scanned _ ih => exact .cons scanned (ih after)

namespace Parser

/-- The token that was scanned and not consumed. -/
def ahead (p : Parser) : List Token := if p.haveToken then [p.current] else []

/-- The data of the pending properties. -/
def pendingData (p : Parser) : Datum → List Bytes
  | .value => []
  | .anchor => if p.hasAnchor then p.pendingAnchor.toList else []
  | .tag => if p.hasTag then p.pendingTag.toList else []

/-- An event as it is stored, with its tag from the schema. -/
def tagged (p : Parser) (evt : Event) : Event := { evt with tag := p.schemaTag evt }

/-- The part of the state that parsing a node leaves unchanged. -/
def fixed (p : Parser) : Parser :=
  { p with
    scanner := Scanner.new []
    current := {}
    haveToken := false
    events := []
    contexts := []
    pendingAnchor := none
    pendingTag := none
    hasAnchor := false
    hasTag := false
    propsLine := 0
    propsCol := 0
    propsStart := ⟨0, 0, 0⟩
    errorMsg := ""
    errorMark := ⟨0, 0, 0⟩
    oom := false
    stopStatus := .ok
    scanError := .ok
    scanErrorOut := 0 }

/-- The flags say which properties are pending. -/
def PropsTidy (p : Parser) : Prop :=
  p.hasAnchor = p.pendingAnchor.isSome ∧ p.hasTag = p.pendingTag.isSome

/-- The eager parser is in a flow collection. -/
def Flowing (p : Parser) : Prop := p.incremental = false ∧ p.inFlow = true

/-- The eager parser may parse a block node. -/
def Ready (p : Parser) : Prop := p.incremental = false ∧ p.PropsTidy

end Parser

/-- Between `p` and `p'`, `data` went into events. -/
def Conveys (kind : Datum) (p p' : Parser) (data : List Bytes) : Prop :=
  ∃ toks log, Scans p.scanner toks p'.scanner ∧ p.ahead ++ toks = log ++ p'.ahead ∧
    p.pendingData kind ++ log.flatMap (Token.data kind p.tagDirectives) =
      data ++ p'.pendingData kind

namespace Conveys

variable {kind : Datum} {p q p' : Parser} {data more : List Bytes}

theorem trans (first : Conveys kind p q data) (second : Conveys kind q p' more)
    (directives : q.tagDirectives = p.tagDirectives) :
    Conveys kind p p' (data ++ more) := by
  obtain ⟨toks, log, scans, tokens, carried⟩ := first
  obtain ⟨toks', log', scans', tokens', carried'⟩ := second
  refine ⟨toks ++ toks', log ++ log', scans.trans scans', ?_, ?_⟩
  · rw [← List.append_assoc, tokens, List.append_assoc, tokens', List.append_assoc]
  · rw [List.flatMap_append, ← List.append_assoc, carried, List.append_assoc,
      ← directives, carried', List.append_assoc]

/-- A step that neither scans, consumes nor touches properties. -/
theorem stay (scanner : p'.scanner = p.scanner) (tokens : p'.ahead = p.ahead)
    (pending : p'.pendingData kind = p.pendingData kind) : Conveys kind p p' [] :=
  ⟨[], [], scanner ▸ .nil _, by rw [tokens]; simp, by rw [pending]; simp⟩

theorem refl (p : Parser) : Conveys kind p p [] := .stay rfl rfl rfl

/-- Consume the current token, unless it is a property. -/
theorem consume (have' : p.haveToken = true)
    (plain : p.tokType ≠ .anchor ∧ p.tokType ≠ .tag) (scanner : p'.scanner = p.scanner)
    (tokens : p'.ahead = []) (pending : p'.pendingData kind = p.pendingData kind) :
    Conveys kind p p' (Token.data kind p.tagDirectives p.current) := by
  refine ⟨[], [p.current], scanner ▸ .nil _, ?_, ?_⟩
  · rw [tokens, Parser.ahead, have']
    rfl
  rw [pending, List.flatMap_singleton]
  cases kind with
  | value => simp [Parser.pendingData]
  | anchor =>
      have notAnchor : ¬ p.current.type = .anchor := plain.1
      simp [Token.data, notAnchor]
  | tag =>
      have notTag : ¬ p.current.type = .tag := plain.2
      simp [Token.data, notTag]

/-- The pending properties go into an event. -/
theorem attach (scanner : p'.scanner = p.scanner) (tokens : p'.ahead = p.ahead)
    (none : p'.hasAnchor = false ∧ p'.hasTag = false) :
    Conveys kind p p' (p.pendingData kind) := by
  refine ⟨[], [], scanner ▸ .nil _, by rw [tokens]; simp, ?_⟩
  cases kind <;> simp [Parser.pendingData, none.1, none.2]

end Conveys

/-- Between `p` and `p'` the events `raw` were added. -/
structure Adds (kind : Datum) (p p' : Parser) (raw : List Event) : Prop where
  fixed : p'.fixed = p.fixed
  events : p'.events = p.events ++ raw.map p.tagged
  tidy : p.PropsTidy → p'.PropsTidy
  conveys : Conveys kind p p' (raw.flatMap (Event.data kind))

/-! ### The fixed part -/

section

variable {p p' : Parser} (same : p'.fixed = p.fixed)

include same

theorem Parser.of_fixed {α : Type} (field : Parser → α) (kept : ∀ q, field q.fixed = field q) :
    field p' = field p := by
  rw [← kept p', same, kept p]

theorem Parser.fixed_tagged : p'.tagged = p.tagged := by
  have schema : p'.schema = p.schema := Parser.of_fixed same (·.schema) fun _ => rfl
  funext evt
  simp [Parser.tagged, Parser.schemaTag, schema]

theorem Parser.fixed_tagDirectives : p'.tagDirectives = p.tagDirectives :=
  Parser.of_fixed same (·.tagDirectives) fun _ => rfl

theorem Parser.fixed_inFlow (contexts : p'.contexts = p.contexts) : p'.inFlow = p.inFlow := by
  have incremental : p'.incremental = p.incremental := Parser.of_fixed same
      (·.incremental) fun _ => rfl
  have frames : p'.frames = p.frames := Parser.of_fixed same (·.frames) fun _ => rfl
  simp [Parser.inFlow, Parser.topFrame, Parser.topCtx, incremental, frames, contexts]

theorem Parser.fixed_incremental : p'.incremental = p.incremental :=
  Parser.of_fixed same (·.incremental) fun _ => rfl

theorem Parser.Flowing.of_fixed (contexts : p'.contexts = p.contexts) (flowing : p.Flowing) :
    p'.Flowing :=
  ⟨(Parser.fixed_incremental same).trans flowing.1,
    (Parser.fixed_inFlow same contexts).trans flowing.2⟩

end

namespace Adds

variable {kind : Datum} {p q p' : Parser} {raw more : List Event}

theorem refl (p : Parser) : Adds kind p p [] := ⟨rfl, by simp, id, .refl p⟩

theorem trans (first : Adds kind p q raw) (second : Adds kind q p' more) :
    Adds kind p p' (raw ++ more) where
  fixed := second.fixed.trans first.fixed
  events := by
    rw [second.events, first.events, Parser.fixed_tagged first.fixed, List.map_append,
      List.append_assoc]
  tidy tidy := second.tidy (first.tidy tidy)
  conveys := by
    rw [List.flatMap_append]
    exact first.conveys.trans second.conveys (Parser.fixed_tagDirectives first.fixed)

/-- First some steps that add nothing. -/
theorem after (first : Adds kind p q []) (second : Adds kind q p' raw) : Adds kind p p' raw :=
  first.trans second

/-- Then some steps that add nothing. -/
theorem before (first : Adds kind p q raw) (second : Adds kind q p' []) :
    Adds kind p p' raw := by
  have whole := first.trans second
  rwa [List.append_nil] at whole

theorem ready (adds : Adds kind p p' raw) (ready : p.Ready) : p'.Ready :=
  ⟨(Parser.fixed_incremental adds.fixed).trans ready.1, adds.tidy ready.2⟩

end Adds

/-! ### Stopping -/

/-- Once the parser has stopped it stays so. -/
def Live (p p' : Parser) : Prop := p'.oom = false → p.oom = false

theorem live_stopWith (p : Parser) (st : Status) (msg : String) : Live p (p.stopWith st msg) := by
  intro fine
  simp only [Parser.stopWith] at fine
  split at fine <;> cases fine

theorem fixed_stopWith (p : Parser) (st : Status) (msg : String) :
    (p.stopWith st msg).fixed = p.fixed := by
  simp only [Parser.stopWith]
  split <;> rfl

theorem pushCtx_run (p : Parser) (type : CtxType) (indent : Int) :
    pushCtx type indent p = .ok ⟨⟩
      (if !type.isFlow && p.docStartLine != 0 && p.current.start.line == p.docStartLine then
        p.stopWith .parse "block collection cannot start on the '---' line"
      else if p.maxDepth > 0 && (p.contexts.length : Int) ≥ p.maxDepth then
        p.hitLimit "nesting depth limit exceeded"
      else { p with contexts := ⟨type, indent⟩ :: p.contexts }) := by
  simp only [pushCtx, run_bind, run_get]
  split
  · rfl
  split <;> rfl

/-- What the node functions keep: the fixed part, and a stop. -/
def Steady (p p' : Parser) : Prop := p'.fixed = p.fixed ∧ Live p p'

theorem steady_nodeFrame : NodeFrame Steady where
  refl p := ⟨rfl, id⟩
  trans first second :=
    ⟨second.1.trans first.1, fun fine => first.2 (second.2 fine)⟩
  peek p := by
    cases found : p.haveToken with
    | true =>
        simp only [peekToken, after, run_bind, run_get, found]
        exact ⟨rfl, id⟩
    | false =>
        cases scanned : scanToken p.scanner with
        | ok tok s =>
            simp only [peekToken, after, run_bind, run_get, found, scanned]
            exact ⟨rfl, id⟩
        | error st s =>
            simp only [peekToken, after, run_bind, run_get, found, scanned]
            cases s.errorMsg == "" <;> exact ⟨rfl, id⟩
  consume p := ⟨rfl, id⟩
  enqueue evt _ p := by
    simp only [enqueue, after, run_bind, run_get]
    cases p.overLimit with
    | true => exact ⟨fixed_stopWith p _ _, live_stopWith p _ _⟩
    | false => exact ⟨rfl, id⟩
  events p events _ _ := ⟨rfl, id⟩
  push type indent p := by
    rw [after_ok (pushCtx_run p type indent)]
    split
    · exact ⟨fixed_stopWith p _ _, live_stopWith p _ _⟩
    split
    · exact ⟨fixed_stopWith p _ _, live_stopWith p _ _⟩
    · exact ⟨rfl, id⟩
  pop p := ⟨rfl, id⟩
  props p anchor tag hasAnchor hasTag line col start := ⟨rfl, id⟩
  message p msg mark := ⟨rfl, id⟩
  limit p msg := ⟨fixed_stopWith p _ _, live_stopWith p _ _⟩

theorem stopped_stopWith (p : Parser) (st : Status) (msg : String) :
    (p.stopWith st msg).oom = true := by
  simp only [Parser.stopWith]
  split <;> rfl

/-! ### Elementary steps -/

/-- A step that adds no event and leaves the open collections. -/
structure Onward (p p' : Parser) : Prop where
  adds : ∀ kind, Adds kind p p' []
  contexts : p'.contexts = p.contexts

section

variable {p p' : Parser}

theorem Onward.refl (p : Parser) : Onward p p := ⟨fun _ => .refl p, rfl⟩

theorem Onward.trans {q : Parser} (first : Onward p q) (second : Onward q p') : Onward p p' :=
  ⟨fun kind => (first.adds kind).after (second.adds kind),
    second.contexts.trans first.contexts⟩

theorem Onward.events (onward : Onward p p') : p'.events = p.events := by
  rw [(onward.adds .value).events, List.map_nil, List.append_nil]

theorem Onward.inFlow (onward : Onward p p') : p'.inFlow = p.inFlow :=
  Parser.fixed_inFlow (onward.adds .value).fixed onward.contexts

theorem Onward.flowing (onward : Onward p p') (flowing : p.Flowing) : p'.Flowing :=
  flowing.of_fixed (onward.adds .value).fixed onward.contexts

theorem Onward.ready (onward : Onward p p') (ready : p.Ready) : p'.Ready :=
  (onward.adds .value).ready ready

theorem checkOom_ok {a : Unit} (ok : checkOom p = .ok a p') : p' = p := by
  rw [checkOom, get_bind_eq] at ok
  split at ok <;> cases ok
  rfl

theorem checkStop_ok {a : Unit} (ok : checkStop p = .ok a p') : p' = p := by
  obtain ⟨_, q, first, rest⟩ := bind_eq_ok ok
  obtain rfl := checkOom_ok first
  rw [get_bind_eq] at rest
  split at rest <;> cases rest
  rfl

/-- A token was put in front of the parser. -/
structure Peeks (p p' : Parser) : Prop where
  onward : Onward p p'
  update : ∃ scanner tok,
    p' = { p with scanner := scanner, current := tok, haveToken := true }

theorem Peeks.held (peeks : Peeks p p') : p'.haveToken = true := by
  obtain ⟨scanner, tok, rfl⟩ := peeks.update
  rfl

theorem peekToken_ok {a : Unit} (ok : peekToken p = .ok a p') : Peeks p p' := by
  rw [peekToken, get_bind_eq] at ok
  cases held : p.haveToken with
  | true =>
      rw [held, if_pos rfl] at ok
      cases ok
      exact ⟨.refl p, p.scanner, p.current, by rw [← held]⟩
  | false =>
      simp only [held, Bool.false_eq_true, if_false] at ok
      cases scanned : scanToken p.scanner with
      | ok tok scanner =>
          rw [scanned] at ok
          cases ok
          refine ⟨⟨fun kind => ⟨rfl, by simp, id, [tok], [], .cons scanned (.nil _), ?_, ?_⟩,
            rfl⟩, scanner, tok, rfl⟩
          · simp [Parser.ahead, held]
          · cases kind <;> simp [Parser.pendingData]
      | error st scanner =>
          rw [scanned] at ok
          cases ok

theorem peekType_ok {tt : TokenType} (ok : peekType p = .ok tt p') :
    tt = p'.tokType ∧ Peeks p p' := by
  obtain ⟨_, q, first, rest⟩ := bind_eq_ok ok
  cases rest
  exact ⟨rfl, peekToken_ok first⟩

theorem peekToken_held (held : p.haveToken = true) : peekToken p = .ok () p := by
  rw [peekToken, get_bind_eq, if_pos held]
  rfl

theorem peekType_held (held : p.haveToken = true) {tt : TokenType}
    (ok : peekType p = .ok tt p') : tt = p.tokType ∧ p = p' := by
  rw [peekType, run_bind_ok (peekToken_held held)] at ok
  cases ok
  exact ⟨rfl, rfl⟩

theorem enqueue_run (p : Parser) (evt : Event) :
    enqueue evt p = if p.overLimit then .ok false (p.hitLimit "event limit exceeded")
      else .ok true { p with events := p.events ++ [p.tagged evt] } := by
  rw [enqueue, get_bind_eq]
  split <;> rfl

theorem enqueue'_ok {evt : Event} {a : Unit} (ok : enqueue' evt p = .ok a p')
    (fine : p'.oom = false) : p' = { p with events := p.events ++ [p.tagged evt] } := by
  rw [enqueue', run_discard, enqueue_run] at ok
  split at ok
  · rename_i stored
    split at stored <;> cases stored <;> cases ok
    · rw [Parser.hitLimit, stopped_stopWith] at fine
      cases fine
    · rfl
  · rename_i failed
    split at failed <;> cases failed

theorem pushCtx_ok {type : CtxType} {indent : Int} {a : Unit}
    (ok : pushCtx type indent p = .ok a p') (fine : p'.oom = false) :
    p' = { p with contexts := ⟨type, indent⟩ :: p.contexts } := by
  rw [pushCtx_run] at ok
  cases ok
  split at fine
  · rw [stopped_stopWith] at fine
    cases fine
  split at fine
  · rw [Parser.hitLimit, stopped_stopWith] at fine
    cases fine
  · rename_i first second
    rw [if_neg first, if_neg second]

end

end Oyl
