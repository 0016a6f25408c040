import Oyl.Events.EagerFrame

/-!
# What the eager parser's documents touch

The functions that parse documents satisfy a judgement that the steps of the node
functions and the updates of the document's own fields satisfy.
-/

namespace Oyl

open StateError

/-- No state that the incremental parser may return to leaves it. -/
def Parser.Returns (p : Parser) : Prop :=
  p.nodeReturn ≠ .eagerDrain ∧ p.unrollReturn ≠ .eagerDrain ∧
    ∀ frame ∈ p.frames, frame.returnState ≠ .eagerDrain

/-- What a fallback goes by. -/
structure Audit where
  incremental : Bool
  eventsDelivered : Nat
  deliveredSig : UInt64
  ckpt : Option Scanner
  ckptDelivered : Nat
  ckptSig : UInt64
  skipN : Nat
  skipSig : UInt64
  skipGot : UInt64

def Parser.audit (p : Parser) : Audit :=
  ⟨p.incremental, p.eventsDelivered, p.deliveredSig, p.ckpt, p.ckptDelivered, p.ckptSig,
    p.skipN, p.skipSig, p.skipGot⟩

/-- What is expanded in a run, and the pending tag. -/
def Parser.mode (p : Parser) : Bool × Bool × Bool × Option Bytes :=
  (p.mergeEnabled, p.resolveEnabled, p.hasTag, p.pendingTag)

/-- What is read. -/
def Parser.source (p : Parser) : Bytes × Scanner × Token × Status × Token :=
  (p.input, p.scanner, p.current, p.scanError, p.ckptTok)

/-- What an update leaves alone, besides the output and the mode. -/
def Parser.control (p : Parser) :
    Nat × Audit × PState × PState × List Frame × Bytes × Scanner × Token × Status × Token :=
  (p.evtBase, p.audit, p.nodeReturn, p.unrollReturn, p.frames, p.source)

/-- An update that neither reads nor changes the events, the limits and the stop, and
does not leave the incremental parser. -/
structure Neutral (u : Parser → Parser) : Prop where
  output : ∀ p, u p = (u p.core).withOutput p
  mode : ∀ p, (u p).mode = p.mode
  counts : ∀ p, (u p).evtBase = p.evtBase ∧ (u p).audit = p.audit
  source : ∀ p, (u p).source = p.source
  returns : ∀ p, p.Returns → (u p).Returns
  stays : ∀ p, p.Returns → (u p).state = .eagerDrain → p.state = .eagerDrain

theorem Neutral.keeps {u : Parser → Parser} (output : ∀ p, u p = (u p.core).withOutput p)
    (control : ∀ p, (u p).control = p.control ∧ (u p).mode = p.mode)
    (stays : ∀ p, p.Returns → (u p).state = .eagerDrain → p.state = .eagerDrain) :
    Neutral u where
  output := output
  mode p := (control p).2
  counts p := by
    have same := (control p).1
    simp only [Parser.control, Prod.mk.injEq] at same
    exact ⟨same.1, same.2.1⟩
  source p := by
    have same := (control p).1
    simp only [Parser.control, Prod.mk.injEq] at same
    exact same.2.2.2.2.2
  returns p returns := by
    have same := (control p).1
    simp only [Parser.control, Prod.mk.injEq] at same
    rw [Parser.Returns, same.2.2.1, same.2.2.2.1, same.2.2.2.2.1]
    exact returns
  stays := stays

/-- An update that stays in the parser's state. -/
theorem Neutral.still {u : Parser → Parser} (kept : ∀ p : Parser,
    u p = (u p.core).withOutput p ∧ ((u p).control = p.control ∧ (u p).mode = p.mode) ∧
      (u p).state = p.state) :
    Neutral u :=
  .keeps (fun p => (kept p).1) (fun p => (kept p).2.1) fun p _ same => (kept p).2.2 ▸ same

/-- An update that goes to another state of the incremental parser. -/
theorem Neutral.turns {u : Parser → Parser} (kept : ∀ p : Parser,
    u p = (u p.core).withOutput p ∧ ((u p).control = p.control ∧ (u p).mode = p.mode) ∧
      (u p).state ≠ .eagerDrain) :
    Neutral u :=
  .keeps (fun p => (kept p).1) (fun p => (kept p).2.1) fun p _ same => absurd same (kept p).2.2

/-- A judgement that the steps of the functions for directives satisfy. -/
structure DirectiveLogic (J : {α : Type} → ParseM α → Prop) : Prop extends PropsLogic J where
  tags : ∀ directives, J (modify fun p => { p with tagDirectives := directives })

/-- A judgement that the steps of the document functions satisfy. -/
structure DocumentLogic (J : {α : Type} → ParseM α → Prop) : Prop extends NodeLogic J where
  fuel : ∀ {α : Type}, J (throw .fuel : ParseM α)
  update : ∀ u, Neutral u → J (modify u)
  boundary : ∀ evt, evt.type ≠ .streamEnd → J (enqueue' evt)

/-- The start of an implicit document, in steps of their own. -/
theorem parseImplicitDocument_eq (r : Eager) :
    parseImplicitDocument r = (do
      modify fun p => { p with docStartLine := if p.docOpen then p.docStartLine else 0 }
      let p ← get
      ensureDoc false p.current.start
      r.blockNode
      expectDocumentEnd) := by
  funext p
  let rest (mark : Mark) : ParseM Unit := do
    ensureDoc false mark
    r.blockNode
    expectDocumentEnd
  cases opened : p.docOpen with
  | true =>
      have same : { p with docStartLine := if p.docOpen then p.docStartLine else 0 } = p := by
        cases p
        cases opened
        rfl
      have noDoc : ensureDoc false p.current.start p = .ok () p := by
        rw [ensureDoc, get_bind_eq, opened]
        rfl
      calc parseImplicitDocument r p
          = (do r.blockNode; expectDocumentEnd) p := by
            rw [parseImplicitDocument, get_bind_eq, opened]
            rfl
        _ = rest p.current.start p := by
            dsimp only [rest]
            rw [run_bind_ok noDoc]
        _ = _ := congrArg (rest p.current.start) same.symm
  | false =>
      have same : { p with docStartLine := if p.docOpen then p.docStartLine else 0 } =
          { p with docStartLine := 0 } := by
        rw [opened]
        rfl
      calc parseImplicitDocument r p
          = rest p.current.start { p with docStartLine := 0 } := by
            rw [parseImplicitDocument, get_bind_eq, if_pos (by rw [opened]; rfl)]
            rfl
        _ = _ := congrArg (rest p.current.start) same.symm

theorem peekType_steady {p p' : Parser} {tt : TokenType} (ok : peekType p = .ok tt p') :
    p'.oom = p.oom ∧ p'.overLimit = p.overLimit := by
  obtain ⟨_, q, first, rest⟩ := bind_eq_ok ok
  cases rest
  obtain ⟨scanner, tok, rfl⟩ := peekToken_update first
  exact ⟨rfl, rfl⟩

theorem parseFlowSequence_live {r : Eager} (closes : r.ClosesLive) :
    ReturnsLive (parseFlowSequence r) := by
  intro p a p' ok
  obtain ⟨_, q, first, rest⟩ := bind_eq_ok ok
  obtain ⟨rfl, live, within⟩ := checkStop_live first
  obtain ⟨tt, q', peeked, last⟩ := bind_eq_ok rest
  have steady := peekType_steady peeked
  split at last
  · exact closeFlow_live (steady.1.trans live) (steady.2.trans within) last
  · exact (ReturnsLive.error _) _ _ _ last
  · exact ReturnsLive.bind (fun _ => .flowSeparator closes.flowSequence _ _) _ _ _ last
  · exact ReturnsLive.bind (fun _ => .flowSeparator closes.flowSequence _ _) _ _ _ last

theorem parseFlowMapping_live {r : Eager} (closes : r.ClosesLive) :
    ReturnsLive (parseFlowMapping r) := by
  intro p a p' ok
  obtain ⟨_, q, first, rest⟩ := bind_eq_ok ok
  obtain ⟨rfl, live, within⟩ := checkStop_live first
  obtain ⟨tt, q', peeked, last⟩ := bind_eq_ok rest
  have steady := peekType_steady peeked
  split at last
  · exact closeFlow_live (steady.1.trans live) (steady.2.trans within) last
  · exact (ReturnsLive.error _) _ _ _ last
  · exact ReturnsLive.bind
      (fun _ => .bind fun _ => .flowSeparator closes.flowMapping _ _) _ _ _ last

theorem eager_closes (n : Nat) : (eager n).ClosesLive := by
  induction n with
  | zero => constructor <;> intro p a p' ok <;> cases ok
  | succ n ih => exact ⟨parseFlowSequence_live ih, parseFlowMapping_live ih⟩

/-- The node functions of the eager parser. -/
theorem NodeLogic.eager {J : {α : Type} → ParseM α → Prop} (logic : NodeLogic J)
    (fuel : ∀ {α : Type}, J (throw .fuel : ParseM α)) (n : Nat) : (eager n).All J := by
  induction n with
  | zero => exact ⟨fuel, fuel, fuel, fun _ => fuel, fun _ => fuel, fun _ => fuel, fuel⟩
  | succ n ih =>
      exact ⟨logic.parseFlowSequence ih, logic.parseFlowMapping ih, logic.parseFlowNode ih,
        logic.parseBlockMapValue ih, logic.parseBlockMapping ih, logic.parseBlockSequence ih,
        logic.parseBlockNode ih⟩

namespace DirectiveLogic

variable {J : {α : Type} → ParseM α → Prop} (logic : DirectiveLogic J)

include logic

/-! ### Directives -/

theorem parseYamlDirective (rest : Bytes) (hadYaml : Bool) :
    J (parseYamlDirective rest hadYaml) := by
  refine logic.optional (logic.error _ (by decide)) ?_
  split
  · exact logic.error _ (by decide)
  split
  · exact logic.error _ (by decide)
  split
  · exact logic.error _ (by decide)
  · exact logic.pure _

theorem parseTagDirective (rest : Bytes) : J (parseTagDirective rest) := by
  unfold Oyl.parseTagDirective
  split
  · exact logic.error _ (by decide)
  split
  · exact logic.error _ (by decide)
  refine logic.read _ (fun _ => rfl) fun p => ?_
  dsimp only
  split
  · exact logic.error _ (by decide)
  split
  · exact logic.error _ (by decide)
  split
  · exact logic.error _ (by decide)
  split
  · exact logic.error _ (by decide)
  · exact logic.tags _

theorem parseDirective (hadYaml : Bool) : J (parseDirective hadYaml) := by
  refine logic.read _ (fun _ => rfl) fun p => ?_
  dsimp only
  split
  · exact logic.error _ (by decide)
  split
  · exact logic.error _ (by decide)
  split
  · exact logic.error _ (by decide)
  split
  · exact logic.parseYamlDirective _ _
  split
  · exact logic.bind (logic.parseTagDirective _) fun _ => logic.pure _
  · exact logic.pure _

section

variable {r : Eager} (directives : ∀ hadDirective hadYaml, J (r.directives hadDirective hadYaml))

include directives

theorem parseDirectives (hadDirective hadYaml : Bool) :
    J (parseDirectives r hadDirective hadYaml) := by
  refine logic.read _ (fun _ => rfl) fun p => ?_
  split
  · exact logic.pure _
  split
  · exact logic.error _ (by decide)
  · exact logic.bind (logic.parseDirective hadYaml) fun had =>
      logic.bind logic.consume fun _ => logic.bind logic.peek fun _ => directives _ _

end

end DirectiveLogic

namespace DocumentLogic

variable {J : {α : Type} → ParseM α → Prop} (logic : DocumentLogic J)

include logic

theorem directives : DirectiveLogic J where
  toPropsLogic := logic.toPropsLogic
  tags _ := logic.update _ (.still fun _ => ⟨rfl, ⟨rfl, rfl⟩, rfl⟩)

/-- The functions of the eager parser. -/
theorem eager (n : Nat) : (eager n).All J ∧
    ∀ hadDirective hadYaml, J ((eager n).directives hadDirective hadYaml) := by
  refine ⟨logic.toNodeLogic.eager logic.fuel n, ?_⟩
  induction n with
  | zero => exact fun _ _ => logic.fuel
  | succ n ih => exact logic.directives.parseDirectives ih

/-! ### Documents -/

theorem expectDocumentEnd : J expectDocumentEnd := by
  refine logic.bind logic.peekType fun tt => ?_
  split
  · exact logic.error _ (by decide)
  · exact logic.pure _

theorem unrollAll (mark : Mark) (n : Nat) : J (unrollAll mark n) := by
  induction n with
  | zero => exact logic.pure _
  | succ n ih =>
      refine logic.read _ (fun _ => rfl) fun p => ?_
      split
      · exact logic.pure _
      split
      · exact logic.pure _
      · exact logic.bind (logic.store _ (by split <;> rfl)) fun _ =>
          logic.bind logic.pop fun _ => ih

theorem closeDocument (explicit : Bool) : J (closeDocument explicit) := by
  refine logic.read _ (fun _ => rfl) fun p => ?_
  split
  · exact logic.bind (logic.unrollAll _ _) fun _ =>
      logic.bind (logic.boundary _ EventType.noConfusion) fun _ =>
        logic.update _ (.still fun _ => ⟨rfl, ⟨rfl, rfl⟩, rfl⟩)
  · exact logic.pure _

theorem ensureDoc (explicit : Bool) (mark : Mark) : J (ensureDoc explicit mark) := by
  refine logic.read _ (fun _ => rfl) fun p => ?_
  split
  · exact logic.bind (logic.boundary _ EventType.noConfusion) fun _ =>
      logic.update _ (.still fun _ => ⟨rfl, ⟨rfl, rfl⟩, rfl⟩)
  · exact logic.pure _

theorem startStream : J startStream := by
  refine logic.read _ (fun _ => rfl) fun p => ?_
  split
  · refine logic.bind logic.peek fun _ => logic.bind logic.consume fun _ =>
      logic.read _ (fun _ => rfl) fun q => ?_
    exact logic.bind (logic.boundary _ EventType.noConfusion) fun _ =>
      logic.update _ (.still fun _ => ⟨rfl, ⟨rfl, rfl⟩, rfl⟩)
  · exact logic.pure _

theorem endStream (last : ∀ evt, J (enqueue' evt)) : J endStream := by
  refine logic.bind (logic.closeDocument _) fun _ => logic.bind logic.consume fun _ =>
    logic.read _ (fun _ => rfl) fun p => logic.bind (last _) fun _ => ?_
  exact logic.update _ (.still fun _ => ⟨rfl, ⟨rfl, rfl⟩, rfl⟩)

section

variable {r : Eager} (calls : r.All J)
  (directives : ∀ hadDirective hadYaml, J (r.directives hadDirective hadYaml))

include calls

theorem parseExplicitDocument : J (parseExplicitDocument r) := by
  refine logic.bind (logic.closeDocument _) fun _ => ?_
  refine of_get_set (J := J)
    (fun p : Parser => { p with docStartLine := p.current.start.line, haveToken := false }) _ ?_
  refine logic.read _ (fun _ => rfl) fun p =>
    logic.bind (logic.update _ (.still fun _ => ⟨rfl, ⟨rfl, rfl⟩, rfl⟩)) fun _ =>
      logic.bind (logic.boundary _ EventType.noConfusion) fun _ =>
        logic.bind (logic.update _ (.still fun _ => ⟨rfl, ⟨rfl, rfl⟩, rfl⟩)) fun _ => ?_
  refine logic.bind logic.peekType fun tt => ?_
  split
  · exact logic.error _ (by decide)
  split
  · exact logic.emitEmpty
  · exact logic.bind calls.blockNode fun _ => logic.expectDocumentEnd

theorem parseImplicitDocument : J (parseImplicitDocument r) := by
  rw [parseImplicitDocument_eq]
  refine logic.bind (logic.update _ (.still fun _ => ⟨rfl, ⟨rfl, rfl⟩, rfl⟩)) fun _ =>
    logic.read _ (fun _ => rfl) fun p => logic.bind (logic.ensureDoc _ _) fun _ => ?_
  exact logic.bind calls.blockNode fun _ => logic.expectDocumentEnd

include directives

theorem parseDocument : J (parseDocument r) := by
  refine logic.bind logic.checkOom fun _ => logic.bind logic.peekType fun tt =>
    logic.optional (logic.update _ (.still fun _ => ⟨rfl, ⟨rfl, rfl⟩, rfl⟩)) ?_
  refine logic.bind (directives _ _) fun had => logic.read _ (fun _ => rfl) fun p => ?_
  dsimp only
  split
  · exact logic.error _ (by decide)
  split
  · exact logic.parseExplicitDocument calls
  · exact logic.bind (logic.closeDocument _) fun _ => logic.consume
  · exact logic.pure _
  · exact logic.error _ (by decide)
  · exact logic.error _ (by decide)
  · exact logic.error _ (by decide)
  · exact logic.parseImplicitDocument calls

theorem parseStream (last : ∀ evt, J (enqueue' evt)) : J (parseStream r) := by
  refine logic.bind logic.startStream fun _ => logic.bind logic.peekType fun tt => ?_
  split
  · exact logic.bind (logic.endStream last) fun _ => logic.checkOom
  · refine logic.read _ (fun _ => rfl) fun before =>
      logic.bind (logic.parseDocument calls directives) fun _ =>
        logic.read _ (fun _ => rfl) fun p => ?_
    split
    · exact logic.error _ (by decide)
    · exact logic.checkOom

end

end DocumentLogic

end Oyl
