import Oyl.Emitter.State
import Oyl.Emitter.Tags

/-!
# Flow collections on one line

Everything above a flow collection on the stack is a flow collection, so while one is open
no block style is chosen: what is written for nodes has no line break.  Only the marks of
documents and the end of the stream break the line, as the emitter writes them wherever
they are asked for.
-/

namespace Oyl

section

variable {s : Bytes} {c : UInt8}

/-! ### Texts without a break -/

theorem hasBreak_cons (c : UInt8) (s : Bytes) : hasBreak (c :: s) = (isBreak c || hasBreak s) :=
  rfl

theorem hasBreak_append (left right : Bytes) :
    hasBreak (left ++ right) = (hasBreak left || hasBreak right) := List.any_append

theorem hasBreak_eq_false : hasBreak s = false ↔ ∀ c ∈ s, isBreak c = false := by
  rw [hasBreak, List.any_eq_false]
  simp only [Bool.not_eq_true]

theorem hasBreak_dropLast (plain : hasBreak s = false) : hasBreak s.dropLast = false :=
  hasBreak_eq_false.mpr fun c member =>
    hasBreak_eq_false.mp plain c (List.dropLast_subset s member)

theorem isBreak_of_blank (plain : isBlankOrBreak c = false) : isBreak c = false :=
  (Bool.or_eq_false_iff.mp plain).2

theorem emitTag_oneLine (tag : Bytes) : hasBreak (emitTag tag) = false := by
  have chars {tag : Bytes} (all : tag.all isTagChar = true) : hasBreak tag = false :=
    hasBreak_eq_false.mpr fun c member =>
      isBreak_of_blank (isUriChar_plain (isTagChar_plain (List.all_eq_true.mp all c member)).1).1
  rw [emitTag]
  split
  · rfl
  rw [hasBreak_append, Bool.or_eq_false_iff]
  refine ⟨?_, rfl⟩
  rw [tagText]
  split
  · rename_i standard
    rw [hasBreak_cons, hasBreak_cons, chars (Bool.and_eq_true_iff.mp standard).2]
    rfl
  split
  · rename_i isLocal
    obtain ⟨isBang, all⟩ := Bool.and_eq_true_iff.mp isLocal
    cases tag with
    | nil => rfl
    | cons c tag =>
        obtain rfl : c = bang := by simpa using isBang
        have rest : tag.all isTagChar = true := all
        rw [hasBreak_cons, chars rest]
        rfl
  · refine hasBreak_eq_false.mpr fun c member => ?_
    rcases List.mem_cons.mp member with rfl | member
    · rfl
    rcases List.mem_cons.mp member with rfl | member
    · rfl
    rcases List.mem_append.mp member with member | member
    · exact isBreak_of_blank (verbatimBytes_plain member).1
    · rw [List.mem_singleton.mp member]
      rfl

theorem emitDoubleQuoted_oneLine (s : Bytes) : hasBreak (emitDoubleQuoted s) = false := by
  have all : ∀ d, hasBreak (doubleQuotedByte d) = false := forall_byte (by decide +kernel)
  have written : hasBreak (s.flatMap doubleQuotedByte) = false := by
    refine hasBreak_eq_false.mpr fun c member => ?_
    obtain ⟨d, _, within⟩ := List.mem_flatMap.mp member
    exact hasBreak_eq_false.mp (all d) c within
  rw [emitDoubleQuoted, hasBreak_cons, hasBreak_append, written]
  rfl

theorem emitSingleQuoted_oneLine (plain : hasBreak s = false) :
    hasBreak (emitSingleQuoted s) = false := by
  have written : hasBreak (s.flatMap singleQuotedByte) = false := by
    refine hasBreak_eq_false.mpr fun c member => ?_
    obtain ⟨d, inside, within⟩ := List.mem_flatMap.mp member
    have isPlain := hasBreak_eq_false.mp plain d inside
    rw [singleQuotedByte] at within
    split at within
    · rename_i isQuote
      obtain rfl : d = squote := beq_iff_eq.mp isQuote
      simp only [List.mem_cons, List.not_mem_nil, or_false, or_self] at within
      rw [within]
      rfl
    · rw [List.mem_singleton.mp within]
      exact isPlain
  rw [emitSingleQuoted, hasBreak_cons, hasBreak_append, written]
  rfl

theorem needsEscape_oneLine (fine : needsEscape s = false) : hasBreak s = false := by
  refine hasBreak_eq_false.mpr fun c member => ?_
  have isFine := List.any_eq_false.mp fine c member
  rw [isBreak, Bool.or_eq_false_iff]
  constructor
  · apply beq_false_of_ne
    rintro rfl
    exact isFine rfl
  · apply beq_false_of_ne
    rintro rfl
    exact isFine rfl

/-- In a flow collection a scalar is written on one line. -/
inductive OneLineStyle (s : Bytes) : ScalarStyle → Prop
  | plain : hasBreak s = false → OneLineStyle s .plain
  | single : hasBreak s = false → OneLineStyle s .singleQuoted
  | double : OneLineStyle s .doubleQuoted

theorem chooseStyle_oneLine (requested : ScalarStyle) (s : Bytes) (isKey : Bool)
    (tag : Option Bytes) : OneLineStyle s (chooseStyle requested s true isKey tag) := by
  cases requested with
  | literal => exact .double
  | folded => exact .double
  | doubleQuoted => exact .double
  | singleQuoted =>
      rw [chooseStyle]
      split
      · exact .double
      · rename_i plain
        exact .single (Bool.eq_false_iff.mpr plain)
  | plain =>
      rw [chooseStyle]
      split
      · rename_i isEmpty
        rw [List.isEmpty_iff.mp (Bool.and_eq_true_iff.mp isEmpty).1]
        exact .plain rfl
      split
      · exact .double
      rename_i fine
      split
      · split
        · exact .double
        · exact .plain (needsEscape_oneLine (Bool.eq_false_iff.mpr fine))
      split
      · rename_i isBlock
        exact absurd isBlock (by simp)
      · exact .double

end

namespace Emitter

/-- The collections that are open, the innermost first. -/
def kinds (e : Emitter) : List EmitCtxType := e.stack.map (·.type)

/-- Above a flow collection there are only flow collections. -/
def Layered (e : Emitter) : Prop :=
  e.kinds.Pairwise fun upper lower => lower.isFlow = true → upper.isFlow = true

/-- The second emitter has written some text without a break behind the first. -/
def OneLine (e e' : Emitter) : Prop := ∃ new, e'.buf = e.buf ++ new ∧ hasBreak new = false

section

variable {e e' : Emitter} {evt : Event} {ctx : EmitCtx}

/-! ### The open collections -/

theorem map_type_modifyHead {f : EmitCtx → EmitCtx} (same : ∀ ctx, (f ctx).type = ctx.type)
    (stack : List EmitCtx) : (stack.modifyHead f).map (·.type) = stack.map (·.type) := by
  cases stack with
  | nil => rfl
  | cons ctx stack => rw [List.modifyHead_cons, List.map_cons, List.map_cons, same]

theorem EmitCtx.advance_type (ctx : EmitCtx) : (EmitCtx.advance ctx).type = ctx.type := by
  rw [EmitCtx.advance]
  split
  · split <;> rfl
  · rfl

theorem freshLine_kinds (e : Emitter) : e.freshLine.kinds = e.kinds := by
  rw [freshLine]
  split <;> rfl

theorem dropSpace_kinds (e : Emitter) : e.dropSpace.kinds = e.kinds := by
  rw [dropSpace]
  split <;> rfl

theorem afterAlias_kinds (e : Emitter) : e.afterAlias.kinds = e.kinds := by
  rw [afterAlias]
  split <;> rfl

theorem beforeValue_kinds (e : Emitter) (ctx : EmitCtx) : (e.beforeValue ctx).kinds = e.kinds := by
  rw [beforeValue]
  split
  · exact (map_type_modifyHead (f := fun map => { map with complexKey := false })
      (fun _ => rfl) _).trans (freshLine_kinds e)
  · rfl

theorem emitPreNode_kinds (e : Emitter) (isCollection : Bool) :
    (e.emitPreNode isCollection).kinds = e.kinds := by
  rw [emitPreNode]
  cases e.topCtx with
  | none => exact freshLine_kinds e
  | some ctx =>
      dsimp only
      cases ctx.type with
      | blockMap =>
          dsimp only
          split
          · split
            · rfl
            split
            · rfl
            split <;> rfl
          · exact (afterAlias_kinds _).trans (beforeValue_kinds e ctx)
      | blockSeq => exact freshLine_kinds e
      | flowMap =>
          dsimp only
          split
          · split <;> rfl
          · exact afterAlias_kinds e
      | flowSeq =>
          dsimp only
          split <;> rfl

theorem emitProps_kinds (e : Emitter) (evt : Event) : (e.emitProps evt).kinds = e.kinds := by
  rw [emitProps, emitAnchor]
  split <;> rfl

theorem emitBlockCollectionProps_kinds (e : Emitter) (evt : Event) (afterKey : Bool) :
    (e.emitBlockCollectionProps evt afterKey).kinds = e.kinds := by
  rw [emitBlockCollectionProps]
  split
  · rfl
  · refine (dropSpace_kinds _).trans ((emitProps_kinds _ evt).trans ?_)
    cases afterKey <;> rfl

theorem emitComplexKeyOpen_kinds (e : Emitter) (evt : Event) :
    (e.emitComplexKeyOpen evt).kinds = e.kinds := by
  exact (map_type_modifyHead (f := fun map => { map with complexKey := true })
    (fun _ => rfl) _).trans (emitBlockCollectionProps_kinds _ evt true)

theorem emitScalar_kinds (e : Emitter) (evt : Event) : (e.emitScalar evt).kinds = e.kinds := by
  rw [emitScalar]
  split
  · split
    · split
      · rfl
      split
      · exact dropSpace_kinds e
      · rfl
    · rfl
  · rfl
  · rfl
  · rfl
  · rfl

theorem advanceCtx_kinds (e : Emitter) : e.advanceCtx.kinds = e.kinds := by
  rw [advanceCtx]
  split
  · rfl
  · exact map_type_modifyHead EmitCtx.advance_type _

theorem openCollection_kinds (e : Emitter) (evt : Event) :
    (e.openCollection evt).kinds = e.kinds := by
  have before := emitPreNode_kinds e !e.useFlow evt
  rw [openCollection]
  split
  · exact (emitComplexKeyOpen_kinds _ evt).trans before
  split
  · exact (emitProps_kinds _ evt).trans before
  · exact (emitBlockCollectionProps_kinds _ evt _).trans before

theorem enter_kinds (e : Emitter) (type : EmitCtxType) (indent : Nat) :
    (e.enter type indent).kinds = type :: e.kinds :=
  congrArg (type :: ·) (advanceCtx_kinds e)

theorem inAnyFlow_kinds (e : Emitter) : e.inAnyFlow = e.kinds.any EmitCtxType.isFlow := by
  rw [inAnyFlow, kinds, List.any_map]
  rfl

theorem startMapping_kinds (e : Emitter) (evt : Event) :
    (e.startMapping evt).kinds =
      (if e.useFlow evt then EmitCtxType.flowMap else .blockMap) :: e.kinds := by
  rw [startMapping]
  dsimp only
  split
  · rw [enter_kinds]
    exact congrArg (_ :: ·) (openCollection_kinds e evt)
  · rw [enter_kinds]
    split
    · exact congrArg (_ :: ·) (openCollection_kinds e evt)
    · exact congrArg (_ :: ·) (openCollection_kinds e evt)

theorem startSequence_kinds (e : Emitter) (evt : Event) :
    (e.startSequence evt).kinds =
      (if e.useFlow evt then EmitCtxType.flowSeq else .blockSeq) :: e.kinds := by
  rw [startSequence]
  split
  · rw [enter_kinds]
    exact congrArg (_ :: ·) (openCollection_kinds e evt)
  · rw [enter_kinds]
    exact congrArg (_ :: ·) (openCollection_kinds e evt)

theorem endCollection_kinds (e : Emitter) (ctx : EmitCtx) (own : EmitCtxType)
    (opening closing : UInt8) :
    (e.endCollection ctx own opening closing).kinds = e.kinds.tail := by
  have tail {e' : Emitter} (same : e'.stack = e.stack) :
      (e'.stack.tail.map fun ctx => ctx.type) = e.kinds.tail := by
    rw [same, kinds, List.map_tail]
  rw [endCollection]
  dsimp only
  split
  · exact tail rfl
  split
  · split
    · exact tail rfl
    · exact tail rfl
  · exact tail rfl

/-- What an event does to the open collections. -/
inductive Restacks (e : Emitter) (evt : Event) (e' : Emitter) : Prop
  | same : e'.kinds = e.kinds → Restacks e evt e'
  | mapping : e' = e.startMapping evt → Restacks e evt e'
  | sequence : e' = e.startSequence evt → Restacks e evt e'
  | popped : e'.kinds = e.kinds.tail → Restacks e evt e'

theorem useFlow_of_flow (flow : e.inAnyFlow = true) (evt : Event) : e.useFlow evt = true := by
  rw [useFlow, flow, Bool.or_true]

theorem emit_restacks (emitted : e.emit evt = some e') : Restacks e evt e' := by
  rw [emit] at emitted
  split at emitted
  · cases emitted
  · cases emitted
    exact .same rfl
  · cases emitted
    exact .same (freshLine_kinds e)
  · cases emitted
    refine .same ?_
    split
    · split
      · exact freshLine_kinds e
      · rfl
    · rfl
  · cases emitted
    refine .same ?_
    split
    · exact freshLine_kinds e
    · rfl
  · cases emitted
    exact .mapping rfl
  · obtain ⟨ctx, _, rfl⟩ := Option.map_eq_some_iff.mp emitted
    exact .popped (endCollection_kinds e ctx _ _ _)
  · cases emitted
    exact .sequence rfl
  · obtain ⟨ctx, _, rfl⟩ := Option.map_eq_some_iff.mp emitted
    exact .popped (endCollection_kinds e ctx _ _ _)
  · cases emitted
    exact .same ((advanceCtx_kinds _).trans ((emitScalar_kinds _ evt).trans
      ((emitProps_kinds _ evt).trans (emitPreNode_kinds e false))))
  · cases emitted
    exact .same ((advanceCtx_kinds _).trans (emitPreNode_kinds e false))

theorem Layered.restacks (layered : e.Layered) (restacks : Restacks e evt e') : e'.Layered := by
  rw [Layered] at layered ⊢
  have pushed {kind block : EmitCtxType} (isFlow : kind.isFlow = true) :
      ((if e.useFlow evt then kind else block) :: e.kinds).Pairwise fun upper lower =>
        lower.isFlow = true → upper.isFlow = true := by
    refine List.pairwise_cons.mpr ⟨fun lower member below => ?_, layered⟩
    have flow : e.inAnyFlow = true := by
      rw [inAnyFlow_kinds]
      exact List.any_eq_true.mpr ⟨lower, member, below⟩
    rw [useFlow_of_flow flow]
    exact isFlow
  cases restacks with
  | same kinds =>
      rw [kinds]
      exact layered
  | mapping started =>
      rw [started, startMapping_kinds]
      exact pushed rfl
  | sequence started =>
      rw [started, startSequence_kinds]
      exact pushed rfl
  | popped kinds =>
      rw [kinds]
      exact layered.tail

theorem Layered.call (layered : e.Layered) (call : Call) : (e.call call).Layered := by
  cases call with
  | emit evt =>
      rw [Emitter.call]
      cases emitted : e.emit evt with
      | none => exact layered
      | some e' => exact layered.restacks (emit_restacks emitted)
  | setStyle style => exact layered
  | setIndent indent => exact layered

/-- While a flow collection is open, the innermost one is a flow collection. -/
theorem Layered.top (layered : e.Layered) (flow : e.inAnyFlow = true) :
    ∃ ctx, e.topCtx = some ctx ∧ ctx.type.isFlow = true := by
  rw [Layered, kinds] at layered
  rw [inAnyFlow] at flow
  rw [topCtx]
  cases stack : e.stack with
  | nil =>
      rw [stack] at flow
      cases flow
  | cons ctx stack' =>
      rw [stack] at layered flow
      refine ⟨ctx, rfl, ?_⟩
      rcases Bool.or_eq_true_iff.mp flow with isFlow | below
      · exact isFlow
      · obtain ⟨lower, member, isFlow⟩ := List.any_eq_true.mp below
        exact (List.pairwise_cons.mp layered).1 lower.type (List.mem_map_of_mem member) isFlow

/-! ### What is written -/

theorem OneLine.refl (e : Emitter) : OneLine e e := ⟨[], (List.append_nil _).symm, rfl⟩

theorem OneLine.trans {e₁ e₂ e₃ : Emitter} (first : OneLine e₁ e₂) (second : OneLine e₂ e₃) :
    OneLine e₁ e₃ := by
  obtain ⟨new, written, plain⟩ := first
  obtain ⟨new', written', plain'⟩ := second
  refine ⟨new ++ new', ?_, ?_⟩
  · rw [written', written, List.append_assoc]
  · rw [hasBreak_append, plain, plain']
    rfl

theorem OneLine.puts (e : Emitter) {s : Bytes} (plain : hasBreak s = false) : OneLine e
    (e.puts s) :=
  ⟨s, rfl, plain⟩

theorem entrySep_oneLine (e : Emitter) : hasBreak e.entrySep = false := by
  rw [entrySep]
  split <;> rfl

theorem afterAlias_oneLine (e : Emitter) : OneLine e e.afterAlias := by
  rw [afterAlias]
  split
  · exact ⟨[space], rfl, rfl⟩
  · exact .refl e

/-- In a flow collection only separators are written before a node. -/
theorem emitPreNode_flow (isTop : e.topCtx = some ctx) (flow : ctx.type.isFlow = true)
    (isCollection : Bool) :
    (e.emitPreNode isCollection).stack = e.stack ∧ ∃ new,
      (e.emitPreNode isCollection).buf = e.buf ++ new ∧ hasBreak new = false ∧
        (ctx.type = .flowMap → ctx.expectKey = false → new ≠ []) := by
  rw [emitPreNode, isTop]
  dsimp only
  cases kind : ctx.type with
  | blockMap =>
      rw [kind] at flow
      cases flow
  | blockSeq =>
      rw [kind] at flow
      cases flow
  | flowMap =>
      dsimp only
      cases key : ctx.expectKey with
      | true =>
          rw [if_pos rfl]
          split
          · exact ⟨rfl, e.entrySep, rfl, entrySep_oneLine e, fun _ notKey => by cases notKey⟩
          · exact ⟨rfl, [], (List.append_nil _).symm, rfl, fun _ notKey => by cases notKey⟩
      | false =>
          rw [if_neg Bool.false_ne_true]
          obtain ⟨new, written, plain⟩ := afterAlias_oneLine e
          refine ⟨?_, new ++ kvSep, ?_, ?_, fun _ _ => ?_⟩
          · change e.afterAlias.stack = e.stack
            rw [afterAlias]
            split <;> rfl
          · change e.afterAlias.buf ++ kvSep = _
            rw [written, List.append_assoc]
          · rw [hasBreak_append, plain]
            rfl
          · exact List.append_ne_nil_of_right_ne_nil new (List.cons_ne_nil _ _)
  | flowSeq =>
      dsimp only
      split
      · exact ⟨rfl, e.entrySep, rfl, entrySep_oneLine e, fun isMap => by cases isMap⟩
      · exact ⟨rfl, [], (List.append_nil _).symm, rfl, fun isMap => by cases isMap⟩

/-- The names of an event have no line break. -/
def NamesOnLine (evt : Event) : Prop :=
  hasBreak (evt.anchor.getD []) = false ∧ (evt.type = .alias → hasBreak evt.value = false)

theorem emitProps_flow (e : Emitter) (onLine : NamesOnLine evt) :
    (e.emitProps evt).stack = e.stack ∧ ∃ new,
      (e.emitProps evt).buf = e.buf ++ new ∧ hasBreak new = false ∧
        ((e.emitProps evt).wroteProps = false → new = []) := by
  have anchor := onLine.1
  have tag := emitTag_oneLine (evt.tag.getD [])
  rw [emitProps, emitAnchor]
  split
  · refine ⟨rfl, emitTag (evt.tag.getD []), rfl, tag, fun noProps => ?_⟩
    have none := (Bool.or_eq_false_iff.mp noProps).2
    rw [Bool.not_eq_false'] at none
    rw [emitTag, none]
    rfl
  · rename_i some
    refine ⟨rfl, (amp :: evt.anchor.getD [] ++ [space]) ++ emitTag (evt.tag.getD []),
      List.append_assoc _ _ _, ?_, fun noProps => ?_⟩
    · rw [hasBreak_append, hasBreak_append, hasBreak_cons, anchor, tag]
      rfl
    · have none := (Bool.or_eq_false_iff.mp noProps).1
      rw [Bool.not_eq_false'] at none
      exact absurd none some

/-- A scalar in a flow collection, from its separator on. -/
theorem scalar_oneLine (isTop : e.topCtx = some ctx) (flow : ctx.type.isFlow = true)
    (onLine : NamesOnLine evt) :
    OneLine e (((e.emitPreNode false).emitProps evt).emitScalar evt) := by
  obtain ⟨stack, before, separated, plain, some⟩ := emitPreNode_flow isTop flow false
  obtain ⟨stack', props, propertied, plain', none⟩ :=
    emitProps_flow (e.emitPreNode false) onLine
  generalize (e.emitPreNode false).emitProps evt = e₂ at *
  rw [separated, List.append_assoc] at propertied
  have here : OneLine e e₂ := by
    refine ⟨before ++ props, propertied, ?_⟩
    rw [hasBreak_append, plain, plain']
    rfl
  have isTop₂ : e₂.topCtx = Option.some ctx := by
    rw [topCtx, stack', stack]
    exact isTop
  have inFlow : e₂.inAnyFlow = true := by
    rw [inAnyFlow]
    exact List.any_eq_true.mpr ⟨ctx, List.mem_of_mem_head? isTop₂, flow⟩
  rw [emitScalar, inFlow, Bool.true_or]
  have style := chooseStyle_oneLine evt.scalarStyle evt.value e₂.isKey evt.tag
  generalize chooseStyle _ _ _ _ _ = chosen at style ⊢
  cases style with
  | single isPlain => exact here.trans (.puts e₂ (emitSingleQuoted_oneLine isPlain))
  | double => exact here.trans (.puts e₂ (emitDoubleQuoted_oneLine _))
  | plain isPlain =>
      dsimp only
      split
      · split
        · exact here.trans (.puts e₂ rfl)
        rename_i notSeq
        split
        · rename_i isValue
          -- the blank taken back is the one after the `:`
          obtain ⟨noProps, notKey⟩ := Bool.and_eq_true_iff.mp isValue
          rw [Bool.not_eq_true'] at noProps notKey
          rw [isTop₂, noProps] at notSeq
          rw [isKey, isTop₂] at notKey
          have isMap : ctx.type = .flowMap := by
            cases kind : ctx.type with
            | flowMap => rfl
            | flowSeq => exact absurd (by rw [Option.any_some, kind]; rfl) notSeq
            | blockMap =>
                rw [kind] at flow
                cases flow
            | blockSeq =>
                rw [kind] at flow
                cases flow
          rw [Option.any_some, isMap] at notKey
          have written := some isMap notKey
          rw [none noProps, List.append_nil] at propertied
          rw [dropSpace]
          split
          · refine ⟨before.dropLast, ?_, hasBreak_dropLast plain⟩
            dsimp only
            rw [propertied, List.dropLast_append_of_ne_nil written]
          · exact here
        · exact here
      · exact here.trans (.puts e₂ isPlain)

theorem openCollection_flow (isTop : e.topCtx = some ctx) (flow : ctx.type.isFlow = true)
    (useFlow : e.useFlow evt = true) (onLine : NamesOnLine evt) :
    OneLine e (e.openCollection evt) := by
  obtain ⟨_, before, separated, plain, _⟩ := emitPreNode_flow isTop flow false
  obtain ⟨_, props, propertied, plain', _⟩ := emitProps_flow (e.emitPreNode false) onLine
  rw [openCollection, useFlow]
  change OneLine e ((e.emitPreNode false).emitProps evt)
  refine ⟨before ++ props, ?_, ?_⟩
  · rw [propertied, separated, List.append_assoc]
  · rw [hasBreak_append, plain, plain']
    rfl

theorem enter_buf (e : Emitter) (type : EmitCtxType) (indent : Nat) :
    (e.enter type indent).buf = e.buf := by
  change e.advanceCtx.buf = e.buf
  rw [advanceCtx]
  split <;> rfl

theorem startMapping_flow (useFlow : e.useFlow evt = true) :
    (e.startMapping evt).buf = (e.openCollection evt).buf ++ [lbrace] := by
  rw [startMapping, useFlow]
  exact enter_buf _ _ _

theorem startSequence_flow (useFlow : e.useFlow evt = true) :
    (e.startSequence evt).buf = (e.openCollection evt).buf ++ [lbracket] := by
  rw [startSequence, useFlow]
  exact enter_buf _ _ _

theorem endCollection_oneLine (e : Emitter) (ctx : EmitCtx) (own : EmitCtxType)
    {opening closing : UInt8} (plain : hasBreak [opening, closing] = false) :
    OneLine e (e.endCollection ctx own opening closing) := by
  have closed : hasBreak [closing] = false :=
    hasBreak_eq_false.mpr fun c member =>
      hasBreak_eq_false.mp plain c (List.mem_cons_of_mem _ member)
  rw [endCollection]
  split
  · exact ⟨[closing], rfl, closed⟩
  split
  · split
    · refine ⟨[space, opening, closing], ?_, plain⟩
      exact List.append_assoc _ _ _
    · exact ⟨[opening, closing], rfl, plain⟩
  · exact ⟨[], (List.append_nil _).symm, rfl⟩

/-- A mark of a document, or the end of the stream, where it is written. -/
def isMark (evt : Event) : Bool :=
  evt.type == .streamEnd || ((evt.type == .docStart || evt.type == .docEnd) && !evt.implicit)

/-- An event in a flow collection. -/
theorem emit_oneLine (layered : e.Layered) (flow : e.inAnyFlow = true) (onLine : NamesOnLine evt)
    (noMark : isMark evt = false) (emitted : e.emit evt = some e') : OneLine e e' := by
  obtain ⟨ctx, isTop, isFlow⟩ := layered.top flow
  have useFlow := useFlow_of_flow flow evt
  have advanced {q : Emitter} (written : OneLine e q) : OneLine e q.advanceCtx := by
    refine written.trans ⟨[], ?_, rfl⟩
    rw [advanceCtx, List.append_nil]
    split <;> rfl
  have opened {q : Emitter} {c : UInt8} (plain : hasBreak [c] = false)
      (written : q.buf = (e.openCollection evt).buf ++ [c]) : OneLine e q :=
    (openCollection_flow isTop isFlow useFlow onLine).trans ⟨[c], written, plain⟩
  rw [emit] at emitted
  rw [isMark] at noMark
  split at emitted
  · cases emitted
  · cases emitted
    exact ⟨[], (List.append_nil _).symm, rfl⟩
  · rename_i isEnd
    rw [isEnd] at noMark
    cases noMark
  · rename_i isStart
    rw [isStart] at noMark
    have unwritten : evt.implicit = true := by simpa using noMark
    cases emitted
    rw [unwritten]
    exact ⟨[], (List.append_nil _).symm, rfl⟩
  · rename_i isEnd
    rw [isEnd] at noMark
    have unwritten : evt.implicit = true := by simpa using noMark
    cases emitted
    rw [unwritten]
    exact .refl e
  · cases emitted
    exact opened rfl (startMapping_flow useFlow)
  · obtain ⟨ctx, _, rfl⟩ := Option.map_eq_some_iff.mp emitted
    exact endCollection_oneLine e ctx _ rfl
  · cases emitted
    exact opened rfl (startSequence_flow useFlow)
  · obtain ⟨ctx, _, rfl⟩ := Option.map_eq_some_iff.mp emitted
    exact endCollection_oneLine e ctx _ rfl
  · cases emitted
    exact advanced (scalar_oneLine isTop isFlow onLine)
  · rename_i isAlias
    cases emitted
    obtain ⟨_, before, separated, plain, _⟩ := emitPreNode_flow isTop isFlow false
    refine advanced ⟨before ++ star :: evt.value, ?_, ?_⟩
    · change (e.emitPreNode false).buf ++ (star :: evt.value) = _
      rw [separated, List.append_assoc]
    · rw [hasBreak_append, plain, hasBreak_cons, onLine.2 isAlias]
      rfl

/-- A mark is written behind what is there. -/
theorem mark_appends (mark : isMark evt = true) (emitted : e.emit evt = some e') :
    ∃ new, e'.buf = e.buf ++ new := by
  have fresh (q : Emitter) : ∃ new, q.freshLine.buf = q.buf ++ new := by
    rw [freshLine]
    split
    · exact ⟨[lf], rfl⟩
    · exact ⟨[], (List.append_nil _).symm⟩
  have behind {q : Emitter} (text : Bytes) (appends : ∃ new, q.buf = e.buf ++ new) :
      ∃ new, (q.puts text).buf = e.buf ++ new := by
    obtain ⟨first, written⟩ := appends
    exact ⟨first ++ text, (congrArg (· ++ text) written).trans (List.append_assoc _ _ _)⟩
  rw [isMark] at mark
  rw [emit] at emitted
  cases type : evt.type with
  | streamEnd =>
      rw [type] at emitted
      cases emitted
      exact fresh e
  | docStart =>
      rw [type] at emitted mark
      have written : evt.implicit = false := by simpa using mark
      cases emitted
      rw [written]
      dsimp only
      refine behind _ ?_
      split
      · exact fresh e
      · exact ⟨[], (List.append_nil _).symm⟩
  | docEnd =>
      rw [type] at emitted mark
      have written : evt.implicit = false := by simpa using mark
      cases emitted
      rw [written]
      exact behind _ (fresh e)
  | none => rw [type] at mark; cases mark
  | streamStart => rw [type] at mark; cases mark
  | mappingStart => rw [type] at mark; cases mark
  | mappingEnd => rw [type] at mark; cases mark
  | sequenceStart => rw [type] at mark; cases mark
  | sequenceEnd => rw [type] at mark; cases mark
  | scalar => rw [type] at mark; cases mark
  | «alias» => rw [type] at mark; cases mark

/-! ### Runs -/

namespace Call

/-- Is the call a mark? -/
def isMark : Call → Bool
  | .emit evt => Emitter.isMark evt
  | .setStyle _ | .setIndent _ => false

/-- Have the names in the call no line break? -/
def NamesOnLine : Call → Prop
  | .emit evt => Emitter.NamesOnLine evt
  | .setStyle _ | .setIndent _ => True

end Call

/-- A flow collection is open before each of the calls. -/
def StaysOpen (e : Emitter) : List Call → Prop
  | [] => True
  | call :: rest => e.inAnyFlow = true ∧ (e.call call).StaysOpen rest

/-- Each of the calls writes behind what is there, and no break if it is no mark. -/
def EachOneLine (e : Emitter) : List Call → Prop
  | [] => True
  | call :: rest =>
      (∃ new, (e.call call).buf = e.buf ++ new ∧ (call.isMark = false → hasBreak new = false)) ∧
        (e.call call).EachOneLine rest

theorem call_oneLine (layered : e.Layered) (flow : e.inAnyFlow = true) {call : Call}
    (onLine : call.NamesOnLine) :
    ∃ new, (e.call call).buf = e.buf ++ new ∧ (call.isMark = false → hasBreak new = false) := by
  have unwritten : ∃ new, e.buf = e.buf ++ new ∧ (call.isMark = false → hasBreak new = false) :=
    ⟨[], (List.append_nil _).symm, fun _ => rfl⟩
  cases call with
  | emit evt =>
      rw [Emitter.call]
      cases emitted : e.emit evt with
      | none => exact unwritten
      | some e' =>
          rw [Option.getD_some]
          cases mark : isMark evt with
          | false =>
              obtain ⟨new, written, plain⟩ := emit_oneLine layered flow onLine mark emitted
              exact ⟨new, written, fun _ => plain⟩
          | true =>
              obtain ⟨new, written⟩ := mark_appends mark emitted
              exact ⟨new, written, fun noMark => Bool.noConfusion (mark.symm.trans noMark)⟩
  | setStyle style => exact unwritten
  | setIndent indent => exact unwritten

/-- All calls. -/
theorem calls_oneLine {span : List Call} (layered : e.Layered)
    (onLine : ∀ call ∈ span, call.NamesOnLine) (stays : e.StaysOpen span) :
    e.EachOneLine span ∧
      ((∀ call ∈ span, call.isMark = false) → OneLine e (e.calls span)) := by
  induction span generalizing e with
  | nil => exact ⟨trivial, fun _ => .refl e⟩
  | cons call span ih =>
      obtain ⟨flow, rest⟩ := stays
      obtain ⟨new, written, plain⟩ := call_oneLine layered flow (onLine call List.mem_cons_self)
      obtain ⟨each, onOne⟩ := ih (layered.call call)
        (fun later member => onLine later (List.mem_cons_of_mem _ member)) rest
      refine ⟨⟨⟨new, written, plain⟩, each⟩, fun noMarks => ?_⟩
      have first : OneLine e (e.call call) :=
        ⟨new, written, plain (noMarks call List.mem_cons_self)⟩
      exact first.trans (onOne fun later member => noMarks later (List.mem_cons_of_mem _ member))

theorem layered_of_block (outside : e.inAnyFlow = false) : e.Layered := by
  rw [inAnyFlow_kinds, List.any_eq_false] at outside
  exact List.pairwise_of_forall_mem_list fun upper _ lower member flow =>
    absurd flow (outside lower member)

theorem useFlow_of_opened {kind block : EmitCtxType} (outside : e.inAnyFlow = false)
    (noFlow : block.isFlow = false)
    (kinds : e'.kinds = (if e.useFlow evt then kind else block) :: e.kinds)
    (inside : e'.inAnyFlow = true) : e.useFlow evt = true := by
  rw [inAnyFlow_kinds] at outside inside
  rw [kinds, List.any_cons, outside, Bool.or_false] at inside
  by_contra isBlock
  rw [if_neg isBlock, noFlow] at inside
  cases inside

/-- A call that opens an outermost flow collection ends with its bracket. -/
theorem call_opens {call : Call} (outside : e.inAnyFlow = false)
    (inside : (e.call call).inAnyFlow = true) :
    ∃ before bracket, (e.call call).buf = before ++ [bracket] ∧
      (bracket = lbrace ∨ bracket = lbracket) := by
  have stays {q : Emitter} (kinds : ∀ kind ∈ q.kinds, kind ∈ e.kinds)
      (flow : q.inAnyFlow = true) : False := by
    rw [inAnyFlow_kinds, List.any_eq_false] at outside
    rw [inAnyFlow_kinds, List.any_eq_true] at flow
    obtain ⟨kind, member, isFlow⟩ := flow
    exact outside kind (kinds kind member) isFlow
  cases call with
  | setStyle style => exact (stays (fun _ member => member) inside).elim
  | setIndent indent => exact (stays (fun _ member => member) inside).elim
  | emit evt =>
      rw [Emitter.call] at inside ⊢
      cases emitted : e.emit evt with
      | none =>
          rw [emitted] at inside
          exact (stays (fun _ member => member) inside).elim
      | some e' =>
          rw [emitted, Option.getD_some] at inside
          rw [Option.getD_some]
          cases emit_restacks emitted with
          | same kinds => exact (stays (fun _ member => kinds ▸ member) inside).elim
          | popped kinds =>
              exact (stays (fun _ member => List.mem_of_mem_tail (kinds ▸ member)) inside).elim
          | mapping started =>
              subst started
              have useFlow := useFlow_of_opened outside rfl (startMapping_kinds e evt) inside
              exact ⟨_, lbrace, startMapping_flow useFlow, .inl rfl⟩
          | sequence started =>
              subst started
              have useFlow := useFlow_of_opened outside rfl (startSequence_kinds e evt) inside
              exact ⟨_, lbracket, startSequence_flow useFlow, .inr rfl⟩

/-- From the bracket that opens an outermost flow collection on, as long as one is open, no
call writes a line break but the marks of documents and the end of the stream. -/
theorem flow_oneLine {opening : Call} {span : List Call} (outside : e.inAnyFlow = false)
    (inside : (e.call opening).inAnyFlow = true) (onLine : ∀ call ∈ span, call.NamesOnLine)
    (stays : (e.call opening).StaysOpen span) :
    (∃ before bracket, (e.call opening).buf = before ++ [bracket] ∧
      (bracket = lbrace ∨ bracket = lbracket)) ∧
    (e.call opening).EachOneLine span ∧
    ((∀ call ∈ span, call.isMark = false) →
      ∃ new, ((e.call opening).calls span).buf = (e.call opening).buf ++ new ∧
        hasBreak new = false) :=
  ⟨call_opens outside inside,
    calls_oneLine ((layered_of_block outside).call opening) onLine stays⟩

end

/-- `[` -/
def flowStart : Call := .emit { type := .sequenceStart, flow := true }

/-- A mark of a document is written inside a flow collection, and an end event of the other
kind takes a flow collection off the stack without a bracket. -/
theorem flow_oneLine_marks :
    (({} : Emitter).call flowStart).buf = [lbracket] ∧
      (({} : Emitter).calls [flowStart, .emit { type := .docEnd }]).inAnyFlow = true ∧
      (({} : Emitter).calls [flowStart, .emit { type := .docEnd }]).buf =
        [lbracket, lf, dot, dot, dot, lf] ∧
      (({} : Emitter).calls [flowStart, .emit { type := .scalar, value := [0x61] },
        .emit { type := .mappingEnd }, .emit { type := .scalar, value := [0x62] }]).buf =
          [lbracket, 0x61, lf, 0x62] := by
  decide

theorem flow_oneLine_literal : ∃ new,
    (({} : Emitter).calls [flowStart,
      .emit { type := .scalar, value := [0x61, lf, 0x62], scalarStyle := .literal },
      .emit { type := .sequenceEnd }]).buf = [lbracket] ++ new ∧ hasBreak new = false := by
  have outside : ({} : Emitter).inAnyFlow = false := rfl
  have inside : (({} : Emitter).call flowStart).inAnyFlow = true := by decide
  refine (flow_oneLine outside inside ?_ ?_).2.2 ?_
  · intro call member
    rcases List.mem_cons.mp member with rfl | member
    · exact ⟨rfl, fun isAlias => by cases isAlias⟩
    · rw [List.mem_singleton.mp member]
      exact ⟨rfl, fun isAlias => by cases isAlias⟩
  · exact ⟨by decide, by decide, trivial⟩
  · decide

end Emitter

end Oyl
