import Oyl.Emitter.OneLine
import Oyl.Events.DefaultRuns

/-!
# What the emitter has open

The contexts of the emitter are the open constructs of the events that it was given: a
sequence, or a mapping that waits for a key or for a value.  Of a stream it accepts every event.
-/

namespace Oyl

/-- The construct of a context. -/
def EmitCtx.cell (ctx : EmitCtx) : Cell :=
  if ctx.type.isMap then if ctx.expectKey then .key else .value else .items

namespace Emitter

/-- The open constructs, the innermost first. -/
def cells (e : Emitter) : List Cell := e.stack.map EmitCtx.cell

/-- The emitter is where the stream is. -/
def Mirrors (e : Emitter) : Place → Prop
  | .inside cells => ∃ root, (root = .document ∨ root = .closed) ∧ cells = e.cells ++ [root]
  | _ => e.cells = []

section

variable {e e' : Emitter} {evt : Event} {place place' : Place}

/-! ### The open constructs -/

theorem map_cell_modifyHead {f : EmitCtx → EmitCtx} (same : ∀ ctx, (f ctx).cell = ctx.cell)
    (stack : List EmitCtx) : (stack.modifyHead f).map EmitCtx.cell = stack.map EmitCtx.cell := by
  cases stack with
  | nil => rfl
  | cons ctx stack => rw [List.modifyHead_cons, List.map_cons, List.map_cons, same]

theorem freshLine_cells (e : Emitter) : e.freshLine.cells = e.cells := by
  rw [freshLine]
  split <;> rfl

theorem dropSpace_cells (e : Emitter) : e.dropSpace.cells = e.cells := by
  rw [dropSpace]
  split <;> rfl

theorem afterAlias_cells (e : Emitter) : e.afterAlias.cells = e.cells := by
  rw [afterAlias]
  split <;> rfl

theorem beforeValue_cells (e : Emitter) (ctx : EmitCtx) : (e.beforeValue ctx).cells = e.cells := by
  rw [beforeValue]
  split
  · exact (map_cell_modifyHead (f := fun map => { map with complexKey := false })
      (fun _ => rfl) _).trans (freshLine_cells e)
  · rfl

theorem emitPreNode_cells (e : Emitter) (isCollection : Bool) :
    (e.emitPreNode isCollection).cells = e.cells := by
  rw [emitPreNode]
  cases e.topCtx with
  | none => exact freshLine_cells e
  | some ctx =>
      dsimp only
      cases ctx.type with
      | blockMap =>
          dsimp only
          split
          · split
            · rfl
            split
            · rfl
            split <;> rfl
          · exact (afterAlias_cells _).trans (beforeValue_cells e ctx)
      | blockSeq => exact freshLine_cells e
      | flowMap =>
          dsimp only
          split
          · split <;> rfl
          · exact afterAlias_cells e
      | flowSeq =>
          dsimp only
          split <;> rfl

theorem emitProps_cells (e : Emitter) (evt : Event) : (e.emitProps evt).cells = e.cells := by
  rw [emitProps, emitAnchor]
  split <;> rfl

theorem emitBlockCollectionProps_cells (e : Emitter) (evt : Event) (afterKey : Bool) :
    (e.emitBlockCollectionProps evt afterKey).cells = e.cells := by
  rw [emitBlockCollectionProps]
  split
  · rfl
  · refine (dropSpace_cells _).trans ((emitProps_cells _ evt).trans ?_)
    cases afterKey <;> rfl

theorem emitComplexKeyOpen_cells (e : Emitter) (evt : Event) :
    (e.emitComplexKeyOpen evt).cells = e.cells :=
  (map_cell_modifyHead (f := fun map => { map with complexKey := true })
    (fun _ => rfl) _).trans (emitBlockCollectionProps_cells _ evt true)

theorem emitScalar_cells (e : Emitter) (evt : Event) : (e.emitScalar evt).cells = e.cells := by
  rw [emitScalar]
  split
  · split
    · split
      · rfl
      split
      · exact dropSpace_cells e
      · rfl
    · rfl
  · rfl
  · rfl
  · rfl
  · rfl

theorem openCollection_cells (e : Emitter) (evt : Event) :
    (e.openCollection evt).cells = e.cells := by
  have before := emitPreNode_cells e !e.useFlow evt
  rw [openCollection]
  split
  · exact (emitComplexKeyOpen_cells _ evt).trans before
  split
  · exact (emitProps_cells _ evt).trans before
  · exact (emitBlockCollectionProps_cells _ evt _).trans before

/-! ### Nodes -/

/-- The innermost construct has one node more. -/
theorem EmitCtx.advance_cell (ctx : EmitCtx) :
    ctx.cell.filled = some (EmitCtx.advance ctx).cell := by
  rw [EmitCtx.cell, EmitCtx.advance]
  cases isMap : ctx.type.isMap with
  | true =>
      cases isKey : ctx.expectKey <;> simp [EmitCtx.cell, isMap, Cell.filled]
  | false => simp [EmitCtx.cell, isMap, Cell.filled]

theorem advanceCtx_nil (none : e.cells = []) : e.advanceCtx.cells = [] := by
  have empty : e.stack = [] := List.map_eq_nil_iff.mp none
  rw [advanceCtx, empty]
  exact none

theorem advanceCtx_cons {cell : Cell} {cells : List Cell} (opened : e.cells = cell :: cells) :
    ∃ cell', cell.filled = some cell' ∧ e.advanceCtx.cells = cell' :: cells := by
  obtain ⟨ctx, stack, isStack, rfl, rfl⟩ := List.map_eq_cons_iff.mp opened
  refine ⟨_, EmitCtx.advance_cell ctx, ?_⟩
  rw [advanceCtx, isStack]
  rfl

/-- A node, or the start of one, is filled in. -/
theorem Mirrors.fill {opened : List Cell} (mirrors : e.Mirrors place)
    (filled : place.fill opened = some place') (after : e'.cells = opened ++ e.advanceCtx.cells) :
    e'.Mirrors place' := by
  obtain ⟨cell, cell', cells, rfl, isNext, rfl⟩ := Place.fill_eq_some filled
  obtain ⟨root, isRoot, whole⟩ := mirrors
  cases inner : e.cells with
  | nil =>
      rw [inner, List.nil_append] at whole
      cases whole
      rw [advanceCtx_nil inner, List.append_nil] at after
      -- only the root of a document is filled from outside of all collections
      rcases isRoot with rfl | rfl <;> cases isNext
      exact ⟨.closed, .inr rfl, by rw [after]⟩
  | cons first rest =>
      rw [inner, List.cons_append] at whole
      cases whole
      obtain ⟨next, isNext', advanced⟩ := advanceCtx_cons inner
      obtain rfl := Option.some.inj (isNext.symm.trans isNext')
      rw [advanced] at after
      exact ⟨root, isRoot, by rw [after, List.append_assoc, List.cons_append]⟩

theorem advanceCtx_congr (same : e'.cells = e.cells) :
    e'.advanceCtx.cells = e.advanceCtx.cells := by
  cases inner : e.cells with
  | nil => rw [advanceCtx_nil inner, advanceCtx_nil (same.trans inner)]
  | cons cell cells =>
      obtain ⟨next, isNext, advanced⟩ := advanceCtx_cons inner
      obtain ⟨next', isNext', advanced'⟩ := advanceCtx_cons (same.trans inner)
      obtain rfl := Option.some.inj (isNext.symm.trans isNext')
      rw [advanced, advanced']

theorem enter_cells (type : EmitCtxType) (indent : Nat) (same : e'.cells = e.cells) :
    (e'.enter type indent).cells = (if type.isMap then .key else .items) :: e.advanceCtx.cells := by
  rw [← advanceCtx_congr same]
  cases type <;> rfl

theorem startMapping_cells (e : Emitter) (evt : Event) :
    (e.startMapping evt).cells = .key :: e.advanceCtx.cells := by
  have opened := openCollection_cells e evt
  rw [startMapping]
  dsimp only
  split
  · exact enter_cells .flowMap _ opened
  · split
    · exact enter_cells .blockMap _ opened
    · exact enter_cells .blockMap _ opened

theorem startSequence_cells (e : Emitter) (evt : Event) :
    (e.startSequence evt).cells = .items :: e.advanceCtx.cells := by
  have opened := openCollection_cells e evt
  rw [startSequence]
  split
  · exact enter_cells .flowSeq _ opened
  · exact enter_cells .blockSeq _ opened

theorem endCollection_cells (e : Emitter) (ctx : EmitCtx) (own : EmitCtxType)
    (opening closing : UInt8) :
    (e.endCollection ctx own opening closing).cells = e.cells.tail := by
  have tail {e' : Emitter} (same : e'.stack = e.stack) :
      e'.stack.tail.map EmitCtx.cell = e.cells.tail := by
    rw [same, cells, List.map_tail]
  rw [endCollection]
  dsimp only
  split
  · exact tail rfl
  split
  · split
    · exact tail rfl
    · exact tail rfl
  · exact tail rfl

/-- The end of a collection closes the innermost construct. -/
theorem Mirrors.closes {cell : Cell} {cells : List Cell}
    (mirrors : e.Mirrors (.inside (cell :: cells)))
    (collection : cell ≠ .document ∧ cell ≠ .closed) :
    (∃ ctx, e.topCtx = some ctx) ∧
      ∀ e' : Emitter, e'.cells = e.cells.tail → e'.Mirrors (.inside cells) := by
  obtain ⟨root, isRoot, whole⟩ := mirrors
  cases stack : e.stack with
  | nil =>
      have none : e.cells = [] := by rw [Emitter.cells, stack, List.map_nil]
      rw [none, List.nil_append] at whole
      cases whole
      rcases isRoot with rfl | rfl
      · exact absurd rfl collection.1
      · exact absurd rfl collection.2
  | cons ctx rest =>
      refine ⟨⟨ctx, by rw [topCtx, stack, List.head?_cons]⟩, fun e' popped => ?_⟩
      have inner : e.cells = ctx.cell :: rest.map EmitCtx.cell := by
        rw [Emitter.cells, stack, List.map_cons]
      rw [inner, List.cons_append] at whole
      cases whole
      rw [inner, List.tail_cons] at popped
      exact ⟨root, isRoot, by rw [popped]⟩

/-- An event that the stream may go on with is accepted. -/
theorem emit_mirrors (mirrors : e.Mirrors place) (fed : place.feed evt.type = some place') :
    ∃ e', e.emit evt = some e' ∧ e'.Mirrors place' := by
  rw [emit]
  cases type : evt.type <;> rw [type] at fed <;> simp only [Place.feed] at fed
  case none => cases fed
  case streamStart =>
    split at fed <;> cases fed
    subst place
    exact ⟨_, rfl, mirrors⟩
  case streamEnd =>
    split at fed <;> cases fed
    subst place
    exact ⟨_, rfl, (freshLine_cells e).trans mirrors⟩
  case docStart =>
    split at fed <;> cases fed
    subst place
    have none : e.cells = [] := mirrors
    refine ⟨_, rfl, .document, .inl rfl, ?_⟩
    dsimp only
    split
    · split
      · change _ = e.freshLine.cells ++ _
        rw [freshLine_cells, none]
        rfl
      · change _ = e.cells ++ _
        rw [none]
        rfl
    · change _ = e.cells ++ _
      rw [none]
      rfl
  case docEnd =>
    split at fed <;> cases fed
    subst place
    obtain ⟨root, _, whole⟩ := mirrors
    have none : e.cells = [] := by
      cases inner : e.cells with
      | nil => rfl
      | cons cell cells =>
          rw [inner] at whole
          have length := congrArg List.length whole
          simp at length
    refine ⟨_, rfl, ?_⟩
    split
    · exact (freshLine_cells e).trans none
    · exact none
  case scalar =>
    refine ⟨_, rfl, mirrors.fill fed ?_⟩
    rw [List.nil_append]
    exact advanceCtx_congr ((emitScalar_cells _ evt).trans
      ((emitProps_cells _ evt).trans (emitPreNode_cells e false)))
  case «alias» =>
    refine ⟨_, rfl, mirrors.fill fed ?_⟩
    rw [List.nil_append]
    exact advanceCtx_congr (emitPreNode_cells e false)
  case mappingStart => exact ⟨_, rfl, mirrors.fill fed (startMapping_cells e evt)⟩
  case sequenceStart => exact ⟨_, rfl, mirrors.fill fed (startSequence_cells e evt)⟩
  case mappingEnd =>
    split at fed <;> cases fed
    obtain ⟨⟨ctx, isTop⟩, popped⟩ := mirrors.closes ⟨Cell.noConfusion, Cell.noConfusion⟩
    rw [isTop]
    exact ⟨_, rfl, popped _ (endCollection_cells e ctx _ _ _)⟩
  case sequenceEnd =>
    split at fed <;> cases fed
    obtain ⟨⟨ctx, isTop⟩, popped⟩ := mirrors.closes ⟨Cell.noConfusion, Cell.noConfusion⟩
    rw [isTop]
    exact ⟨_, rfl, popped _ (endCollection_cells e ctx _ _ _)⟩

/-! ### Calls -/

/-- The types of the events that are emitted. -/
def emitted : List Call → List EventType
  | [] => []
  | .emit evt :: calls => evt.type :: emitted calls
  | _ :: calls => emitted calls

/-- No call fails. -/
def Accepts (e : Emitter) : List Call → Prop
  | [] => True
  | .emit evt :: calls => ∃ e', e.emit evt = some e' ∧ e'.Accepts calls
  | call :: calls => (e.call call).Accepts calls

theorem calls_mirror {calls : List Call} (mirrors : e.Mirrors place)
    (fed : place.feedAll (emitted calls) = some place') :
    e.Accepts calls ∧ (e.calls calls).Mirrors place' := by
  induction calls generalizing e place with
  | nil =>
      cases fed
      exact ⟨trivial, mirrors⟩
  | cons call calls ih =>
      rw [Emitter.calls, List.foldl_cons, ← Emitter.calls]
      cases call with
      | emit evt =>
          obtain ⟨next, one, rest⟩ := Option.bind_eq_some_iff.mp fed
          obtain ⟨e', accepted, mirrors'⟩ := emit_mirrors mirrors one
          obtain ⟨accepts, last⟩ := ih mirrors' rest
          refine ⟨⟨e', accepted, accepts⟩, ?_⟩
          rw [call, accepted]
          exact last
      | setStyle style =>
          have same : (e.call (.setStyle style)).Mirrors place := by
            cases place <;> exact mirrors
          exact ih same fed
      | setIndent indent =>
          have same : (e.call (.setIndent indent)).Mirrors place := by
            cases place <;> exact mirrors
          exact ih same fed

end

theorem begun_mirrored {calls : List Call} {place : Place}
    (fed : Place.start.feedAll (emitted calls) = some place) :
    Accepts {} calls ∧ (Emitter.calls {} calls).Mirrors place := by
  have start : Mirrors {} .start := rfl
  exact calls_mirror start fed

/-- Whatever styles and indents are set between them, the emitter accepts every event of a
stream, and of the beginning of one; its contexts are the constructs that are open there. -/
theorem stream_mirrored {calls : List Call} {rest : List EventType}
    (begins : WellFormedStream (emitted calls ++ rest)) :
    Accepts {} calls ∧ ∃ place, Place.start.feedAll (emitted calls) = some place ∧
      (Emitter.calls {} calls).Mirrors place := by
  have whole := feedAll_of_wellFormed begins
  rw [Place.feedAll_append] at whole
  obtain ⟨place, fed, _⟩ := Option.bind_eq_some_iff.mp whole
  obtain ⟨accepts, mirrors⟩ := begun_mirrored fed
  exact ⟨accepts, place, fed, mirrors⟩

/-- A mapping without its value, with another style in between. -/
def openedCalls : List Call :=
  [.emit { type := .streamStart }, .emit { type := .docStart },
    .emit { type := .mappingStart }, .setStyle .flow, .emit { type := .scalar }]

theorem stream_mirrored_openedCalls :
    Accepts {} openedCalls ∧ (Emitter.calls {} openedCalls).cells = [.value] := by
  have begins : WellFormedStream (emitted openedCalls ++
      [.scalar, .mappingEnd, .docEnd, .streamEnd]) := wellFormed_of_feedAll rfl
  obtain ⟨accepts, place, fed, mirrors⟩ := stream_mirrored begins
  cases fed
  obtain ⟨root, _, whole⟩ := mirrors
  refine ⟨accepts, ?_⟩
  have opened : (Emitter.calls {} openedCalls).cells ++ [root] = [.value] ++ [.closed] :=
    whole.symm
  exact (List.append_inj' opened rfl).1

theorem emitted_delivered (delivered : List Event) :
    emitted (delivered.map Call.emit) = delivered.map (·.type) := by
  induction delivered with
  | nil => rfl
  | cons evt delivered ih => rw [List.map_cons, List.map_cons, emitted, ih]

/-- What the parser delivers, the emitter accepts; at the end of the stream nothing is open. -/
theorem delivered_accepted {o : Options} {input : Bytes} {delivered : List Event} {p : Parser}
    (calls : Succeeding ((Parser.new input).configure o) delivered p)
    (parsed : o.eager = true ∨ p.incremental = true) :
    Accepts {} (delivered.map Call.emit) ∧
      (.streamEnd ∈ delivered.map (·.type) →
        (Emitter.calls {} (delivered.map Call.emit)).stack = []) := by
  have begun : ∃ place, Place.start.feedAll (delivered.map (·.type)) = some place := by
    have before {more : List Event} {last : Place}
        (leads : Place.start.feedAll ((delivered ++ more).map (·.type)) = some last) :
        ∃ place, Place.start.feedAll (delivered.map (·.type)) = some place := by
      rw [List.map_append, Place.feedAll_append] at leads
      obtain ⟨place, fed, _⟩ := Option.bind_eq_some_iff.mp leads
      exact ⟨place, fed⟩
    rcases parsed with eager | incremental
    · exact before (eagerRun eager calls).fed
    · rcases anyRun calls with run | ⟨_, _, _, _, _, _, run, _⟩
      · obtain ⟨last, leads, _⟩ := run.leads
        exact before leads
      · rw [run.rests.eager] at incremental
        cases incremental
  obtain ⟨place, fed⟩ := begun
  obtain ⟨accepts, mirrors⟩ := begun_mirrored ((emitted_delivered delivered).symm ▸ fed)
  refine ⟨accepts, fun ended => ?_⟩
  obtain rfl := Place.feedAll_streamEnd fed ended
  exact List.map_eq_nil_iff.mp mirrors

/-- `a` -/
theorem delivered_accepted_scalar :
    ∃ delivered p, Succeeding ((Parser.new [97]).configure {}) delivered p ∧
      (Emitter.calls {} (delivered.map Call.emit)).stack = [] := by
  obtain ⟨delivered, p, calls, incremental, ended⟩ := exists_succeeding 8
    ((Parser.new [97]).configure {}) 5
    (fun delivered p => p.incremental = true ∧ .streamEnd ∈ delivered.map (·.type))
    (by decide +kernel)
  exact ⟨delivered, p, calls, (delivered_accepted calls (.inr incremental)).2 ended⟩

end Emitter

end Oyl
