import Oyl.Events.BlockNodes
import Oyl.Events.Chunks

/-!
# Documents of the eager parser

A call of `parse_stream` that succeeds has stored the events that lead from the
place of the stream where the parser was to the place where it is.
-/

namespace Oyl

open StateError

/-- How far the events were read, and how deep they may nest. -/
def Parser.window (p : Parser) : Nat × Int := (p.evtCursor, p.maxDepth)

/-! ### Directives -/

/-- What the functions for directives leave alone. -/
structure Idles (p p' : Parser) : Prop where
  events : p'.events = p.events
  contexts : p'.contexts = p.contexts
  eager : p'.incremental = p.incremental
  started : p'.streamStarted = p.streamStarted
  ended : p'.streamEnded = p.streamEnded
  docOpen : p'.docOpen = p.docOpen
  live : p'.oom = p.oom
  window : p'.window = p.window

theorem idles_preorder : Preorder Idles where
  refl _ := ⟨rfl, rfl, rfl, rfl, rfl, rfl, rfl, rfl⟩
  trans first second :=
    ⟨second.events.trans first.events, second.contexts.trans first.contexts,
      second.eager.trans first.eager, second.started.trans first.started,
      second.ended.trans first.ended, second.docOpen.trans first.docOpen,
      second.live.trans first.live, second.window.trans first.window⟩

theorem idles_peek : Respects Idles peekToken := by
  intro p
  rw [after, peekToken, get_bind_eq]
  by_cases held : p.haveToken = true
  · rw [if_pos held]
    exact idles_preorder.refl p
  · rw [if_neg held]
    cases scanToken p.scanner with
    | ok tok scanner => exact ⟨rfl, rfl, rfl, rfl, rfl, rfl, rfl, rfl⟩
    | error st scanner =>
        dsimp only
        cases scanner.errorMsg == "" <;> exact ⟨rfl, rfl, rfl, rfl, rfl, rfl, rfl, rfl⟩

theorem idles_directives : DirectiveLogic (Respects Idles) where
  toCompositional := Respects.compositional idles_preorder
  error _ _ := .bind idles_preorder (fun _ => ⟨rfl, rfl, rfl, rfl, rfl, rfl, rfl, rfl⟩)
    fun _ => .throw idles_preorder _
  read _ _ ofParts := .getBind fun p => ofParts p p
  peek := idles_peek
  hold u update := .modify fun p => by
    rw [update.props p]
    exact ⟨rfl, rfl, rfl, rfl, rfl, rfl, rfl, rfl⟩
  tags _ := .modify fun _ => ⟨rfl, rfl, rfl, rfl, rfl, rfl, rfl, rfl⟩

theorem eager_directives (n : Nat) (hadDirective hadYaml : Bool) :
    Respects Idles ((eager n).directives hadDirective hadYaml) := by
  induction n generalizing hadDirective hadYaml with
  | zero => exact .throw idles_preorder _
  | succ n ih => exact idles_directives.parseDirectives ih hadDirective hadYaml

/-- Where there is no directive nothing happens. -/
theorem directives_none {n : Nat} {p p' : Parser} {hadDirective hadYaml had : Bool}
    (other : p.tokType ≠ .directive)
    (ok : (eager n).directives hadDirective hadYaml p = .ok had p') :
    had = hadDirective ∧ p' = p := by
  cases n with
  | zero => cases ok
  | succ n =>
      change parseDirectives (eager n) hadDirective hadYaml p = .ok had p' at ok
      rw [parseDirectives, get_bind_eq, if_pos (by simpa using other)] at ok
      cases ok
      exact ⟨rfl, rfl⟩

/-! ### Stopping -/

theorem live_enqueue (evt : Event) : Respects Live (enqueue evt) := by
  intro p
  rw [after, enqueue_run]
  cases p.overLimit with
  | true => exact live_stopWith p _ _
  | false => exact id

theorem live_nodeFrame : NodeFrame Live where
  refl _ := id
  trans first second := fun fine => first (second fine)
  peek p := (steady_nodeFrame.peek p).2
  consume p := (steady_nodeFrame.consume p).2
  enqueue evt _ := live_enqueue evt
  events p events same types := (steady_nodeFrame.events p events same types).2
  push type indent p := (steady_nodeFrame.push type indent p).2
  pop p := (steady_nodeFrame.pop p).2
  props _ _ _ _ _ _ _ _ := id
  message _ _ _ := id
  limit p msg := live_stopWith p _ msg

theorem live_documents : DocumentLogic (Respects Live) where
  toNodeLogic := live_nodeFrame.logic
  fuel _ := id
  update u neutral p := by
    intro fine
    have kept : (u p).oom = p.oom := by
      rw [neutral.output p]
      rfl
    exact kept.symm.trans fine
  boundary evt _ := .discard (live_enqueue evt)

/-! ### Documents -/

/-- The eager parser between two nodes of the stream. -/
structure Parser.Stands (p : Parser) (opened : Bool) : Prop where
  eager : p.incremental = false
  contexts : p.contexts = []
  started : p.streamStarted = true
  running : p.streamEnded = false
  docOpen : p.docOpen = opened

/-- The place after a document's node, or between documents. -/
def docPlace (opened : Bool) : Place := if opened then .inside [.closed] else .between

/-- The stored events lead from one place of the stream to another. -/
structure Leads (first last : Place) (p p' : Parser) : Prop where
  window : p'.window = p.window
  chunk : ∃ events trees, p'.events = p.events ++ events ∧ Chunk first last events trees

section

variable {p q p' : Parser} {first next last : Place} {opened : Bool}

theorem Leads.refl (place : Place) (same : p'.events = p.events ∧ p'.window = p.window) :
    Leads place place p p' :=
  ⟨same.2, [], [], by rw [same.1, List.append_nil], .nil place⟩

theorem Leads.trans (before : Leads first next p q) (after : Leads next last q p') :
    Leads first last p p' := by
  obtain ⟨events, trees, added, chunk⟩ := before.chunk
  obtain ⟨events', trees', added', chunk'⟩ := after.chunk
  exact ⟨after.window.trans before.window, events ++ events', trees ++ trees',
    by rw [added', added, List.append_assoc], chunk.append chunk'⟩

/-- A mark was stored. -/
theorem Leads.mark {evt : Event} (isMark : DocumentMark evt)
    (fed : first.feed evt.type = some last)
    (added : p'.events = p.events ++ [evt] ∧ p'.window = p.window) : Leads first last p p' :=
  ⟨added.2, _, _, added.1, .mark isMark fed⟩

/-- The root of a document was stored. -/
theorem StoresNodes.leads (stores : StoresNodes oneNode p p') :
    Leads (.inside [.document]) (.inside [.closed]) p p' := by
  obtain ⟨trees, nodes, one, stored⟩ := stores
  obtain ⟨tree, rfl⟩ := List.length_eq_one_iff.mp one
  rw [Tree.flattenList, Tree.flattenList, List.append_nil] at stored
  exact ⟨Parser.of_fixed stored.fixed Parser.window fun _ => rfl, _, _, stored.events,
    .node (nodes tree List.mem_cons_self) rfl⟩

theorem StoresNodes.stands {count : Nat → Prop} (stores : StoresNodes count p p')
    (stands : p.Stands opened) : p'.Stands opened := by
  obtain ⟨_, _, _, stored⟩ := stores
  have kept {α : Type} (field : Parser → α) (same : ∀ q, field q.fixed = field q) :
      field p' = field p := Parser.of_fixed stored.fixed field same
  exact ⟨(kept (·.incremental) fun _ => rfl).trans stands.eager,
    stored.contexts.trans stands.contexts,
    (kept (·.streamStarted) fun _ => rfl).trans stands.started,
    (kept (·.streamEnded) fun _ => rfl).trans stands.running,
    (kept (·.docOpen) fun _ => rfl).trans stands.docOpen⟩

theorem Idles.stands (idles : Idles p p') (stands : p.Stands opened) : p'.Stands opened :=
  ⟨idles.eager.trans stands.eager, idles.contexts.trans stands.contexts,
    idles.started.trans stands.started, idles.ended.trans stands.running,
    idles.docOpen.trans stands.docOpen⟩

theorem checkOom_live {a : Unit} (ok : checkOom p = .ok a p') : p = p' ∧ p'.oom = false := by
  obtain rfl := checkOom_ok ok
  rw [checkOom, get_bind_eq] at ok
  split at ok
  · cases ok
  · rename_i live
    exact ⟨rfl, Bool.eq_false_iff.mpr live⟩

theorem closeDocument_leads {explicit : Bool} {a : Unit} (stands : p.Stands opened)
    (ok : closeDocument explicit p = .ok a p') (fine : p'.oom = false) :
    p.oom = false ∧ p'.Stands false ∧ Leads (docPlace opened) .between p p' ∧
      p'.haveToken = p.haveToken ∧ p'.current = p.current := by
  rw [closeDocument, get_bind_eq, stands.docOpen, stands.contexts] at ok
  cases opened with
  | false =>
      cases ok
      exact ⟨fine, stands, .refl _ ⟨rfl, rfl⟩, rfl, rfl⟩
  | true =>
      obtain ⟨_, q, unrolled, rest⟩ := bind_eq_ok ok
      cases unrolled
      obtain ⟨_, q, stored, closed⟩ := bind_eq_ok rest
      cases closed
      obtain rfl := enqueue'_ok stored fine
      refine ⟨fine, ⟨stands.eager, stands.contexts, stands.started, stands.running, rfl⟩,
        .mark ⟨?_, ?_⟩ ?_ ⟨rfl, rfl⟩, rfl, rfl⟩
      · exact .inr (.inr (.inr rfl))
      · rfl
      · rfl

theorem expectDocumentEnd_ok {a : Unit} (ok : expectDocumentEnd p = .ok a p') :
    Peeks p p' ∧ (p'.tokType.endsDocument = true ∨ p'.tokType = .none) := by
  obtain ⟨tt, q, found, rest⟩ := bind_eq_ok ok
  obtain ⟨rfl, peeks⟩ := peekType_ok found
  split at rest
  · cases rest
  · rename_i fits
    cases rest
    refine ⟨peeks, ?_⟩
    simpa [Classical.or_iff_not_imp_left] using fits

/-- A token that ends a document, or none, is ahead. -/
def Parser.AtEnd (p : Parser) : Prop :=
  p.haveToken = true ∧ (p.tokType.endsDocument = true ∨ p.tokType = .none)

theorem root_live {n : Nat} {a : Unit}
    (ok : (do
      (eager n).blockNode
      expectDocumentEnd) p = .ok a p') (fine : p'.oom = false) : p.oom = false := by
  obtain ⟨_, q, parsed, last⟩ := bind_eq_ok ok
  obtain ⟨scanner, tok, rfl⟩ := (expectDocumentEnd_ok last).1.update
  exact ((eager_writesBlock n).blockNode p () q parsed fine).1

/-- The root of a document, and what must follow. -/
theorem root_leads {n : Nat} {a : Unit} (stands : p.Stands true)
    (ok : (do
      (eager n).blockNode
      expectDocumentEnd) p = .ok a p') (fine : p'.oom = false) :
    p'.Stands true ∧ p'.AtEnd ∧ Leads (.inside [.document]) (.inside [.closed]) p p' := by
  obtain ⟨_, q, parsed, last⟩ := bind_eq_ok ok
  obtain ⟨peeks, ending⟩ := expectDocumentEnd_ok last
  obtain ⟨scanner, tok, rfl⟩ := peeks.update
  have stored := ((eager_writesBlock n).blockNode p () q parsed fine).2 stands.eager
  have between := stored.stands stands
  exact ⟨⟨between.eager, between.contexts, between.started, between.running,
    between.docOpen⟩, ⟨peeks.held, ending⟩, stored.leads.trans (.refl _ ⟨rfl, rfl⟩)⟩

theorem parseExplicitDocument_leads {n : Nat} {a : Unit} (stands : p.Stands opened)
    (ok : parseExplicitDocument (eager n) p = .ok a p') (fine : p'.oom = false) :
    p.oom = false ∧ p'.Stands true ∧ p'.AtEnd ∧
      Leads (docPlace opened) (.inside [.closed]) p p' := by
  obtain ⟨_, p1, closed, rest⟩ := bind_eq_ok ok
  rw [get_bind_eq] at rest
  obtain ⟨_, p2, placed, rest⟩ := bind_eq_ok rest
  cases placed
  obtain ⟨_, p3, stored, rest⟩ := bind_eq_ok rest
  obtain ⟨_, p4, opens, rest⟩ := bind_eq_ok rest
  cases opens
  obtain ⟨tt, p5, found, rest⟩ := bind_eq_ok rest
  obtain ⟨rfl, peeks⟩ := peekType_ok found
  have begin (fine3 : p3.oom = false) : p.oom = false ∧ p5.Stands true ∧
      Leads (docPlace opened) (.inside [.document]) p p5 := by
    obtain rfl := enqueue'_ok stored fine3
    obtain ⟨live, between, ends, _, _⟩ := closeDocument_leads stands closed fine3
    obtain ⟨scanner, tok, rfl⟩ := peeks.update
    refine ⟨live, ⟨between.eager, between.contexts, between.started, between.running, rfl⟩,
      ends.trans (.mark ⟨?_, ?_⟩ ?_ ⟨rfl, rfl⟩)⟩
    · exact .inr (.inr (.inl rfl))
    · rfl
    · rfl
  have live (fine5 : p5.oom = false) : p3.oom = false := by
    obtain ⟨scanner, tok, rfl⟩ := peeks.update
    exact fine5
  split at rest
  · cases rest
  split at rest
  · rename_i isEnd
    obtain ⟨live5, stores⟩ := Does.emitEmpty () p' rest fine
    obtain ⟨live0, stands5, leads⟩ := begin (live live5)
    have stored := stores stands5.eager
    rw [emitEmpty, get_bind_eq] at rest
    obtain rfl := enqueueWithProps_ok rest fine
    exact ⟨live0, stored.stands stands5, ⟨peeks.held, .inl isEnd⟩, leads.trans stored.leads⟩
  · obtain ⟨live0, stands5, leads⟩ := begin (live (root_live rest fine))
    obtain ⟨stands', ending, root⟩ := root_leads stands5 rest fine
    exact ⟨live0, stands', ending, leads.trans root⟩

theorem parseImplicitDocument_leads {n : Nat} {a : Unit} (stands : p.Stands false)
    (ok : parseImplicitDocument (eager n) p = .ok a p') (fine : p'.oom = false) :
    p.oom = false ∧ p'.Stands true ∧ p'.AtEnd ∧ Leads .between (.inside [.closed]) p p' := by
  rw [parseImplicitDocument, get_bind_eq, stands.docOpen] at ok
  simp only [Bool.not_false, if_true] at ok
  obtain ⟨_, p1, placed, rest⟩ := bind_eq_ok ok
  cases placed
  obtain ⟨_, p2, ensured, rest⟩ := bind_eq_ok rest
  have fine2 := root_live rest fine
  rw [ensureDoc, get_bind_eq] at ensured
  obtain ⟨_, p3, stored, opens⟩ := bind_eq_ok ensured
  cases opens
  obtain rfl := enqueue'_ok stored fine2
  have atRoot := fun stands => root_leads stands rest fine
  obtain ⟨stands', ending, root⟩ :=
    atRoot ⟨stands.eager, stands.contexts, stands.started, stands.running, rfl⟩
  refine ⟨fine2, stands', ending, Leads.trans ?_ root⟩
  refine .mark ⟨?_, ?_⟩ ?_ ⟨rfl, rfl⟩
  · exact .inr (.inr (.inl rfl))
  · rfl
  · rfl

/-- `parse_document`: in an open document its end is ahead. -/
theorem parseDocument_leads {n : Nat} {a : Unit} (stands : p.Stands opened)
    (held : p.haveToken = true) (ahead : opened = true → p.tokType.endsDocument = true)
    (ok : parseDocument (eager n) p = .ok a p') (fine : p'.oom = false) :
    p.oom = false ∧ ∃ opened', p'.Stands opened' ∧ (opened' = true → p'.AtEnd) ∧
      Leads (docPlace opened) (docPlace opened') p p' := by
  obtain ⟨_, p1, checked, rest⟩ := bind_eq_ok ok
  obtain ⟨rfl, live⟩ := checkOom_live checked
  refine ⟨live, ?_⟩
  obtain ⟨tt, p2, found, rest⟩ := bind_eq_ok rest
  obtain ⟨rfl, rfl⟩ := peekType_held held found
  -- the tag handles of the document before are forgotten
  have forget {q : Parser} {x : ParseM Unit}
      (rest : (if p.tokType != .docEnd && p.tokType != .streamEnd then do
          modify fun p => { p with tagDirectives := [] }
          x
        else x) p = .ok a q) : ∃ p1, x p1 = .ok a q ∧ Idles p p1 ∧ p1.haveToken = p.haveToken ∧
          p1.current = p.current := by
    split at rest
    · obtain ⟨_, p1, forgot, rest⟩ := bind_eq_ok rest
      cases forgot
      exact ⟨_, rest, ⟨rfl, rfl, rfl, rfl, rfl, rfl, rfl, rfl⟩, rfl, rfl⟩
    · exact ⟨p, rest, idles_preorder.refl p, rfl, rfl⟩
  obtain ⟨p1, rest, idles, held1, token1⟩ := forget rest
  obtain ⟨had, p2, directives, rest⟩ := bind_eq_ok rest
  have idles2 := idles_preorder.trans idles ((eager_directives n false false).ok directives)
  have stands2 := idles2.stands stands
  -- an open document has no directives
  have same (isOpen : opened = true) : p2.haveToken = true ∧ p2.tokType.endsDocument = true := by
    have ending : p1.tokType.endsDocument = true := by
      rw [Parser.tokType, token1]
      exact ahead isOpen
    obtain ⟨_, rfl⟩ := directives_none (fun isDirective => by rw [isDirective] at ending; cases ending)
      directives
    exact ⟨held1.trans held, ending⟩
  have from0 {first last : Place} {q : Parser} (leads : Leads first last p2 q) :
      Leads first last p q := (Leads.refl first ⟨idles2.events, idles2.window⟩).trans leads
  rw [get_bind_eq] at rest
  generalize isType : p2.tokType = tt at rest same
  split at rest
  · cases rest
  split at rest
  · obtain ⟨_, stands', ending, leads⟩ := parseExplicitDocument_leads stands2 rest fine
    exact ⟨true, stands', fun _ => ending, from0 leads⟩
  · obtain ⟨_, p3, closed, consumed⟩ := bind_eq_ok rest
    cases consumed
    obtain ⟨_, stands', leads, _, _⟩ := closeDocument_leads stands2 closed fine
    exact ⟨false, ⟨stands'.eager, stands'.contexts, stands'.started, stands'.running,
      stands'.docOpen⟩, fun impossible => Bool.noConfusion impossible,
      from0 (leads.trans (.refl _ ⟨rfl, rfl⟩))⟩
  · cases rest
    refine ⟨opened, stands2, fun isOpen => ?_, from0 (.refl _ ⟨rfl, rfl⟩)⟩
    obtain ⟨held2, ending⟩ := same isOpen
    exact ⟨held2, .inl (isType.symm ▸ ending)⟩
  · cases rest
  · cases rest
  · cases rest
  · have shut : opened = false := by
      refine Bool.eq_false_iff.mpr fun isOpen => ?_
      have ending := (same isOpen).2
      cases tt <;> cases ending <;> contradiction
    subst shut
    obtain ⟨_, stands', ending, leads⟩ := parseImplicitDocument_leads stands2 rest fine
    exact ⟨true, stands', fun _ => ending, from0 leads⟩

/-- Where the parser is in the stream. -/
def Parser.place (p : Parser) : Place :=
  if p.streamEnded then .ended
  else if p.streamStarted then docPlace p.docOpen
  else .start

theorem Parser.Stands.place (stands : p.Stands opened) : p.place = docPlace opened := by
  rw [Parser.place, stands.running, stands.started, stands.docOpen]
  rfl

/-- The eager parser between two calls of `parse_stream`. -/
structure Parser.Rests (p : Parser) : Prop where
  eager : p.incremental = false
  contexts : p.contexts = []
  fresh : p.streamStarted = false → p.docOpen = false
  ahead : p.docOpen = true → p.AtEnd

theorem startStream_leads {a : Unit} (rests : p.Rests) (running : p.streamEnded = false)
    (ok : startStream p = .ok a p') (fine : p'.oom = false) :
    p.oom = false ∧ p'.Stands p.docOpen ∧ (p.docOpen = true → p'.AtEnd) ∧
      Leads p.place (docPlace p.docOpen) p p' := by
  rw [startStream, get_bind_eq] at ok
  cases started : p.streamStarted with
  | true =>
      rw [started] at ok
      cases ok
      have stands : p.Stands p.docOpen := ⟨rests.eager, rests.contexts, started, running, rfl⟩
      exact ⟨fine, stands, rests.ahead, stands.place ▸ .refl _ ⟨rfl, rfl⟩⟩
  | false =>
      rw [started] at ok
      obtain ⟨_, p1, peeked, rest⟩ := bind_eq_ok ok
      obtain ⟨scanner, tok, rfl⟩ := (peekToken_ok peeked).update
      obtain ⟨_, p2, consumed, rest⟩ := bind_eq_ok rest
      cases consumed
      rw [get_bind_eq] at rest
      obtain ⟨_, p3, stored, begins⟩ := bind_eq_ok rest
      cases begins
      obtain rfl := enqueue'_ok stored fine
      have shut := rests.fresh started
      have place : p.place = .start := by rw [Parser.place, running, started]; rfl
      rw [place]
      refine ⟨fine, ⟨rests.eager, rests.contexts, rfl, running, rfl⟩,
        fun isOpen => Bool.noConfusion (shut.symm.trans isOpen), .mark ⟨?_, ?_⟩ ?_ ⟨rfl, rfl⟩⟩
      · exact .inl rfl
      · rfl
      · rw [shut]
        rfl

theorem endStream_leads {a : Unit} (stands : p.Stands opened)
    (ok : endStream p = .ok a p') (fine : p'.oom = false) :
    p.oom = false ∧ p'.Rests ∧ p'.place = .ended ∧ Leads (docPlace opened) .ended p p' := by
  obtain ⟨_, p1, closed, rest⟩ := bind_eq_ok ok
  obtain ⟨_, p2, consumed, rest⟩ := bind_eq_ok rest
  cases consumed
  rw [get_bind_eq] at rest
  obtain ⟨_, p3, stored, ended⟩ := bind_eq_ok rest
  cases ended
  obtain rfl := enqueue'_ok stored fine
  obtain ⟨live, stands', leads, _, _⟩ := closeDocument_leads stands closed fine
  have shut (isOpen : p1.docOpen = true) : False := by
    rw [stands'.docOpen] at isOpen
    cases isOpen
  refine ⟨live, ⟨stands'.eager, stands'.contexts, fun _ => stands'.docOpen,
    fun isOpen => (shut isOpen).elim⟩, rfl, leads.trans (.mark ⟨?_, ?_⟩ ?_ ⟨rfl, rfl⟩)⟩
  · exact .inr (.inl rfl)
  · rfl
  · rfl

/-- `parse_stream` -/
theorem parseStream_leads {n : Nat} (rests : p.Rests) (running : p.streamEnded = false)
    (ok : parseStream (eager n) p = .ok () p') :
    p'.Rests ∧ p'.oom = false ∧ Leads p.place p'.place p p' := by
  obtain ⟨_, p1, started, rest⟩ := bind_eq_ok ok
  obtain ⟨tt, p2, found, rest⟩ := bind_eq_ok rest
  obtain ⟨rfl, peeks⟩ := peekType_ok found
  have begin (fine2 : p2.oom = false) : p2.Stands p.docOpen ∧ (p.docOpen = true → p2.AtEnd) ∧
      Leads p.place (docPlace p.docOpen) p p2 := by
    have held := peeks.held
    obtain ⟨scanner, tok, rfl⟩ := peeks.update
    obtain ⟨_, stands, ahead, leads⟩ := startStream_leads rests running started fine2
    refine ⟨⟨stands.eager, stands.contexts, stands.started, stands.running, stands.docOpen⟩,
      fun isOpen => ?_, leads.trans (.refl _ ⟨rfl, rfl⟩)⟩
    -- the token was there, so peeking changes nothing
    obtain ⟨same, ending⟩ := ahead isOpen
    obtain ⟨_, eq⟩ := peekType_held same found
    rw [← eq]
    exact ⟨same, ending⟩
  split at rest
  · obtain ⟨_, p3, ended, checked⟩ := bind_eq_ok rest
    obtain ⟨rfl, fine⟩ := checkOom_live checked
    have fine2 := (live_documents.endStream (fun evt => .discard (live_enqueue evt))).ok ended fine
    obtain ⟨stands, _, leads⟩ := begin fine2
    obtain ⟨_, rests', place, last⟩ := endStream_leads stands ended fine
    exact ⟨rests', fine, place ▸ leads.trans last⟩
  · rename_i notEnd
    rw [get_bind_eq] at rest
    obtain ⟨_, p3, parsed, rest⟩ := bind_eq_ok rest
    rw [get_bind_eq] at rest
    split at rest
    · cases rest
    · obtain ⟨rfl, fine⟩ := checkOom_live rest
      have fine2 : p2.oom = false := by
        obtain ⟨_, q, checked, _⟩ := bind_eq_ok parsed
        obtain ⟨rfl, fine2⟩ := checkOom_live checked
        exact fine2
      obtain ⟨stands, ahead, leads⟩ := begin fine2
      have ends (isOpen : p.docOpen = true) : p2.tokType.endsDocument = true := by
        rcases (ahead isOpen).2 with ending | isNone
        · exact ending
        · simp [isNone] at notEnd
      obtain ⟨_, opened', stands', ahead', last⟩ :=
        parseDocument_leads stands peeks.held ends parsed fine
      refine ⟨⟨stands'.eager, stands'.contexts, fun impossible => ?_, fun isOpen => ?_⟩, fine,
        stands'.place ▸ leads.trans last⟩
      · cases stands'.started.symm.trans impossible
      · exact ahead' (stands'.docOpen.symm.trans isOpen)

end

end Oyl
