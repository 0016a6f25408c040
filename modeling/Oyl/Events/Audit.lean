import Oyl.Events.DocumentFrame
import Oyl.Parser.Driver

/-!
# What the eager parser leaves alone

What a fallback goes by is kept by the functions that parse and expand a document:
only `next_event`, `skip_delivered` and the incremental parser's checkpoints change it.
-/

namespace Oyl

open StateError

/-- What a fallback goes by is the same. -/
def Audited (p q : Parser) : Prop := q.audit = p.audit

theorem audited_preorder : Preorder Audited where
  refl _ := rfl
  trans first second := second.trans first

theorem audited_stopWith (p : Parser) (st : Status) (msg : String) :
    Audited p (p.stopWith st msg) := by
  rw [Audited, Parser.stopWith]
  split <;> rfl

theorem audited_peek : Respects Audited peekToken := by
  intro p
  rw [after, peekToken, get_bind_eq]
  by_cases held : p.haveToken = true
  · rw [if_pos held]
    rfl
  · rw [if_neg held]
    cases scanToken p.scanner with
    | ok tok scanner => rfl
    | error st scanner =>
        let reported : Parser := if scanner.errorMsg == "" then { p with scanner := scanner }
          else { p with
            scanner := scanner, errorMsg := scanner.errorMsg, errorMark := scanner.errorMark }
        have kept : Audited p reported := by
          dsimp only [reported, Audited]
          split <;> rfl
        exact kept

theorem audited_enqueue (evt : Event) : Respects Audited (enqueue evt) := by
  refine .getBind fun p => ?_
  split
  · exact Respects.setBind audited_preorder (audited_stopWith p _ _) (audited_preorder.refl _)
  · exact Respects.setBind audited_preorder rfl (audited_preorder.refl _)

theorem audited_nodeFrame : NodeFrame Audited where
  toPreorder := audited_preorder
  peek := audited_peek
  consume _ := rfl
  enqueue evt _ := audited_enqueue evt
  events _ _ _ _ := rfl
  push type indent := by
    refine .getBind fun p => ?_
    split
    · exact audited_stopWith p _ _
    split
    · exact audited_stopWith p _ _
    · rfl
  pop _ := rfl
  props _ _ _ _ _ _ _ _ := rfl
  message _ _ _ := rfl
  limit p _ := audited_stopWith p _ _

theorem audited_documents : DocumentLogic (Respects Audited) where
  toNodeLogic := audited_nodeFrame.logic
  fuel _ := rfl
  update _ neutral p := (neutral.counts p).2
  boundary evt _ := .discard (audited_enqueue evt)

theorem audited_parseStream (n : Nat) : Respects Audited (parseStream (eager n)) := by
  obtain ⟨calls, directives⟩ := audited_documents.eager n
  exact audited_documents.parseStream calls directives fun evt => .discard (audited_enqueue evt)

/-! ### Expansion -/

theorem audited_expansionFailed (b : EvtBuf) : Respects Audited (expansionFailed b) := by
  rw [expansionFailed]
  split
  · exact fun _ => rfl
  · exact .bind audited_preorder (.modify fun p => audited_stopWith p _ _) fun _ => fun _ => rfl

theorem audited_mergePasses (limit : Int) (n : Nat) : Respects Audited (mergePasses limit n) := by
  induction n with
  | zero => exact audited_preorder.refl
  | succ n ih =>
      refine .getBind fun p => ?_
      split
      · rfl
      split
      · exact audited_expansionFailed _ p
      split
      · exact Respects.setBind audited_preorder rfl (ih _)
      · rfl

theorem audited_mergeKeys : Respects Audited resolveMerges :=
  .getBind fun p => audited_mergePasses _ _ p

theorem audited_resolvePasses (cyclic : List Bool) (limit : Int) (n : Nat) :
    Respects Audited (resolvePasses cyclic limit n) := by
  induction n with
  | zero => exact audited_preorder.refl
  | succ n ih =>
      refine .getBind fun p => ?_
      dsimp only
      split
      · exact audited_expansionFailed _ p
      split
      · exact Respects.setBind audited_preorder rfl (ih _)
      · rfl

theorem audited_resolveAliases : Respects Audited resolveAliases := by
  refine .getBind fun p => ?_
  dsimp only
  split
  · rfl
  · exact audited_resolvePasses _ _ _ p

theorem audited_checkEagerDepth : Respects Audited checkEagerDepth := by
  refine .getBind fun p => ?_
  split
  · exact audited_stopWith p _ _
  · rfl

theorem audited_bindAnchors (p : Parser) : Audited p p.bindAnchors := by
  rw [Audited, Parser.bindAnchors]
  split <;> rfl

theorem audited_unbindAnchors (p : Parser) : Audited p p.unbindAnchors := by
  rw [Audited, Parser.unbindAnchors]
  split <;> rfl

/-- A step that is taken in a case only, and what follows. -/
theorem audited_optional {c : Prop} [Decidable c] {x y : ParseM Unit}
    (step : Respects Audited x) (rest : Respects Audited y) :
    Respects Audited (if c then x >>= fun _ => y else y) := by
  split
  · exact .bind audited_preorder step fun _ => rest
  · exact rest

theorem audited_expandDocument : Respects Audited expandDocument := by
  refine .getBind fun p => ?_
  have rest {last : ParseM Unit} (kept : Respects Audited last) :=
    audited_optional (c := p.mergeEnabled) audited_mergeKeys
      (audited_optional (c := p.resolveEnabled) audited_resolveAliases kept)
  split
  · refine Respects.setBind audited_preorder (audited_bindAnchors p) (rest (.bind audited_preorder
      (.modify audited_unbindAnchors) fun _ => audited_checkEagerDepth) _)
  · exact rest audited_checkEagerDepth p

/-- A refill drops the events it delivered, parses the next document and hands it to
`skip_delivered`; nothing else touches what a fallback goes by. -/
theorem eagerRefill_result (n : Nat) (p : Parser) : ∃ q, Audited p q ∧
    ((∃ e, eagerRefill (eager n) p = .error e q) ∨
      (q.skipN = 0 ∧ eagerRefill (eager n) p = .ok () q) ∨
      (0 < q.skipN ∧ eagerRefill (eager n) p = skipDelivered q)) := by
  let start : Parser := { p with evtBase := p.evtBase + p.evtLen, events := [], evtCursor := 0 }
  let skip : ParseM Unit := do
    let p ← get
    if p.skipN > 0 then skipDelivered else pure ()
  have refill : eagerRefill (eager n) p =
      (parseStream (eager n) >>= fun _ => expandDocument >>= fun _ => skip) start := rfl
  have parsed : Audited p (after (parseStream (eager n)) start) := audited_parseStream n start
  cases first : parseStream (eager n) start with
  | error e q =>
      rw [after_error first] at parsed
      rw [run_bind_error first] at refill
      exact ⟨q, parsed, .inl ⟨e, refill⟩⟩
  | ok a q =>
      rw [after_ok first] at parsed
      rw [run_bind_ok first] at refill
      have expanded := audited_preorder.trans parsed (audited_expandDocument q)
      cases second : expandDocument q with
      | error e q' =>
          rw [after_error second] at expanded
          rw [run_bind_error second] at refill
          exact ⟨q', expanded, .inl ⟨e, refill⟩⟩
      | ok b q' =>
          rw [after_ok second] at expanded
          have skips : skip q' = (if q'.skipN > 0 then skipDelivered else pure ()) q' := rfl
          rw [run_bind_ok second, skips] at refill
          refine ⟨q', expanded, .inr ?_⟩
          split at refill
          · rename_i skips
            exact .inr ⟨skips, refill⟩
          · rename_i done
            exact .inl ⟨Nat.eq_zero_of_not_pos done, refill⟩

end Oyl
