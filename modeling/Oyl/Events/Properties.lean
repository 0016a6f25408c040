import Oyl.Events.Reading

/-!
# Properties of nodes

Anchors and tags are consumed into the pending properties, and these go into
one event.
-/

namespace Oyl

open StateError

namespace Parser

/-- No properties are pending. -/
def Bare (p : Parser) : Prop := p.hasAnchor = false ∧ p.hasTag = false

theorem Bare.hasProps {p : Parser} (bare : p.Bare) : p.hasProps = false := by
  simp [Parser.hasProps, bare.1, bare.2]

theorem Bare.pendingData {p : Parser} (bare : p.Bare) (kind : Datum) :
    p.pendingData kind = [] := by
  cases kind <;> simp [Parser.pendingData, bare.1, bare.2]

theorem bare_of_hasProps {p : Parser} (none : p.hasProps = false) : p.Bare := by
  simpa [Parser.hasProps, Bare] using none

end Parser

section

variable {p p' : Parser}

theorem Peeks.bare (peeks : Peeks p p') (bare : p.Bare) : p'.Bare := by
  obtain ⟨scanner, tok, rfl⟩ := peeks.update
  exact bare

/-- Everything but the first property's place. -/
theorem startProps_onward (p : Parser) : Onward p p.startProps :=
  ⟨fun kind => ⟨rfl, by simp [Parser.startProps], id,
    .stay rfl rfl (by cases kind <;> rfl)⟩, rfl⟩

theorem takeAnchor_onward (held : p.haveToken = true) (isAnchor : p.tokType = .anchor)
    (fresh : p.hasAnchor = false) : Onward p p.takeAnchor := by
  have taken {q : Parser} (held : q.haveToken = true) (isAnchor : q.current.type = .anchor)
      (fresh : q.hasAnchor = false) : Onward q
        { q with
          pendingAnchor := some q.current.value, hasAnchor := true, haveToken := false } := by
    refine ⟨fun kind => ⟨rfl, by simp, fun tidy => ⟨rfl, tidy.2⟩, [], [q.current], .nil _, ?_, ?_⟩,
      rfl⟩
    · simp [Parser.ahead, held]
    · cases kind <;> simp [Parser.pendingData, Token.data, isAnchor, fresh]
  unfold Parser.takeAnchor
  split
  · exact taken held isAnchor fresh
  · exact (startProps_onward p).trans (taken held isAnchor fresh)

theorem takeTag_onward (held : p.haveToken = true) (isTag : p.tokType = .tag)
    (fresh : p.hasTag = false) : Onward p p.takeTag := by
  have taken {q : Parser} (held : q.haveToken = true) (isTag : q.current.type = .tag)
      (fresh : q.hasTag = false) : Onward q
        { q with
          pendingTag := some (expandTag q.tagDirectives q.current.value), hasTag := true,
          haveToken := false } := by
    refine ⟨fun kind => ⟨rfl, by simp, fun tidy => ⟨tidy.1, rfl⟩, [], [q.current], .nil _, ?_, ?_⟩,
      rfl⟩
    · simp [Parser.ahead, held]
    · cases kind <;> simp [Parser.pendingData, Token.data, isTag, fresh]
  unfold Parser.takeTag
  split
  · exact taken held isTag fresh
  · exact (startProps_onward p).trans (taken held isTag fresh)

theorem takeAnchor_flags (p : Parser) :
    p.takeAnchor.hasAnchor = true ∧ p.takeAnchor.hasTag = p.hasTag := by
  unfold Parser.takeAnchor
  split <;> exact ⟨rfl, rfl⟩

theorem takeTag_flags (p : Parser) :
    p.takeTag.hasTag = true ∧ p.takeTag.hasAnchor = p.hasAnchor := by
  unfold Parser.takeTag
  split <;> exact ⟨rfl, rfl⟩

/-- One round: a token is ahead, or a property that was not pending is now. -/
theorem consumeProp_ok {taken : Bool} (ok : consumeProp p = .ok taken p') :
    Onward p p' ∧
      if taken then
        (p.hasAnchor = false ∧ p'.hasAnchor = true ∧ p'.hasTag = p.hasTag) ∨
        (p.hasTag = false ∧ p'.hasTag = true ∧ p'.hasAnchor = p.hasAnchor)
      else p'.haveToken = true := by
  obtain ⟨_, q, first, rest⟩ := bind_eq_ok ok
  have peeks := peekToken_ok first
  have onward := peeks.onward
  have held := peeks.held
  have anchors : q.hasAnchor = p.hasAnchor := by
    obtain ⟨scanner, tok, rfl⟩ := peeks.update
    rfl
  have tags : q.hasTag = p.hasTag := by
    obtain ⟨scanner, tok, rfl⟩ := peeks.update
    rfl
  have stopped : Onward p q ∧ if false = true then
      (p.hasAnchor = false ∧ q.hasAnchor = true ∧ q.hasTag = p.hasTag) ∨
      (p.hasTag = false ∧ q.hasTag = true ∧ q.hasAnchor = p.hasAnchor)
      else q.haveToken = true := ⟨onward, held⟩
  rw [get_bind_eq] at rest
  split at rest
  · cases rest
    exact stopped
  split at rest
  · rename_i isAnchor
    simp only [Bool.and_eq_true, beq_iff_eq, Bool.not_eq_true'] at isAnchor
    split at rest <;> cases rest
    · exact stopped
    · refine ⟨onward.trans (takeAnchor_onward held isAnchor.1 isAnchor.2), ?_⟩
      rw [if_pos rfl, ← anchors, ← tags]
      exact .inl ⟨isAnchor.2, takeAnchor_flags q⟩
  split at rest
  · rename_i isTag
    simp only [Bool.and_eq_true, beq_iff_eq, Bool.not_eq_true'] at isTag
    split at rest
    · cases rest
      exact stopped
    · have finish {start : Parser} (begun : Onward q start) (held : start.haveToken = true)
          (type : start.tokType = .tag) (fresh : start.hasTag = false)
          (same : start.hasAnchor = q.hasAnchor) {result : Parser}
          (ended : result = start.takeTag) :
          Onward p result ∧ if true = true then
            (p.hasAnchor = false ∧ result.hasAnchor = true ∧ result.hasTag = p.hasTag) ∨
            (p.hasTag = false ∧ result.hasTag = true ∧ result.hasAnchor = p.hasAnchor)
            else result.haveToken = true := by
        subst ended
        refine ⟨(onward.trans begun).trans (takeTag_onward held type fresh), ?_⟩
        rw [if_pos rfl]
        refine .inr ⟨tags ▸ isTag.2, (takeTag_flags start).1, ?_⟩
        rw [(takeTag_flags start).2, same, anchors]
      split at rest
      · obtain ⟨_, _, stored, rest⟩ := bind_eq_ok rest
        cases stored
        split at rest <;> cases rest
        exact finish (.refl q) held isTag.1 isTag.2 rfl rfl
      · obtain ⟨_, _, stored, rest⟩ := bind_eq_ok rest
        cases stored
        split at rest <;> cases rest
        exact finish (startProps_onward q) held isTag.1 isTag.2 rfl rfl
  · cases rest
    exact stopped

/-- `consume_props`: a token is ahead, and no alias after properties of its own. -/
theorem consumeProps_ok {a : Unit} (ok : consumeProps p = .ok a p') :
    Onward p p' ∧ p'.haveToken = true ∧ (p'.hasProps = true → p'.tokType = .alias →
      p'.current.start.line ≠ p'.propsLine ∧ p'.inFlow = false) := by
  have last {q : Parser} (onward : Onward p q) (held : q.haveToken = true) {b : Unit}
      (ok : (do
        let p ← get
        if p.hasProps && p.tokType == .alias &&
            (p.current.start.line == p.propsLine || p.inFlow) then
          parseError "an alias cannot have an anchor or tag" : ParseM Unit) q = .ok b p') :
      Onward p p' ∧ p'.haveToken = true ∧ (p'.hasProps = true → p'.tokType = .alias →
        p'.current.start.line ≠ p'.propsLine ∧ p'.inFlow = false) := by
    rw [get_bind_eq] at ok
    split at ok
    · cases ok
    · rename_i fine
      cases ok
      refine ⟨onward, held, fun props isAlias => ?_⟩
      simpa [props, isAlias] using fine
  obtain ⟨first, q, one, rest⟩ := bind_eq_ok ok
  obtain ⟨onward, flags⟩ := consumeProp_ok one
  cases first with
  | false => exact last onward (by simpa using flags) rest
  | true =>
      obtain ⟨second, q', two, rest⟩ := bind_eq_ok rest
      obtain ⟨onward', flags'⟩ := consumeProp_ok two
      cases second with
      | false => exact last (onward.trans onward') (by simpa using flags') rest
      | true =>
          obtain ⟨_, q'', three, rest⟩ := bind_eq_ok rest
          rw [run_discard] at three
          cases result : consumeProp q' with
          | error e s =>
              rw [result] at three
              cases three
          | ok third s =>
              rw [result] at three
              cases three
              obtain ⟨onward'', flags''⟩ := consumeProp_ok result
              cases third with
              | false =>
                  exact last ((onward.trans onward').trans onward'') (by simpa using flags'') rest
              | true =>
                  -- only two properties can be taken
                  simp only [if_true] at flags flags' flags''
                  rcases flags with ⟨a, b, c⟩ | ⟨a, b, c⟩ <;>
                    rcases flags' with ⟨d, e, f⟩ | ⟨d, e, f⟩ <;>
                    rcases flags'' with ⟨g, h, i⟩ | ⟨g, h, i⟩ <;> simp_all

/-! ### Events with properties -/

/-- An event that has no properties yet. -/
def Event.Bare (evt : Event) : Prop := evt.anchor = none ∧ evt.tag = none

/-- An event with the pending properties of `p`. -/
def Parser.attached (p : Parser) (evt : Event) : Event :=
  { evt with
    anchor := if p.hasAnchor then p.pendingAnchor else evt.anchor
    tag := if p.hasTag then p.pendingTag else evt.tag
    start := if p.hasProps then p.propsStart else evt.start }

/-- The parser once its properties were given away. -/
def Parser.detached (p : Parser) : Parser :=
  { p with
    pendingAnchor := if p.hasAnchor then none else p.pendingAnchor
    pendingTag := if p.hasTag then none else p.pendingTag
    hasAnchor := false
    hasTag := false }

theorem attachProps_run (p : Parser) (evt : Event) :
    attachProps evt p = .ok (p.attached evt) p.detached := rfl

theorem Parser.attached_data {evt : Event} (bare : evt.Bare) (kind : Datum) :
    (p.attached evt).data kind = p.pendingData kind ++ evt.data kind := by
  cases kind with
  | value => rfl
  | anchor => cases has : p.hasAnchor <;>
      simp [Parser.attached, Event.data, Parser.pendingData, has, bare.1]
  | tag => cases has : p.hasTag <;>
      simp [Parser.attached, Event.data, Parser.pendingData, has, bare.2]

theorem Parser.detached_bare (p : Parser) : p.detached.Bare := ⟨rfl, rfl⟩

theorem Parser.detached_tidy {p : Parser} (tidy : p.PropsTidy) : p.detached.PropsTidy := by
  obtain ⟨anchor, tag⟩ := tidy
  constructor
  · cases has : p.hasAnchor <;> cases pending : p.pendingAnchor <;>
      simp_all [Parser.detached]
  · cases has : p.hasTag <;> cases pending : p.pendingTag <;>
      simp_all [Parser.detached]

theorem Parser.detached_conveys (p : Parser) (kind : Datum) :
    Conveys kind p p.detached (p.pendingData kind) :=
  .attach rfl rfl p.detached_bare

theorem enqueueWithProps_ok {evt : Event} {a : Unit}
    (ok : enqueueWithProps evt p = .ok a p') (fine : p'.oom = false) :
    p' = { p.detached with events := p.events ++ [p.tagged (p.attached evt)] } := by
  obtain ⟨given, q, attach, rest⟩ := bind_eq_ok ok
  rw [attachProps_run] at attach
  cases attach
  exact enqueue'_ok rest fine

end

end Oyl
