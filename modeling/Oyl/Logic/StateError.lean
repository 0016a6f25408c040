import Mathlib.Init

/-!
# Computations with state and errors

What the operations of `EStateM` do when they are applied to a state, and the
rules for a relation between the states before and after a computation,
whether it returns or stops.
-/

namespace Oyl

universe u

namespace StateError

variable {ε σ α β : Type u}

theorem run_pure (a : α) (s : σ) : (pure a : EStateM ε σ α) s = .ok a s := rfl

theorem run_bind (x : EStateM ε σ α) (f : α → EStateM ε σ β) (s : σ) :
    (x >>= f) s = match x s with
      | .ok a s => f a s
      | .error e s => .error e s := rfl

theorem run_bind_ok {x : EStateM ε σ α} {f : α → EStateM ε σ β} {s s' : σ} {a : α}
    (first : x s = .ok a s') : (x >>= f) s = f a s' := by
  rw [run_bind, first]

theorem run_bind_error {x : EStateM ε σ α} {f : α → EStateM ε σ β} {s s' : σ} {e : ε}
    (first : x s = .error e s') : (x >>= f) s = .error e s' := by
  rw [run_bind, first]

theorem run_get (s : σ) : (get : EStateM ε σ σ) s = .ok s s := rfl

theorem run_set (s s' : σ) : (set s' : EStateM ε σ PUnit) s = .ok ⟨⟩ s' := rfl

theorem run_modify (f : σ → σ) (s : σ) :
    (modify f : EStateM ε σ PUnit) s = .ok ⟨⟩ (f s) := rfl

theorem run_throw (e : ε) (s : σ) : (throw e : EStateM ε σ α) s = .error e s := rfl

theorem run_ite (c : Prop) [Decidable c] (x y : EStateM ε σ α) (s : σ) :
    (if c then x else y) s = if c then x s else y s := by
  split <;> rfl

theorem run_discard (x : EStateM ε σ α) (s : σ) :
    (discard x : EStateM ε σ PUnit) s = match x s with
      | .ok _ s' => .ok ⟨⟩ s'
      | .error e s' => .error e s' := by
  change EStateM.map _ x s = _
  rw [EStateM.map]
  cases x s <;> rfl

/-- The steps of a computation that returns. -/
theorem bind_eq_ok {x : EStateM ε σ α} {f : α → EStateM ε σ β} {s t : σ} {b : β}
    (ok : (x >>= f) s = .ok b t) : ∃ a s', x s = .ok a s' ∧ f a s' = .ok b t := by
  rw [run_bind] at ok
  cases first : x s with
  | ok a s' =>
      rw [first] at ok
      exact ⟨a, s', rfl, ok⟩
  | error e s' =>
      rw [first] at ok
      cases ok

theorem get_bind_eq (f : σ → EStateM ε σ β) (s : σ) : (get >>= f) s = f s s := rfl

/-! ### Judgements -/

/-- A judgement that computations inherit from their parts. -/
structure Compositional (J : {α : Type u} → EStateM ε σ α → Prop) : Prop where
  pure : ∀ {α : Type u} (a : α), J (Pure.pure a : EStateM ε σ α)
  bind : ∀ {α β : Type u} {x : EStateM ε σ α} {f : α → EStateM ε σ β},
    J x → (∀ a, J (f a)) → J (x >>= f)

/-- A step that is taken in a case only, and what follows. -/
theorem Compositional.optional {J : {α : Type u} → EStateM ε σ α → Prop}
    (logic : Compositional (ε := ε) (σ := σ) J) {c : Prop} [Decidable c]
    {x : EStateM ε σ α} {y : EStateM ε σ β} (step : J x) (rest : J y) :
    J (if c then x >>= fun _ => y else y) := by
  split
  · exact logic.bind step fun _ => rest
  · exact rest

/-- Setting a state that was computed from the current one. -/
theorem of_get_set {J : EStateM ε σ β → Prop} (u : σ → σ) (f : σ → EStateM ε σ β)
    (ofModify : J (get >>= fun s => modify u >>= fun _ => f s)) :
    J (get >>= fun s => set (u s) >>= fun _ => f s) := ofModify

/-- What follows may be replaced by what does the same in the state that was read. -/
theorem of_get_congr {J : EStateM ε σ β → Prop} {f : σ → EStateM ε σ β}
    (g : σ → EStateM ε σ β) (same : ∀ s, f s s = g s s) (ofGet : J (get >>= g)) :
    J (get >>= f) := by
  have eq : (get >>= f : EStateM ε σ β) = get >>= g := funext same
  rw [eq]
  exact ofGet

/-! ### Relations between states -/

/-- The state that a computation leaves. -/
def after (x : EStateM ε σ α) (s : σ) : σ :=
  match x s with
  | .ok _ s' => s'
  | .error _ s' => s'

theorem after_ok {x : EStateM ε σ α} {s s' : σ} {a : α} (ok : x s = .ok a s') :
    after x s = s' := by
  rw [after, ok]

theorem after_error {x : EStateM ε σ α} {s s' : σ} {e : ε} (stops : x s = .error e s') :
    after x s = s' := by
  rw [after, stops]

theorem after_getBind {f : σ → EStateM ε σ β} (s : σ) :
    after (MonadState.get >>= f) s = after (f s) s := rfl

/-- A computation relates the state it starts in to the one it leaves. -/
def Respects (R : σ → σ → Prop) (x : EStateM ε σ α) : Prop := ∀ s, R s (after x s)

/-- A preorder on states. -/
structure Preorder (R : σ → σ → Prop) : Prop where
  refl : ∀ s, R s s
  trans : ∀ {s t u}, R s t → R t u → R s u

namespace Respects

variable {R : σ → σ → Prop}

theorem ok {x : EStateM ε σ α} (respects : Respects R x) {s s' : σ} {a : α}
    (returns : x s = .ok a s') : R s s' :=
  after_ok returns ▸ respects s

theorem pure (order : Preorder R) (a : α) : Respects R (Pure.pure a : EStateM ε σ α) :=
  order.refl

theorem throw (order : Preorder R) (e : ε) : Respects R (throw e : EStateM ε σ α) :=
  order.refl

theorem get (order : Preorder R) : Respects R (MonadState.get : EStateM ε σ σ) :=
  order.refl

theorem modify {f : σ → σ} (step : ∀ s, R s (f s)) :
    Respects R (modify f : EStateM ε σ PUnit) :=
  step

theorem bindAt (order : Preorder R) {x : EStateM ε σ α} {f : α → EStateM ε σ β} {s : σ}
    (before : R s (after x s)) (rest : ∀ a, Respects R (f a)) :
    R s (after (x >>= f) s) := by
  cases result : x s with
  | ok a s' =>
      rw [after, result] at before
      have last := rest a s'
      rw [after] at last ⊢
      rw [run_bind, result]
      exact order.trans before last
  | error e s' =>
      rw [after, result] at before
      rw [after, run_bind, result]
      exact before

theorem bind (order : Preorder R) {x : EStateM ε σ α} {f : α → EStateM ε σ β}
    (first : Respects R x) (rest : ∀ a, Respects R (f a)) : Respects R (x >>= f) :=
  fun s => bindAt order (first s) rest

/-- A continuation that depends on the current state. -/
theorem getBind {f : σ → EStateM ε σ β} (rest : ∀ s, R s (after (f s) s)) :
    Respects R (MonadState.get >>= f) :=
  rest

/-- A new state, and what follows. -/
theorem setBind (order : Preorder R) {f : PUnit → EStateM ε σ β} {s s' : σ} (step : R s s')
    (rest : R s' (after (f ⟨⟩) s')) : R s (after (MonadStateOf.set s' >>= f) s) :=
  order.trans step rest

theorem ite {c : Prop} [Decidable c] {x y : EStateM ε σ α} (left : Respects R x)
    (right : Respects R y) : Respects R (if c then x else y) := by
  split
  · exact left
  · exact right

theorem compositional (order : Preorder R) :
    Compositional (ε := ε) (σ := σ) (Respects R) where
  pure := .pure order
  bind := .bind order

theorem discard {x : EStateM ε σ α} (respects : Respects R x) :
    Respects R (discard x : EStateM ε σ PUnit) := by
  intro s
  have before := respects s
  rw [after] at before ⊢
  rw [run_discard]
  cases result : x s <;> rw [result] at before <;> exact before

end Respects

/-! ### Images of states -/

/-- The same result in the image of the state. -/
def mapState (φ : σ → σ) : EStateM.Result ε σ α → EStateM.Result ε σ α
  | .ok a s => .ok a (φ s)
  | .error e s => .error e (φ s)

/-- From the image of `s` a computation does what it does from `s`, and it keeps `I`. -/
def CommutesAt (φ : σ → σ) (I : σ → Prop) (x : EStateM ε σ α) (s : σ) : Prop :=
  x (φ s) = mapState φ (x s) ∧ I (after x s)

def Commutes (φ : σ → σ) (I : σ → Prop) (x : EStateM ε σ α) : Prop :=
  ∀ s, I s → CommutesAt φ I x s

section

variable {φ : σ → σ} {I : σ → Prop}

theorem CommutesAt.bind {x : EStateM ε σ α} {f : α → EStateM ε σ β} {s : σ}
    (first : CommutesAt φ I x s) (rest : ∀ a s', x s = .ok a s' → CommutesAt φ I (f a) s') :
    CommutesAt φ I (x >>= f) s := by
  obtain ⟨image, kept⟩ := first
  cases result : x s with
  | ok a s' =>
      rw [result] at image
      obtain ⟨image', kept'⟩ := rest a s' result
      refine ⟨?_, ?_⟩
      · rw [run_bind_ok image, run_bind_ok result, image']
      · rw [after, run_bind_ok result]
        exact kept'
  | error e s' =>
      rw [result] at image
      rw [after_error result] at kept
      refine ⟨?_, ?_⟩
      · rw [run_bind_error image, run_bind_error result]
        rfl
      · rw [after_error (run_bind_error result)]
        exact kept

/-- What is read says the same in the image. -/
theorem CommutesAt.getBind {f : σ → EStateM ε σ β} {s : σ} (same : f (φ s) = f s)
    (rest : CommutesAt φ I (f s) s) : CommutesAt φ I (get >>= f) s := by
  refine ⟨?_, rest.2⟩
  rw [get_bind_eq, same, get_bind_eq]
  exact rest.1

namespace Commutes

theorem pure (a : α) : Commutes φ I (Pure.pure a : EStateM ε σ α) :=
  fun _ kept => ⟨rfl, kept⟩

theorem throw (e : ε) : Commutes φ I (throw e : EStateM ε σ α) :=
  fun _ kept => ⟨rfl, kept⟩

theorem bind {x : EStateM ε σ α} {f : α → EStateM ε σ β} (first : Commutes φ I x)
    (rest : ∀ a, Commutes φ I (f a)) : Commutes φ I (x >>= f) := by
  intro s kept
  refine (first s kept).bind fun a s' ok => rest a s' ?_
  have kept' := (first s kept).2
  rwa [after_ok ok] at kept'

theorem compositional : Compositional (ε := ε) (σ := σ) (Commutes φ I) where
  pure := .pure
  bind := .bind

theorem modify {u : σ → σ} (image : ∀ s, I s → u (φ s) = φ (u s)) (keeps : ∀ s, I s → I (u s)) :
    Commutes φ I (modify u : EStateM ε σ PUnit) := by
  intro s kept
  refine ⟨?_, keeps s kept⟩
  rw [run_modify, run_modify, image s kept]
  rfl

theorem getBind {f : σ → EStateM ε σ β} (same : ∀ s, I s → f (φ s) = f s)
    (rest : ∀ s, I s → CommutesAt φ I (f s) s) : Commutes φ I (get >>= f) :=
  fun s kept => .getBind (same s kept) (rest s kept)

theorem discard {x : EStateM ε σ α} (commutes : Commutes φ I x) :
    Commutes φ I (discard x : EStateM ε σ PUnit) := by
  intro s kept
  obtain ⟨image, kept'⟩ := commutes s kept
  rw [CommutesAt, after, run_discard, run_discard, image]
  rw [after] at kept'
  cases result : x s <;> rw [result] at kept' <;> exact ⟨rfl, kept'⟩

end Commutes

end

/-! ### What a computation returns -/

/-- Everything a computation returns has a property. -/
def Returns (P : α → Prop) (x : EStateM ε σ α) : Prop := ∀ s a s', x s = .ok a s' → P a

namespace Returns

variable {P : α → Prop}

theorem pure {a : α} (holds : P a) : Returns P (Pure.pure a : EStateM ε σ α) := by
  intro s a' s' ok
  cases ok
  exact holds

theorem bind {x : EStateM ε σ β} {f : β → EStateM ε σ α} (rest : ∀ b, Returns P (f b)) :
    Returns P (x >>= f) := by
  intro s a s' ok
  obtain ⟨b, q, _, last⟩ := bind_eq_ok ok
  exact rest b q a s' last

theorem throw {e : ε} : Returns P (MonadExcept.throw e : EStateM ε σ α) := by
  intro s a s' ok
  cases ok

theorem bindOf {Q : β → Prop} {x : EStateM ε σ β} {f : β → EStateM ε σ α} (first : Returns Q x)
    (rest : ∀ b, Q b → Returns P (f b)) : Returns P (x >>= f) := by
  intro s a s' ok
  obtain ⟨b, q, before, last⟩ := bind_eq_ok ok
  exact rest b (first s b q before) q a s' last

theorem ite {c : Prop} [Decidable c] {x y : EStateM ε σ α} (left : Returns P x)
    (right : Returns P y) : Returns P (if c then x else y) := by
  split
  · exact left
  · exact right

end Returns

end StateError

end Oyl
