import Oyl.Logic.StateError

/-!
# Triples with two exits

From a state with the precondition a computation returns with the postcondition,
or stops in a state that satisfies another one.
-/

namespace Oyl

universe u

namespace StateError

variable {ε σ α β : Type u}

/-- What was returned satisfies `Q`, and what was thrown satisfies `E`. -/
def Meets (Q : α → σ → Prop) (E : ε → σ → Prop) : EStateM.Result ε σ α → Prop
  | .ok a s => Q a s
  | .error e s => E e s

/-- From `P`, the computation returns with `Q` or stops with `E`. -/
def Triple (P : σ → Prop) (x : EStateM ε σ α) (Q : α → σ → Prop) (E : ε → σ → Prop) : Prop :=
  ∀ s, P s → Meets Q E (x s)

namespace Triple

variable {P P' : σ → Prop} {Q Q' : α → σ → Prop} {R : β → σ → Prop}
  {E : ε → σ → Prop}

theorem ok {x : EStateM ε σ α} {s s' : σ} {a : α} (triple : Triple P x Q E) (holds : P s)
    (returns : x s = .ok a s') : Q a s' := by
  have meets := triple s holds
  rwa [returns] at meets

theorem error {x : EStateM ε σ α} {s s' : σ} {e : ε} (triple : Triple P x Q E) (holds : P s)
    (stops : x s = .error e s') : E e s' := by
  have meets := triple s holds
  rwa [stops] at meets

theorem pure (a : α) (holds : ∀ s, P s → Q a s) :
    Triple P (Pure.pure a : EStateM ε σ α) Q E :=
  holds

theorem bind {x : EStateM ε σ α} {f : α → EStateM ε σ β} (first : Triple P x Q E)
    (rest : ∀ a, Triple (Q a) (f a) R E) : Triple P (x >>= f) R E := by
  intro s holds
  have meets := first s holds
  rw [run_bind]
  cases result : x s with
  | ok a s' =>
      rw [result] at meets
      exact rest a s' meets
  | error e s' =>
      rw [result] at meets
      exact meets

/-- What follows may use the state that was read. -/
theorem getBind {f : σ → EStateM ε σ β} (rest : ∀ s, P s → Triple (fun t => t = s) (f s) R E) :
    Triple P (MonadState.get >>= f) R E :=
  fun s holds => rest s holds s rfl

theorem modify {u : σ → σ} {Q : PUnit → σ → Prop} (holds : ∀ s, P s → Q ⟨⟩ (u s)) :
    Triple P (modify u : EStateM ε σ PUnit) Q E :=
  holds

theorem ite {c : Prop} [Decidable c] {x y : EStateM ε σ α} (left : c → Triple P x Q E)
    (right : ¬c → Triple P y Q E) : Triple P (if c then x else y) Q E := by
  split
  · exact left ‹_›
  · exact right ‹_›

theorem weaken {x : EStateM ε σ α} (before : ∀ s, P s → P' s) (triple : Triple P' x Q' E)
    (after : ∀ a s, Q' a s → Q a s) : Triple P x Q E := by
  intro s holds
  have meets := triple s (before s holds)
  cases result : x s with
  | ok a s' =>
      rw [result] at meets
      exact after a s' meets
  | error e s' =>
      rw [result] at meets
      exact meets

theorem requires {x : EStateM ε σ α} (before : ∀ s, P s → P' s) (triple : Triple P' x Q E) :
    Triple P x Q E :=
  triple.weaken before fun _ _ => id

theorem ensures {x : EStateM ε σ α} (triple : Triple P x Q' E)
    (after : ∀ a s, Q' a s → Q a s) : Triple P x Q E :=
  triple.weaken (fun _ => id) after

/-- Two triples about one computation. -/
theorem both {x : EStateM ε σ α} (first : Triple P x Q E)
    (second : Triple P' x Q' fun _ _ => True) :
    Triple (fun s => P s ∧ P' s) x (fun a s => Q a s ∧ Q' a s) E := by
  intro s holds
  have meets := first s holds.1
  have meets' := second s holds.2
  cases result : x s <;> rw [result] at meets meets'
  · exact ⟨meets, meets'⟩
  · exact meets

/-- A computation that respects a relation which keeps the conditions. -/
theorem of_respects {x : EStateM ε σ α} {T : σ → σ → Prop} (respects : Respects T x)
    (keeps : ∀ s s', P s → T s s' → P s')
    (fails : ∀ s e s', P s → x s = .error e s' → T s s' → E e s') :
    Triple P x (fun _ => P) E := by
  intro s holds
  have kept := respects s
  cases result : x s with
  | ok a s' =>
      rw [after_ok result] at kept
      exact keeps s s' holds kept
  | error e s' =>
      rw [after_error result] at kept
      exact fails s e s' holds result kept

end Triple

end StateError

end Oyl
