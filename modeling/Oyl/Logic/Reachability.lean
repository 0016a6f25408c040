import Mathlib.Data.Finset.Card
import Mathlib.Logic.Relation

/-!
# Nodes that reach a cycle

A node of a relation that can reach a cycle can do so through one of its
successors.  From the others every path is finite, and counting the reachable
nodes ranks them.
-/

namespace Oyl

open Relation

universe u

variable {α : Type u} {r : α → α → Prop}

/-- Some node reachable from `a` lies on a cycle. -/
def ReachesCycle (r : α → α → Prop) (a : α) : Prop :=
  ∃ c, ReflTransGen r a c ∧ TransGen r c c

namespace ReachesCycle

theorem of_path {a b : α} (path : ReflTransGen r a b) (reaches : ReachesCycle r b) :
    ReachesCycle r a := by
  obtain ⟨c, toCycle, cycle⟩ := reaches
  exact ⟨c, path.trans toCycle, cycle⟩

theorem of_edge {a b : α} (edge : r a b) (reaches : ReachesCycle r b) :
    ReachesCycle r a :=
  of_path (.single edge) reaches

/-- An edge that a path leads back along. -/
theorem of_back {a b : α} (edge : r a b) (path : ReflTransGen r b a) :
    ReachesCycle r a :=
  ⟨a, .refl, .head' edge path⟩

theorem successor {a : α} (reaches : ReachesCycle r a) : ∃ b, r a b ∧ ReachesCycle r b := by
  obtain ⟨c, toCycle, cycle⟩ := reaches
  cases toCycle.cases_head with
  | inl same =>
      subst same
      obtain ⟨b, edge, back⟩ := TransGen.head'_iff.mp cycle
      exact ⟨b, edge, a, back, cycle⟩
  | inr first =>
      obtain ⟨b, edge, path⟩ := first
      exact ⟨b, edge, c, path, cycle⟩

end ReachesCycle

/-- Reaching a cycle transfers along an injection that reflects the steps to
nodes with a successor. -/
theorem reachesCycle_iff_of_injection {β : Type u} {s : β → β → Prop} (f : β → α)
    (inside : β → Prop)
    (edge : ∀ i k, inside i → s i k → inside k ∧ r (f i) (f k))
    (lift : ∀ i b c, inside i → r (f i) b → r b c → ∃ k, inside k ∧ f k = b ∧ s i k)
    (injective : ∀ i k, inside i → inside k → f i = f k → i = k)
    {i : β} (here : inside i) : ReachesCycle s i ↔ ReachesCycle r (f i) := by
  have project {k : β} (path : ReflTransGen s i k) :
      inside k ∧ ReflTransGen r (f i) (f k) := by
    induction path with
    | refl => exact ⟨here, .refl⟩
    | tail _ step ih =>
        have next := edge _ _ ih.1 step
        exact ⟨next.1, ih.2.tail next.2⟩
  have projectCycle {j k : β} (within : inside j) (path : TransGen s j k) :
      inside k ∧ TransGen r (f j) (f k) := by
    induction path with
    | single step => exact (edge _ _ within step).imp id .single
    | tail _ step ih =>
        have next := edge _ _ ih.1 step
        exact ⟨next.1, ih.2.tail next.2⟩
  have liftPath {j : β} {b c : α} (within : inside j) (path : ReflTransGen r (f j) b)
      (out : r b c) : ∃ k, inside k ∧ f k = b ∧ ReflTransGen s j k := by
    induction path generalizing c with
    | refl => exact ⟨j, within, rfl, .refl⟩
    | tail _ step ih =>
        obtain ⟨k, insideK, rfl, path⟩ := ih step
        obtain ⟨l, insideL, rfl, edge⟩ := lift k _ c insideK step out
        exact ⟨l, insideL, rfl, path.tail edge⟩
  constructor
  · rintro ⟨k, path, cycle⟩
    have reached := project path
    exact ⟨f k, reached.2, (projectCycle reached.1 cycle).2⟩
  · rintro ⟨c, path, cycle⟩
    obtain ⟨d, out, back⟩ := TransGen.head'_iff.mp cycle
    obtain ⟨k, insideK, rfl, toCycle⟩ := liftPath here path out
    obtain ⟨b, there, last⟩ := TransGen.tail'_iff.mp cycle
    obtain ⟨l, insideL, rfl, toLast⟩ := liftPath insideK there last
    obtain ⟨m, insideM, same, edge⟩ := lift l _ d insideL last out
    rw [injective m k insideM insideK same] at edge
    exact ⟨k, toCycle, .tail' toLast edge⟩

open Classical in
/-- How many of the first `n` nodes are reachable from node `i`. -/
noncomputable def reachCount (r : Nat → Nat → Prop) (n i : Nat) : Nat :=
  ((Finset.range n).filter fun j => ReflTransGen r i j).card

theorem reachCount_le (r : Nat → Nat → Prop) (n i : Nat) : reachCount r n i ≤ n := by
  classical
  calc reachCount r n i ≤ (Finset.range n).card := Finset.card_filter_le _ _
    _ = n := Finset.card_range n

/-- From a node that reaches no cycle, a step reaches fewer nodes. -/
theorem reachCount_lt {r : Nat → Nat → Prop} {n i j : Nat} (inside : i < n)
    (edge : r i j) (acyclic : ¬ ReachesCycle r i) :
    reachCount r n j < reachCount r n i := by
  classical
  refine Finset.card_lt_card ((Finset.ssubset_iff_of_subset ?_).mpr ⟨i, ?_, ?_⟩)
  · intro k member
    simp only [Finset.mem_filter] at member ⊢
    exact ⟨member.1, .head edge member.2⟩
  · simpa using ⟨inside, ReflTransGen.refl⟩
  · intro member
    exact acyclic (.of_back edge (Finset.mem_filter.mp member).2)

end Oyl
