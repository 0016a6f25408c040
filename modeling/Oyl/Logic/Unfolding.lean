import Oyl.Logic.Tree
import Mathlib.Algebra.Ring.Nat

/-!
# Unfolding references by doubling

Some leaves of a tree refer to other trees.  Unfolding replaces such a leaf by
a relabelled copy of the tree it refers to.  Substituting, in every round, the
trees as the rounds before left them unfolds `2 ^ k - 1` levels in `k` rounds;
references that lead to no cycle are only finitely many levels deep.
-/

namespace Oyl

universe u

/-- A system of references: the tree a leaf refers to, and the label of a
copied leaf or bracket. -/
structure RefSystem (α : Type u) where
  body : α → Option (Tree α)
  copy : α → α
  /-- A copy refers to the same tree. -/
  body_copy : ∀ a, body (copy a) = body a
  copy_copy : ∀ a, copy (copy a) = copy a

namespace RefSystem

variable {α : Type u} (R : RefSystem α)

/-- Replace a reference by a copy of its tree, under the substitution `f`. -/
def expand (f : α → Tree α) (a : α) : Tree α :=
  match R.body a with
  | none => .leaf a
  | some tree => (tree.bind f).map R.copy

/-- Unfold the references of a leaf `n` levels deep. -/
def unfold : Nat → α → Tree α
  | 0 => .leaf
  | n + 1 => R.expand (unfold n)

/-- What `k` rounds substitute for a leaf: each round replaces the references
that are left by copies of trees that the earlier rounds have substituted. -/
def rounds : Nat → α → Tree α
  | 0 => .leaf
  | k + 1 => fun a => (rounds k a).bind (R.expand (rounds k))

variable {R}

theorem expand_of_none {f : α → Tree α} {a : α} (noBody : R.body a = none) :
    R.expand f a = .leaf a := by
  simp [expand, noBody]

theorem expand_of_some {f : α → Tree α} {a : α} {tree : Tree α}
    (body : R.body a = some tree) : R.expand f a = (tree.bind f).map R.copy := by
  simp [expand, body]

theorem unfold_of_none {n : Nat} {a : α} (noBody : R.body a = none) :
    R.unfold n a = .leaf a := by
  cases n with
  | zero => rfl
  | succ n => exact expand_of_none noBody

/-- Unfolding a copied leaf gives a copied tree. -/
theorem unfold_copy (n : Nat) (a : α) :
    R.unfold n (R.copy a) = (R.unfold n a).map R.copy := by
  cases n with
  | zero => rfl
  | succ n =>
      cases body : R.body a with
      | none =>
          have copied : R.body (R.copy a) = none := by rw [R.body_copy, body]
          simp [unfold, expand_of_none copied, expand_of_none body, Tree.map]
      | some tree =>
          have copied : R.body (R.copy a) = some tree := by rw [R.body_copy, body]
          have twice : R.copy ∘ R.copy = R.copy := funext R.copy_copy
          simp [unfold, expand_of_some copied, expand_of_some body, Tree.map_map, twice]

/-- Unfolding the references that `m` levels leave `n` levels deeper. -/
theorem unfold_add (m n : Nat) (a : α) :
    (R.unfold m a).bind (R.unfold n) = R.unfold (m + n) a := by
  induction m generalizing a with
  | zero => simp [unfold, Tree.bind]
  | succ m ih =>
      cases body : R.body a with
      | none =>
          rw [unfold_of_none body, unfold_of_none body]
          exact unfold_of_none body
      | some tree =>
          calc (R.unfold (m + 1) a).bind (R.unfold n)
              = ((tree.bind (R.unfold m)).map R.copy).bind (R.unfold n) := by
                rw [unfold, expand_of_some body]
            _ = ((tree.bind (R.unfold m)).bind (R.unfold n)).map R.copy :=
                Tree.bind_map R.copy (R.unfold n) (unfold_copy n) _
            _ = (tree.bind (R.unfold (m + n))).map R.copy := by
                rw [Tree.bind_assoc]
                simp only [ih]
            _ = R.unfold (m + 1 + n) a := by
                rw [Nat.add_right_comm, unfold, expand_of_some body]

/-- `k` rounds unfold `2 ^ k - 1` levels. -/
theorem rounds_eq_unfold (k : Nat) : R.rounds k = R.unfold (2 ^ k - 1) := by
  induction k with
  | zero => rfl
  | succ k ih =>
      funext a
      have levels : 2 ^ k - 1 + (2 ^ k - 1 + 1) = 2 ^ (k + 1) - 1 := by
        have := Nat.one_le_two_pow (n := k)
        omega
      calc R.rounds (k + 1) a
          = (R.unfold (2 ^ k - 1) a).bind (R.unfold (2 ^ k - 1 + 1)) := by
            simp only [rounds, ih, unfold]
        _ = R.unfold (2 ^ (k + 1) - 1) a := by rw [unfold_add, levels]

/-- `rank` bounds how deep the references of a leaf go. -/
def Ranked (R : RefSystem α) (rank : α → Nat) : Prop :=
  ∀ a tree, R.body a = some tree → ∀ b ∈ tree.leaves, R.body b ≠ none → rank b < rank a

/-- Unfolding at least as deep as the rank of a leaf reaches the same tree. -/
theorem unfold_stable {rank : α → Nat} (ranked : R.Ranked rank) {m n : Nat} {a : α}
    (below : rank a < m) (le : m ≤ n) : R.unfold m a = R.unfold n a := by
  induction m generalizing a n with
  | zero => omega
  | succ m ih =>
      obtain ⟨n, rfl⟩ : ∃ k, n = k + 1 := ⟨n - 1, by omega⟩
      cases body : R.body a with
      | none => rw [unfold_of_none body, unfold_of_none body]
      | some tree =>
          have leaves : tree.bind (R.unfold m) = tree.bind (R.unfold n) := by
            refine Tree.bind_congr tree fun b member => ?_
            cases inner : R.body b with
            | none => rw [unfold_of_none inner, unfold_of_none inner]
            | some _ =>
                have lower := ranked a tree body b member (by simp [inner])
                exact ih (by omega) (by omega)
          simp only [unfold, expand_of_some body, leaves]

/-- Nothing to unfold is left in a tree without references. -/
theorem unfold_bind_closed {n : Nat} {trees : List (Tree α)}
    (closed : ∀ a ∈ Tree.leavesList trees, R.body a = none) :
    Tree.bindList (R.unfold n) trees = trees := by
  have same : Tree.bindList (R.unfold n) trees = Tree.bindList .leaf trees :=
    Tree.bindList_congr trees fun a member => unfold_of_none (closed a member)
  rw [same, Tree.bindList_leaf]

end RefSystem

end Oyl
