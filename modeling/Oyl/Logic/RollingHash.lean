import Mathlib.Algebra.Ring.Basic
import Mathlib.Algebra.Group.Nat.Defs
import Mathlib.Tactic.Ring

/-!
# Rolling hashes

The hash of a list is a polynomial in a base, accumulated item by item.  The hash
of what follows a known beginning is obtained by subtracting the beginning's, and
powers of the base by repeated squaring.
-/

namespace Oyl

universe u v

namespace RollingHash

section

variable {R : Type u} {α : Type v} [CommRing R] (base : R) (digit : α → R)

/-- The hash after one more item. -/
def step (hash : R) (item : α) : R := hash * base + digit item

/-- The hash of a list of items. -/
def hash (items : List α) : R := items.foldl (step base digit) 0

theorem foldl_step (initial : R) (items : List α) :
    items.foldl (step base digit) initial =
      initial * base ^ items.length + hash base digit items := by
  induction items generalizing initial with
  | nil => simp [hash]
  | cons item items ih =>
      have first : hash base digit (item :: items) =
          step base digit 0 item * base ^ items.length + hash base digit items :=
        ih (step base digit 0 item)
      rw [List.foldl_cons, ih, first, List.length_cons, step, step]
      ring

theorem hash_append (before since : List α) :
    hash base digit (before ++ since) =
      hash base digit before * base ^ since.length + hash base digit since := by
  rw [hash, List.foldl_append]
  exact foldl_step base digit _ since

/-- The hash of what follows a beginning. -/
theorem hash_append_sub (before since : List α) :
    hash base digit (before ++ since) - hash base digit before * base ^ since.length =
      hash base digit since := by
  rw [hash_append, add_sub_cancel_left]

/-- The hash depends on the items' digits only. -/
theorem hash_congr {left right : List α} (same : left.map digit = right.map digit) :
    hash base digit left = hash base digit right := by
  have byDigits (items : List α) : hash base digit items = hash base id (items.map digit) := by
    rw [hash, hash, List.foldl_map]
    rfl
  rw [byDigits, byDigits, same]

end

/-- One round of exponentiation by squaring. -/
theorem pow_halve {M : Type u} [Monoid M] (base : M) (n : Nat) :
    base ^ n = (if n % 2 = 1 then base else 1) * (base * base) ^ (n / 2) := by
  have halves : n % 2 + 2 * (n / 2) = n := Nat.mod_add_div n 2
  have square : (base * base) ^ (n / 2) = base ^ (2 * (n / 2)) := by
    rw [← pow_two, ← pow_mul]
  rw [square]
  rcases Nat.mod_two_eq_zero_or_one n with even | odd
  · rw [even, Nat.zero_add] at halves
    rw [if_neg (by omega), one_mul, halves]
  · rw [odd] at halves
    rw [if_pos odd, ← pow_succ', Nat.add_comm, halves]

end RollingHash

end Oyl
