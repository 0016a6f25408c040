import Mathlib.Algebra.Order.Group.Nat
import Mathlib.Data.Nat.ModEq

/-!
# Words

Arithmetic on machine words that keeps track of whether an operation wrapped around, and
the padding that aligns an address.
-/

namespace Words

/-- A computation on words, with whether an operation has wrapped around. -/
abbrev Wrapping := StateM Bool

section

variable (size : Nat)

/-- Addition of words below `size`. -/
def add (x y : Nat) : Wrapping Nat := do
  if x + y ≥ size then set true
  return (x + y) % size

def sub (x y : Nat) : Wrapping Nat := do
  if x < y then set true
  return (x + size - y) % size

def mul (x y : Nat) : Wrapping Nat := do
  if x * y ≥ size then set true
  return (x * y) % size

end

section

variable {size x y : Nat}

theorem add_fits (fits : x + y < size) : add size x y = pure (x + y) := by
  rw [add, if_neg (Nat.not_le.mpr fits), Nat.mod_eq_of_lt fits]

theorem sub_fits (ordered : y ≤ x) (fits : x < size) : sub size x y = pure (x - y) := by
  have around : x + size - y = x - y + size := by omega
  rw [sub, if_neg (Nat.not_lt.mpr ordered), around, Nat.add_mod_right,
    Nat.mod_eq_of_lt (by omega)]

theorem mul_fits (fits : x * y < size) : mul size x y = pure (x * y) := by
  rw [mul, if_neg (Nat.not_le.mpr fits), Nat.mod_eq_of_lt fits]

end

/-! ### Alignment -/

/-- What is missing at an address to the next multiple of `align`. -/
def padding (addr align : Nat) : Nat := (align - addr % align) % align

section

variable {addr align : Nat}

theorem padding_lt (positive : 0 < align) : padding addr align < align :=
  Nat.mod_lt _ positive

theorem dvd_add_padding (positive : 0 < align) : align ∣ addr + padding addr align := by
  have low := Nat.mod_lt addr positive
  have split := Nat.div_add_mod addr align
  rw [padding]
  rcases Nat.eq_zero_or_pos (addr % align) with aligned | loose
  · rw [aligned, Nat.sub_zero, Nat.mod_self, Nat.add_zero]
    exact Nat.dvd_of_mod_eq_zero aligned
  · rw [Nat.mod_eq_of_lt (by omega)]
    refine ⟨addr / align + 1, ?_⟩
    rw [Nat.mul_add, Nat.mul_one]
    omega

/-- Aligning does not pass a multiple. -/
theorem add_padding_le {bound : Nat} (positive : 0 < align) (multiple : align ∣ bound)
    (below : addr ≤ bound) : addr + padding addr align ≤ bound := by
  obtain ⟨n, isBound⟩ := multiple
  have next : align ∣ addr + padding addr align := dvd_add_padding positive
  have short : padding addr align < align := padding_lt positive
  obtain ⟨m, isNext⟩ := next
  rw [isBound] at below ⊢
  rw [isNext]
  refine Nat.mul_le_mul_left align ?_
  by_contra further
  have later : align * (n + 1) ≤ align * m := Nat.mul_le_mul_left align (Nat.not_le.mp further)
  rw [Nat.mul_add, Nat.mul_one] at later
  omega

/-- Masks with a power of two compute the padding. -/
theorem padding_eq_and (power : align.isPowerOfTwo) :
    (align - (addr &&& (align - 1))) &&& (align - 1) = padding addr align := by
  obtain ⟨k, rfl⟩ := power
  rw [Nat.and_two_pow_sub_one_eq_mod, Nat.and_two_pow_sub_one_eq_mod, padding]

end

end Words
