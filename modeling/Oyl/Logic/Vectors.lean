import Mathlib.Data.Nat.Bitwise

/-!
# Vector instructions

The instructions on vectors of 16 bytes by their byte-wise meaning, the bit masks they
produce, and scans of a list in blocks.
-/

namespace Oyl

namespace Vectors

/-! ### Bit masks -/

/-- The number with the given binary digits, the least significant first. -/
def mask : List Bool → Nat
  | [] => 0
  | bit :: bits => bit.toNat + 2 * mask bits

/-- The trailing zeros of a number of `width` binary digits. -/
def trailingZeros : Nat → Nat → Nat
  | 0, _ => 0
  | width + 1, n => if n % 2 = 1 then 0 else trailingZeros width (n / 2) + 1

section

variable {bits first second : List Bool} {width : Nat}

theorem mask_lt (bits : List Bool) : mask bits < 2 ^ bits.length := by
  induction bits with
  | nil => exact Nat.one_pos
  | cons bit bits ih =>
      rw [mask, List.length_cons, Nat.pow_succ]
      have small := bit.toNat_le
      omega

theorem mask_eq_zero : mask bits = 0 ↔ true ∉ bits := by
  induction bits with
  | nil => simp [mask]
  | cons bit bits ih =>
      rw [mask, Nat.add_eq_zero_iff, Nat.mul_eq_zero, ih]
      cases bit <;> simp

theorem mask_full : mask bits = 2 ^ bits.length - 1 ↔ false ∉ bits := by
  induction bits with
  | nil => simp [mask]
  | cons bit bits ih =>
      have below := mask_lt bits
      rw [mask, List.length_cons, Nat.pow_succ, List.mem_cons, not_or, ← ih]
      cases bit with
      | true =>
          simp only [Bool.toNat_true, Bool.false_eq_true, not_false_eq_true, true_and]
          omega
      | false =>
          simp only [Bool.toNat_false, not_true, false_and, iff_false]
          omega

/-- The lowest digit that is set. -/
theorem trailingZeros_mask (some : true ∈ bits) (within : bits.length ≤ width) :
    trailingZeros width (mask bits) = bits.findIdx id := by
  induction bits generalizing width with
  | nil => cases some
  | cons bit bits ih =>
      obtain ⟨width, rfl⟩ := Nat.exists_eq_add_of_lt (Nat.lt_of_lt_of_le (Nat.succ_pos _) within)
      rw [Nat.zero_add, trailingZeros, mask, List.findIdx_cons]
      cases bit with
      | true =>
          rw [if_pos (by simp [Nat.add_mod])]
          rfl
      | false =>
          have half : (false.toNat + 2 * mask bits) / 2 = mask bits := by simp
          have rest : true ∈ bits := by simpa using some
          rw [if_neg (by simp), half, ih rest (by simpa using within)]
          rfl

/-- The lowest digit that is not set. -/
theorem trailingZeros_complement (within : bits.length < width) :
    trailingZeros width (2 ^ width - 1 - mask bits) = bits.findIdx (!·) := by
  induction bits generalizing width with
  | nil =>
      obtain ⟨width, rfl⟩ := Nat.exists_eq_add_of_lt within
      rw [List.findIdx_nil, trailingZeros, mask, Nat.pow_succ]
      have some := Nat.two_pow_pos (0 + width)
      rw [if_pos (by simp only [List.length_nil] at *; omega)]
  | cons bit bits ih =>
      obtain ⟨width, rfl⟩ := Nat.exists_eq_add_of_lt (Nat.lt_of_le_of_lt (Nat.zero_le _) within)
      rw [Nat.zero_add] at within ⊢
      have below := mask_lt bits
      have short : bits.length < width := by simpa using within
      have fits := Nat.pow_lt_pow_right (Nat.one_lt_two) short
      rw [trailingZeros, mask, List.findIdx_cons, Nat.pow_succ]
      cases bit with
      | true =>
          have half : (2 ^ width * 2 - 1 - (true.toNat + 2 * mask bits)) / 2 =
              2 ^ width - 1 - mask bits := by
            rw [Bool.toNat_true]
            omega
          rw [if_neg (by rw [Bool.toNat_true]; omega), half, ih short]
          rfl
      | false =>
          rw [if_pos (by rw [Bool.toNat_false]; omega)]
          rfl

theorem mask_append :
    mask (first ++ second) = mask first ||| mask second <<< first.length := by
  have sum : mask (first ++ second) = 2 ^ first.length * mask second + mask first := by
    induction first with
    | nil => simp [mask]
    | cons bit first ih =>
        rw [List.cons_append, mask, mask, ih, List.length_cons, Nat.pow_succ]
        have shift : 2 ^ first.length * 2 * mask second = 2 * (2 ^ first.length * mask second) := by
          rw [Nat.mul_comm (2 ^ first.length), Nat.mul_assoc]
        omega
  rw [sum, Nat.two_pow_add_eq_or_of_lt (mask_lt first), Nat.or_comm, Nat.shiftLeft_eq,
    Nat.mul_comm]

/-- Clearing the lowest digit that is set. -/
theorem mask_clear (some : true ∈ bits) :
    mask bits &&& (mask bits - 1) =
      mask (List.replicate (bits.findIdx id + 1) false ++ bits.drop (bits.findIdx id + 1)) := by
  induction bits with
  | nil => cases some
  | cons bit bits ih =>
      cases bit with
      | true =>
          have here : (true :: bits).findIdx id = 0 := by
            rw [List.findIdx_cons]
            rfl
          have rest : mask (true :: bits) - 1 = mask (false :: bits) := by
            rw [mask, mask, Bool.toNat_true, Bool.toNat_false]
            omega
          have odd : mask (true :: bits) = Nat.bit true (mask bits) := by
            rw [Nat.bit_val, mask, Nat.add_comm]
          have even : mask (false :: bits) = Nat.bit false (mask bits) := by
            rw [Nat.bit_val, mask, Nat.add_comm]
          have cleared : List.replicate (0 + 1) false ++ (true :: bits).drop (0 + 1) =
              false :: bits := rfl
          rw [here, cleared, rest, odd, even, Nat.land_bit, Nat.and_self]
          rfl
      | false =>
          have later : true ∈ bits := by
            rcases List.mem_cons.mp some with now | later
            · cases now
            · exact later
          have positive : mask bits ≠ 0 := fun zero => mask_eq_zero.mp zero later
          have next : (false :: bits).findIdx id = bits.findIdx id + 1 := by
            rw [List.findIdx_cons]
            rfl
          have even : mask (false :: bits) = Nat.bit false (mask bits) := by
            rw [Nat.bit_val, mask, Nat.add_comm]
          have less : mask (false :: bits) - 1 = Nat.bit true (mask bits - 1) := by
            rw [Nat.bit_val, mask, Bool.toNat_false, Bool.toNat_true]
            omega
          rw [next, less, even, Nat.land_bit, ih later, List.replicate_succ, List.cons_append,
            mask, Nat.bit_val, Bool.false_and, Nat.add_comm]
          rfl

/-- A mask that is built digit by digit. -/
theorem foldl_mask (p : Nat → Bool) (n : Nat) :
    (List.range n).foldl (fun m k => if p k then m ||| 1 <<< k else m) 0 =
      mask ((List.range n).map p) := by
  induction n with
  | zero => rfl
  | succ n ih =>
      rw [List.range_succ, List.foldl_append, ih, List.map_append, mask_append, List.length_map,
        List.length_range, List.foldl_cons, List.foldl_nil, List.map_singleton]
      cases p n with
      | true => rfl
      | false => rw [if_neg Bool.false_ne_true, mask, mask]; simp

end

/-! ### Vectors of bytes -/

/-- `_mm_set1_epi8` -/
def set1Epi8 (x : UInt8) : List UInt8 := List.replicate 16 x

/-- `_mm_cmpeq_epi8` -/
def cmpeqEpi8 (v w : List UInt8) : List UInt8 :=
  List.zipWith (fun x y => if x == y then 0xFF else 0) v w

/-- `_mm_or_si128` -/
def orSi128 (v w : List UInt8) : List UInt8 := List.zipWith (· ||| ·) v w

/-- `_mm_movemask_epi8`: the most significant bit of each byte. -/
def movemaskEpi8 (v : List UInt8) : Nat := mask (v.map fun x => 0x80 ≤ x)

/-- Is a byte in one of the ranges, each given by its two ends? -/
def inRanges : List UInt8 → UInt8 → Bool
  | low :: high :: ranges, x => (low ≤ x && x ≤ high) || inRanges ranges x
  | _, _ => false

/-- `_mm_cmpestri` for ranges of unsigned bytes: the first byte in a range, or 16. -/
def cmpestriRanges (ranges : List UInt8) (la : Nat) (v : List UInt8) (lb : Nat) : Nat :=
  ((v.take lb).findIdx? (inRanges (ranges.take la))).getD 16

/-- A vector that is all ones in the bytes with a property. -/
def byteMask (p : UInt8 → Bool) (v : List UInt8) : List UInt8 :=
  v.map fun x => if p x then 0xFF else 0

section

variable {v : List UInt8} {p q : UInt8 → Bool}

theorem zipWith_replicate {α β γ : Type} (f : α → β → γ) (l : List α) (b : β) :
    List.zipWith f l (List.replicate l.length b) = l.map fun a => f a b := by
  induction l with
  | nil => rfl
  | cons a l ih => rw [List.length_cons, List.replicate_succ, List.zipWith_cons_cons, ih]; rfl

theorem cmpeq_set1 (size : v.length = 16) (c : UInt8) :
    cmpeqEpi8 v (set1Epi8 c) = byteMask (· == c) v := by
  rw [cmpeqEpi8, set1Epi8, ← size, zipWith_replicate]
  rfl

theorem or_set1 (size : v.length = 16) (c : UInt8) :
    orSi128 v (set1Epi8 c) = v.map (· ||| c) := by
  rw [orSi128, set1Epi8, ← size, zipWith_replicate]

theorem or_byteMask (v : List UInt8) :
    orSi128 (byteMask p v) (byteMask q v) = byteMask (fun x => p x || q x) v := by
  rw [orSi128, byteMask, byteMask, byteMask, List.zipWith_map, List.zipWith_self]
  congr 1
  funext x
  cases p x <;> cases q x <;> rfl

theorem byteMask_map (f : UInt8 → UInt8) (v : List UInt8) :
    byteMask p (v.map f) = byteMask (fun x => p (f x)) v := by
  rw [byteMask, byteMask, List.map_map]
  rfl

theorem movemask_byteMask (v : List UInt8) : movemaskEpi8 (byteMask p v) = mask (v.map p) := by
  rw [movemaskEpi8, byteMask, List.map_map]
  congr 2
  funext x
  rw [Function.comp]
  cases p x <;> rfl

end

/-! ### Scans in blocks -/

universe u

/-- A scan of `count` blocks of `size` elements, and of what is left. -/
def blockScan {α : Type u} (size : Nat) (block : List α → Option Nat) (tail : List α → Nat) :
    Nat → List α → Nat
  | 0, l => tail l
  | count + 1, l =>
      match block (l.take size) with
      | some i => i
      | none => size + blockScan size block tail count (l.drop size)

section

variable {α : Type u} {size : Nat} {block : List α → Option Nat} {tail : List α → Nat}
  {ends stops : α → Bool}

/-- A scan that may also stop in a block where the rest would not. -/
theorem blockScan_spec (stricter : ∀ x, ends x = true → stops x = true)
    (isBlock : ∀ chunk, chunk.length = size → block chunk = chunk.findIdx? stops)
    (isTail : ∀ l, tail l = l.findIdx ends) {count : Nat} {l : List α}
    (enough : size * count ≤ l.length) :
    blockScan size block tail count l ≤ l.findIdx ends ∧
      (blockScan size block tail count l < l.findIdx ends →
        ∃ x, l[blockScan size block tail count l]? = some x ∧ stops x = true) := by
  induction count generalizing l with
  | zero =>
      rw [blockScan, isTail]
      exact ⟨Nat.le_refl _, fun less => absurd less (Nat.lt_irrefl _)⟩
  | succ count ih =>
      rw [Nat.mul_succ] at enough
      have length : (l.take size).length = size := List.length_take_of_le (by omega)
      have split := List.take_append_drop size l
      rw [blockScan, isBlock _ length]
      cases found : (l.take size).findIdx? stops with
      | some i =>
          dsimp only
          obtain ⟨below, isFirst⟩ := List.findIdx?_eq_some_iff_findIdx_eq.mp found
          have here : l[i]? = some (l.take size)[i] := by
            rw [← List.getElem?_eq_getElem below, List.getElem?_take_of_lt (length ▸ below)]
          constructor
          · have earlier : (l.take size).findIdx stops ≤ (l.take size).findIdx ends :=
              List.findIdx_le_findIdx fun x _ => stricter x
            rw [← split, List.findIdx_append]
            split
            · exact isFirst ▸ earlier
            · omega
          · intro _
            refine ⟨_, here, ?_⟩
            subst isFirst
            exact List.findIdx_getElem
      | none =>
          dsimp only
          have silent : ∀ x ∈ l.take size, ends x = false := by
            intro x member
            have quiet := List.findIdx?_eq_none_iff.mp found x member
            rw [Bool.eq_false_iff] at quiet ⊢
            exact fun ended => quiet (stricter x ended)
          have skipped : l.findIdx ends = size + (l.drop size).findIdx ends := by
            conv_lhs => rw [← split]
            rw [List.findIdx_append, List.findIdx_eq_length_of_false silent,
              if_neg (Nat.lt_irrefl _),
              length, Nat.add_comm]
          have rest : size * count ≤ (l.drop size).length := by
            rw [List.length_drop]
            omega
          obtain ⟨before, stopped⟩ := ih rest
          rw [skipped]
          refine ⟨Nat.add_le_add_left before _, fun less => ?_⟩
          obtain ⟨x, isAt, stop⟩ := stopped (Nat.lt_of_add_lt_add_left less)
          exact ⟨x, by rw [← isAt, List.getElem?_drop], stop⟩

/-- A scan that stops at the same elements in blocks and in the rest. -/
theorem blockScan_eq
    (isBlock : ∀ chunk, chunk.length = size → block chunk = chunk.findIdx? stops)
    (isTail : ∀ l, tail l = l.findIdx stops) {count : Nat} {l : List α}
    (enough : size * count ≤ l.length) :
    blockScan size block tail count l = l.findIdx stops := by
  obtain ⟨before, stopped⟩ := blockScan_spec (fun _ => id) isBlock isTail enough
  apply Nat.le_antisymm before
  by_contra less
  obtain ⟨x, isAt, stop⟩ := stopped (Nat.not_le.mp less)
  have quiet := List.not_of_lt_findIdx (Nat.not_le.mp less)
  obtain ⟨_, isAt'⟩ := List.getElem?_eq_some_iff.mp isAt
  rw [isAt', stop] at quiet
  cases quiet

end

end Vectors

end Oyl
