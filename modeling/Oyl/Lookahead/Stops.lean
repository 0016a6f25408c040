import Oyl.Parser.FlowCursor
import Oyl.Tokens.Vectorised

/-!
# The cursor enumerates the stop bytes

The bits of a cursor are the stops of its block that were not consumed.  From any
position on it gives the offsets of the stops one after the other, and then the
length of the input.
-/

namespace Oyl

open Vectors

/-- A form of `oyl_flow_mask64`. -/
def IsFlowMask (mask64 : Bytes → Nat) : Prop :=
  ∀ p : Bytes, p.length = 64 → mask64 p = mask (p.map isFkStop)

theorem flowMask64_isFlowMask : IsFlowMask flowMask64 := fun _ => flowMask64_eq

theorem flowMask64Sse2_isFlowMask : IsFlowMask flowMask64Sse2 :=
  fun _ size => (flowMask64Sse2_eq size).trans (flowMask64_eq size)

/-- The stops among the bytes of a block. -/
def blockStops (input : Bytes) (base : Nat) : List Bool :=
  ((input.drop base).take 64).map isFkStop

theorem fkMaskAt_eq {mask64 : Bytes → Nat} (isMask : IsFlowMask mask64) (input : Bytes)
    (base : Nat) : fkMaskAt mask64 input base = mask (blockStops input base) := by
  rw [fkMaskAt, blockStops]
  split
  · rename_i full
    exact isMask _ (List.length_take_of_le (by rw [List.length_drop]; exact full))
  · rename_i part
    have whole : (input.drop base).take 64 = input.drop base :=
      List.take_of_length_le (by rw [List.length_drop]; omega)
    rw [foldl_mask fun k => isFkStop (input.getD (base + k) 0), whole]
    congr 1
    refine List.ext_getElem (by simp) fun k below _ => ?_
    rw [List.length_map, List.length_range] at below
    rw [List.getElem_map, List.getElem_map, List.getElem_range, List.getElem_drop,
      List.getD_eq_getElem?_getD, List.getElem?_eq_getElem (by omega), Option.getD_some]

/-- The next stop of the cursor is the first at or after `pos`. -/
structure FkCursor.At (c : FkCursor) (input : Bytes) (pos : Nat) : Prop where
  reads : c.input = input
  base : c.base ≤ pos
  near : pos ≤ c.base + 64
  within : pos ≤ input.length
  bits : c.bits =
    mask (List.replicate (pos - c.base) false ++ (blockStops input c.base).drop (pos - c.base))

theorem fkSeek_at {mask64 : Bytes → Nat} (isMask : IsFlowMask mask64) {input : Bytes} {pos : Nat}
    (within : pos ≤ input.length) : (fkSeek mask64 input pos).At input pos := by
  refine ⟨rfl, Nat.le_refl _, Nat.le_add_right _ _, within, ?_⟩
  have here : (fkSeek mask64 input pos).base = pos := rfl
  rw [here, Nat.sub_self, List.replicate_zero, List.nil_append, List.drop_zero]
  rcases Nat.lt_or_eq_of_le within with inside | atEnd
  · exact (if_pos inside).trans (fkMaskAt_eq isMask input pos)
  · have none : blockStops input pos = [] := by
      rw [blockStops, atEnd, List.drop_length]
      rfl
    rw [none]
    exact if_neg (Nat.not_lt.mpr (Nat.le_of_eq atEnd.symm))

/-- What is left of a block from `pos` on. -/
theorem blockStops_drop {input : Bytes} {pos base : Nat} (before : base ≤ pos) :
    (blockStops input base).drop (pos - base) =
      ((input.drop pos).take (64 - (pos - base))).map isFkStop := by
  rw [blockStops, ← List.map_drop, List.drop_take, List.drop_drop, Nat.add_sub_cancel' before]

theorem fkNext_le {input : Bytes} {pos : Nat} (within : pos ≤ input.length) :
    pos ≤ fkNext input pos ∧ fkNext input pos ≤ input.length := by
  have bound : (input.drop pos).findIdx isFkStop ≤ (input.drop pos).length :=
    List.findIdx_le_length
  rw [List.length_drop] at bound
  rw [fkNext]
  omega

/-- The first stop is in the part that is looked at. -/
theorem fkNext_inside {input : Bytes} {pos n : Nat}
    (some : true ∈ ((input.drop pos).take n).map isFkStop) :
    fkNext input pos = pos + (((input.drop pos).take n).map isFkStop).findIdx id := by
  obtain ⟨x, member, stop⟩ := List.mem_map.mp some
  have found : ((input.drop pos).take n).findIdx isFkStop < ((input.drop pos).take n).length :=
    List.findIdx_lt_length_of_exists ⟨x, member, stop⟩
  have split : (input.drop pos).findIdx isFkStop =
      ((input.drop pos).take n).findIdx isFkStop := by
    conv_lhs => rw [← List.take_append_drop n (input.drop pos)]
    rw [List.findIdx_append, if_pos found]
  rw [fkNext, split, List.findIdx_map]
  rfl

/-- The first stop is behind the part that is looked at. -/
theorem fkNext_beyond {input : Bytes} {pos n : Nat} (room : pos + n ≤ input.length)
    (none : true ∉ ((input.drop pos).take n).map isFkStop) :
    fkNext input pos = fkNext input (pos + n) := by
  have silent : ∀ x ∈ (input.drop pos).take n, isFkStop x = false := by
    intro x member
    rw [← Bool.not_eq_true]
    exact fun stop => none (List.mem_map.mpr ⟨x, member, stop⟩)
  have length : ((input.drop pos).take n).length = n :=
    List.length_take_of_le (by rw [List.length_drop]; omega)
  have split : (input.drop pos).findIdx isFkStop =
      (input.drop (pos + n)).findIdx isFkStop + n := by
    conv_lhs => rw [← List.take_append_drop n (input.drop pos)]
    rw [List.findIdx_append, List.findIdx_eq_length_of_false silent,
      if_neg (Nat.lt_irrefl _), length, List.drop_drop]
  rw [fkNext, fkNext, split]
  omega

/-- Without a stop in the rest there is none before the end. -/
theorem fkNext_none {input : Bytes} {pos : Nat} (within : pos ≤ input.length)
    (none : true ∉ (input.drop pos).map isFkStop) : fkNext input pos = input.length := by
  have whole : (input.drop pos).take (input.length - pos) = input.drop pos :=
    List.take_of_length_le (by rw [List.length_drop])
  rw [fkNext_beyond (n := input.length - pos) (by omega) (by rw [whole]; exact none),
    Nat.add_sub_cancel' within, fkNext, List.drop_length]
  rfl

namespace FkCursor.At

variable {input : Bytes} {pos : Nat} {c : FkCursor}

/-- The bits of a cursor, from the position on. -/
theorem bits_eq (here : c.At input pos) :
    c.bits = mask (List.replicate (pos - c.base) false ++
      ((input.drop pos).take (64 - (pos - c.base))).map isFkStop) := by
  rw [here.bits, blockStops_drop here.base]

theorem bits_zero (here : c.At input pos) :
    c.bits = 0 ↔ true ∉ ((input.drop pos).take (64 - (pos - c.base))).map isFkStop := by
  rw [here.bits_eq, mask_eq_zero, List.mem_append, not_or]
  exact and_iff_right fun member => Bool.noConfusion (List.eq_of_mem_replicate member)

/-- The lowest bit is the next stop, and clearing it goes on behind the stop. -/
theorem lowest (here : c.At input pos) (some : c.bits ≠ 0) :
    c.base + ctzll c.bits = fkNext input pos ∧ fkNext input pos < input.length ∧
      ({ c with bits := c.bits &&& (c.bits - 1) } : FkCursor).At input (fkNext input pos + 1) := by
  have found : true ∈ ((input.drop pos).take (64 - (pos - c.base))).map isFkStop :=
    Decidable.not_not.mp fun none => some (here.bits_zero.mpr none)
  have next := fkNext_inside found
  have bits := here.bits_eq
  obtain ⟨reads, base, near, within, block⟩ := here
  rw [blockStops_drop base] at block
  have blocks : (blockStops input c.base).drop (pos - c.base) =
      ((input.drop pos).take (64 - (pos - c.base))).map isFkStop := blockStops_drop base
  generalize rest : ((input.drop pos).take (64 - (pos - c.base))).map isFkStop = left at *
  have lengths : left.length ≤ 64 - (pos - c.base) ∧ left.length ≤ input.length - pos := by
    rw [← rest, List.length_map, List.length_take, List.length_drop]
    omega
  have inside : left.findIdx id < left.length := List.findIdx_lt_length_of_exists ⟨true, found, rfl⟩
  have index : (List.replicate (pos - c.base) false ++ left).findIdx id =
      pos - c.base + left.findIdx id := by
    rw [List.findIdx_append, List.findIdx_eq_length_of_false (by
      intro x member
      rw [List.eq_of_mem_replicate member]
      rfl), if_neg (Nat.lt_irrefl _), List.length_replicate, Nat.add_comm]
  have member : true ∈ List.replicate (pos - c.base) false ++ left :=
    List.mem_append.mpr (.inr found)
  have lowestBit : ctzll c.bits = pos - c.base + left.findIdx id := by
    rw [ctzll, bits, trailingZeros_mask member, index]
    rw [List.length_append, List.length_replicate]
    omega
  refine ⟨by omega, by omega, reads, ?_, ?_, by omega, ?_⟩
  · dsimp only
    omega
  · dsimp only
    omega
  · have index' : fkNext input pos + 1 - c.base = pos - c.base + (left.findIdx id + 1) := by omega
    have behind : (List.replicate (pos - c.base) false ++ left).drop
        (pos - c.base + (left.findIdx id + 1)) = left.drop (left.findIdx id + 1) := by
      rw [← List.drop_drop, List.drop_left' List.length_replicate]
    dsimp only
    rw [bits, mask_clear member, index, index', ← Nat.add_assoc, Nat.add_assoc, behind,
      ← blocks, List.drop_drop]

end FkCursor.At

theorem fkCursor_nextFrom {mask64 : Bytes → Nat} (isMask : IsFlowMask mask64) {input : Bytes}
    {pos fuel : Nat} {c : FkCursor} (here : c.At input pos)
    (enough : input.length - c.base < fuel) :
    (c.nextFrom mask64 fuel).1 = fkNext input pos ∧
      (c.nextFrom mask64 fuel).2.At input (min (fkNext input pos + 1) input.length) := by
  induction fuel generalizing c pos with
  | zero => omega
  | succ fuel ih =>
      rw [FkCursor.nextFrom]
      split
      · rename_i empty
        have none := here.bits_zero.mp (beq_iff_eq.mp empty)
        obtain ⟨reads, base, near, within, _⟩ := here
        rw [reads]
        split
        · rename_i last
          have whole : (input.drop pos).take (64 - (pos - c.base)) = input.drop pos :=
            List.take_of_length_le (by rw [List.length_drop]; omega)
          rw [whole] at none
          rw [fkNext_none within none, Nat.min_eq_right (Nat.le_succ _)]
          refine ⟨rfl, rfl, Nat.le_refl _, Nat.le_add_right _ _, Nat.le_refl _, ?_⟩
          dsimp only
          rw [Nat.sub_self, blockStops, List.drop_length]
          exact beq_iff_eq.mp empty
        · rename_i more
          have jump : pos + (64 - (pos - c.base)) = c.base + 64 := by omega
          have same : fkNext input pos = fkNext input (c.base + 64) := by
            rw [fkNext_beyond (n := 64 - (pos - c.base)) (by omega) none, jump]
          rw [same]
          have inside : c.base + 64 ≤ input.length := by omega
          refine ih ⟨rfl, Nat.le_refl _, Nat.le_add_right _ _, inside, ?_⟩ ?_
          rotate_left
          · dsimp only
            omega
          dsimp only
          rw [Nat.sub_self, List.replicate_zero, List.nil_append, List.drop_zero]
          exact fkMaskAt_eq isMask input (c.base + 64)
      · rename_i some
        obtain ⟨offset, inside, next⟩ := here.lowest fun zero => some (beq_iff_eq.mpr zero)
        rw [Nat.min_eq_left inside]
        exact ⟨offset, next⟩

/-- `fk_next` gives the first stop at or after the position, or the input's length. -/
theorem FkCursor.At.next {mask64 : Bytes → Nat} (isMask : IsFlowMask mask64) {input : Bytes}
    {pos : Nat} {c : FkCursor} (here : c.At input pos) :
    (c.next mask64).1 = fkNext input pos ∧
      (c.next mask64).2.At input (min (fkNext input pos + 1) input.length) := by
  refine fkCursor_nextFrom isMask here ?_
  rw [here.reads]
  exact Nat.lt_succ_self _

/-! ### All results -/

/-- The offsets of the stop bytes from `pos` on. -/
def stopsFrom (input : Bytes) (pos : Nat) : List Nat :=
  (List.range input.length).filter fun k => pos ≤ k && isFkStop (input.getD k 0)

theorem stopsFrom_range {input : Bytes} {pos : Nat} (within : pos ≤ input.length) :
    stopsFrom input pos = (List.range' pos (input.length - pos)).filter fun k =>
      isFkStop (input.getD k 0) := by
  have split : List.range input.length =
      List.range' 0 pos ++ List.range' pos (input.length - pos) := by
    have joined := List.range'_append_1 (s := 0) (m := pos) (n := input.length - pos)
    rw [Nat.zero_add, Nat.add_sub_cancel' within] at joined
    rw [joined, List.range_eq_range']
  rw [stopsFrom, split, List.filter_append]
  have before : (List.range' 0 pos).filter
      (fun k => pos ≤ k && isFkStop (input.getD k 0)) = [] := by
    rw [List.filter_eq_nil_iff]
    intro k member
    have below := (List.mem_range'_1.mp member).2
    rw [decide_eq_false (by omega), Bool.false_and]
    exact Bool.false_ne_true
  rw [before, List.nil_append]
  refine List.filter_congr fun k member => ?_
  rw [decide_eq_true (List.mem_range'_1.mp member).1, Bool.true_and]

theorem stopsFrom_eq {input : Bytes} {pos : Nat} (within : pos ≤ input.length) :
    stopsFrom input pos =
      if fkNext input pos < input.length then
        fkNext input pos :: stopsFrom input (fkNext input pos + 1)
      else [] := by
  obtain ⟨left, size⟩ : ∃ left, input.length - pos = left := ⟨_, rfl⟩
  induction left generalizing pos with
  | zero =>
      have atEnd : pos = input.length := by omega
      have next := fkNext_le within
      rw [stopsFrom_range within, size, if_neg (by omega)]
      rfl
  | succ left ih =>
      have inside : pos < input.length := by omega
      have first : input.drop pos = input[pos] :: input.drop (pos + 1) :=
        List.drop_eq_getElem_cons inside
      have here : input.getD pos 0 = input[pos] := by
        rw [List.getD_eq_getElem?_getD, List.getElem?_eq_getElem inside, Option.getD_some]
      have rest : stopsFrom input (pos + 1) =
          (List.range' (pos + 1) left).filter fun k => isFkStop (input.getD k 0) := by
        have count : input.length - (pos + 1) = left := by omega
        rw [stopsFrom_range inside, count]
      rw [stopsFrom_range within, size, List.range'_succ, List.filter_cons, here, ← rest]
      cases stop : isFkStop input[pos] with
      | true =>
          have next : fkNext input pos = pos := by
            rw [fkNext, first, List.findIdx_cons, stop]
            rfl
          rw [next, if_pos rfl, if_pos inside]
      | false =>
          have next : fkNext input pos = fkNext input (pos + 1) := by
            refine fkNext_beyond inside ?_
            rw [first, List.take_succ_cons, List.take_zero, List.map_singleton, stop]
            exact fun member => Bool.noConfusion (List.mem_singleton.mp member)
          rw [next, if_neg Bool.false_ne_true]
          exact ih inside (by omega)

theorem FkCursor.At.results {mask64 : Bytes → Nat} (isMask : IsFlowMask mask64) {input : Bytes}
    {pos n : Nat} {c : FkCursor} (here : c.At input pos) :
    c.results mask64 n = (stopsFrom input pos ++ List.replicate n input.length).take n := by
  induction n generalizing c pos with
  | zero => rw [FkCursor.results, List.take_zero]
  | succ n ih =>
      obtain ⟨offset, next⟩ := here.next isMask
      have spare (l : List Nat) : (l ++ List.replicate (n + 1) input.length).take n =
          (l ++ List.replicate n input.length).take n := by
        rw [List.replicate_succ', ← List.append_assoc, List.take_append_of_le_length]
        rw [List.length_append, List.length_replicate]
        exact Nat.le_add_left _ _
      rw [FkCursor.results, offset, ih next, stopsFrom_eq here.within]
      split
      · rename_i inside
        rw [Nat.min_eq_left inside, List.cons_append, List.take_succ_cons, spare]
      · rename_i atEnd
        have last : fkNext input pos = input.length :=
          Nat.le_antisymm (fkNext_le here.within).2 (Nat.not_lt.mp atEnd)
        have none : stopsFrom input input.length = [] := by
          rw [stopsFrom_eq (Nat.le_refl _), if_neg]
          exact Nat.not_lt.mpr (fkNext_le (Nat.le_refl _)).1
        rw [last, Nat.min_eq_right (Nat.le_succ _), none, List.nil_append, List.nil_append,
          List.replicate_succ, List.take_succ_cons]

/-- After `fk_seek` the results of `fk_next`, on either form of the mask, are the offsets of
the stop bytes in order, and then the length. -/
theorem cursor_enumerates {input : Bytes} {pos : Nat} (within : pos ≤ input.length) (n : Nat) :
    (fkSeek flowMask64 input pos).results flowMask64 n =
      (stopsFrom input pos ++ List.replicate n input.length).take n ∧
    (fkSeek flowMask64Sse2 input pos).results flowMask64Sse2 n =
      (stopsFrom input pos ++ List.replicate n input.length).take n :=
  ⟨(fkSeek_at flowMask64_isFlowMask within).results flowMask64_isFlowMask,
    (fkSeek_at flowMask64Sse2_isFlowMask within).results flowMask64Sse2_isFlowMask⟩

theorem cursor_enumerates_brackets :
    (fkSeek flowMask64 [lbracket, 0x61, rbracket] 1).results flowMask64 3 = [2, 3, 3] ∧
      (fkSeek flowMask64Sse2 [lbracket, 0x61, rbracket] 1).results flowMask64Sse2 3 =
        [2, 3, 3] := by
  have within : 1 ≤ ([lbracket, 0x61, rbracket] : Bytes).length := by decide
  have offsets : (stopsFrom [lbracket, 0x61, rbracket] 1 ++ List.replicate 3 3).take 3 =
      [2, 3, 3] := by decide
  have holds := cursor_enumerates within 3
  exact ⟨holds.1.trans offsets, holds.2.trans offsets⟩

end Oyl
