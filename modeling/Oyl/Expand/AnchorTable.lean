import Oyl.Expand.Binding
import Oyl.Logic.OpenAddressing

/-!
# The table of anchors

`bind_anchors` as it runs, over an open-addressing table that is cleared slot by slot at
each document.  It does what binding over a list of definitions does.
-/

namespace Oyl

open OpenAddressing

/-- `name_hash` -/
def nameHash (s : Bytes) : UInt32 :=
  s.foldl (fun h c => (h ^^^ c.toUInt32) * 16777619) 2166136261

/-- The loop that doubles the capacity; `fuel` bounds its rounds. -/
def growCapacity (nanchors : Nat) : Nat → Nat → Nat
  | 0, cap => cap
  | fuel + 1, cap => if cap < nanchors * 2 then growCapacity nanchors fuel (cap * 2) else cap

def tableCapacity (nanchors : Nat) : Nat := growCapacity nanchors nanchors 16

/-- The table with the slots filled in the current document, the last one first, and the
original names with index 0 unused. -/
structure AnchorTable where
  tab : Slots Bytes Bytes
  used : List Nat := []
  names : List Bytes := [[]]
  deriving DecidableEq, Repr

def homeSlot (cap : Nat) (name : Bytes) : Nat := (nameHash name).toNat &&& (cap - 1)

def nextSlot (cap h : Nat) : Nat := (h + 1) &&& (cap - 1)

/-- The slot at which the search for a name ends; `none` if it goes round the table. -/
def AnchorTable.slotOf (t : AnchorTable) (name : Bytes) : Option Nat :=
  probe t.tab (nextSlot t.tab.length) name t.tab.length (homeSlot t.tab.length name)

/-- Empty the slots of the document that ends. -/
def AnchorTable.clear (t : AnchorTable) : AnchorTable :=
  { t with tab := t.used.foldl (fun tab h => tab.set h none) t.tab, used := [] }

def AnchorTable.define (t : AnchorTable) (evt : Event) : Option (Event × AnchorTable) :=
  match evt.anchorName with
  | none => some (evt, t)
  | some name => do
      let bound := boundName name t.names.length
      let h ← t.slotOf name
      let used := if (t.tab.getD h none).isNone then h :: t.used else t.used
      some ({ evt with anchor := some bound },
        { tab := t.tab.set h (some (name, bound)), used := used, names := t.names ++ [name] })

def AnchorTable.refer (t : AnchorTable) (evt : Event) : Option Event :=
  if evt.type == .alias then do
    let h ← t.slotOf evt.value
    match t.tab.getD h none with
    | none => some evt
    | some (_, bound) => some { evt with value := bound }
  else some evt

def AnchorTable.bindEvent (t : AnchorTable) (evt : Event) : Option (Event × AnchorTable) :=
  if evt.type == .docStart then some (evt, t.clear)
  else do
    let (evt, t) ← t.define evt
    let evt ← t.refer evt
    some (evt, t)

def AnchorTable.bindEvents (t : AnchorTable) : List Event → Option (List Event × AnchorTable)
  | [] => some ([], t)
  | evt :: rest => do
      let (evt, t) ← t.bindEvent evt
      let (rest, t) ← t.bindEvents rest
      some (evt :: rest, t)

/-- `bind_anchors` with its table; `none` if a search in the table has no end. -/
def Parser.bindAnchorsOn (p : Parser) : Option Parser :=
  let nanchors := p.events.countP (·.anchorName.isSome)
  if nanchors == 0 then some p
  else do
    let tab := List.replicate (tableCapacity nanchors) none
    let (events, t) ← AnchorTable.bindEvents { tab := tab } p.events
    some { p with events := events, boundNames := some t.names }

/-! ### The capacity -/

theorem growCapacity_spec (nanchors fuel k : Nat) :
    ∃ j, growCapacity nanchors fuel (2 ^ k) = 2 ^ j ∧
      (nanchors * 2 ≤ 2 ^ k * 2 ^ fuel → nanchors * 2 ≤ 2 ^ j) := by
  induction fuel generalizing k with
  | zero =>
      refine ⟨k, rfl, ?_⟩
      intro enough
      rwa [Nat.pow_zero, Nat.mul_one] at enough
  | succ fuel ih =>
      rw [growCapacity]
      split
      · obtain ⟨j, isPower, enough⟩ := ih (k + 1)
        refine ⟨j, ?_, ?_⟩
        · rw [← Nat.pow_succ]
          exact isPower
        · intro grown
          apply enough
          rwa [Nat.pow_succ, Nat.mul_assoc, ← Nat.pow_succ']
      · rename_i large
        exact ⟨k, rfl, fun _ => Nat.le_of_not_lt large⟩

/-- The capacity is a power of two and at least twice the number of anchors. -/
theorem tableCapacity_spec (nanchors : Nat) :
    ∃ k, tableCapacity nanchors = 2 ^ k ∧ nanchors * 2 ≤ 2 ^ k := by
  obtain ⟨j, isPower, enough⟩ := growCapacity_spec nanchors nanchors 4
  refine ⟨j, isPower, enough ?_⟩
  have small : nanchors < 2 ^ nanchors := Nat.lt_two_pow_self
  omega

theorem nextSlot_eq (k h : Nat) : nextSlot (2 ^ k) h = (h + 1) % 2 ^ k :=
  Nat.and_two_pow_sub_one_eq_mod _ _

theorem nextSlot_iterate (k home n : Nat) (inside : home < 2 ^ k) :
    (nextSlot (2 ^ k))^[n] home = (home + n) % 2 ^ k := by
  induction n with
  | zero => exact (Nat.mod_eq_of_lt inside).symm
  | succ n ih => rw [Function.iterate_succ_apply', ih, nextSlot_eq, Nat.mod_add_mod, Nat.add_assoc]

theorem nextSlot_walk (k : Nat) : Walk (nextSlot (2 ^ k)) (2 ^ k) := by
  have positive : 0 < 2 ^ k := Nat.two_pow_pos k
  constructor
  · intro slot inside
    rw [nextSlot_eq]
    exact Nat.mod_lt _ positive
  · intro home inside slot inside'
    refine ⟨(slot + (2 ^ k - home)) % 2 ^ k, Nat.mod_lt _ positive, ?_⟩
    rw [nextSlot_iterate k home _ inside, Nat.add_mod_mod]
    have around : home + (slot + (2 ^ k - home)) = slot + 2 ^ k := by omega
    rw [around, Nat.add_mod_right, Nat.mod_eq_of_lt inside']

theorem homeSlot_inside (k : Nat) (name : Bytes) : homeSlot (2 ^ k) name < 2 ^ k := by
  rw [homeSlot, Nat.and_two_pow_sub_one_eq_mod]
  exact Nat.mod_lt _ (Nat.two_pow_pos k)

/-! ### The table and the list of definitions -/

/-- A table that stands for the definitions of a binding state, with room for `left` more. -/
structure Implements (left : Nat) (t : AnchorTable) (st : BindState) : Prop where
  capacity : ∃ k, t.tab.length = 2 ^ k
  represents : Represents t.tab (nextSlot t.tab.length) (homeSlot t.tab.length)
    (st.slots.lookup ·)
  used : ∀ slot, t.tab.getD slot none ≠ none → slot ∈ t.used
  room : t.used.length + left < t.tab.length
  names : t.names = st.names

section

variable {left : Nat} {t : AnchorTable} {st : BindState}

/-- The search for a name ends at the slot that has its definition, or at an empty one. -/
theorem Implements.slotOf (implements : Implements left t st) (name : Bytes) :
    ∃ n, t.slotOf name = some ((nextSlot t.tab.length)^[n] (homeSlot t.tab.length name)) ∧
      (∀ m < n, Passed t.tab name ((nextSlot t.tab.length)^[m] (homeSlot t.tab.length name))) ∧
      (nextSlot t.tab.length)^[n] (homeSlot t.tab.length name) < t.tab.length ∧
      t.tab.getD ((nextSlot t.tab.length)^[n] (homeSlot t.tab.length name)) none =
        (st.slots.lookup name).map (name, ·) := by
  obtain ⟨k, isPower⟩ := implements.capacity
  have walk : Walk (nextSlot t.tab.length) t.tab.length := by
    rw [isPower]
    exact nextSlot_walk k
  have inside : homeSlot t.tab.length name < t.tab.length := by
    rw [isPower]
    exact homeSlot_inside k name
  exact implements.represents.probe_found walk inside
    (exists_room implements.used (Nat.lt_of_le_of_lt (Nat.le_add_right _ _) implements.room))

theorem cleared_getD (used : List Nat) (tab : Slots Bytes Bytes) (slot : Nat) :
    (used.foldl (fun tab h => tab.set h none) tab).getD slot none =
      if slot ∈ used then none else tab.getD slot none := by
  induction used generalizing tab with
  | nil => simp
  | cons h used ih =>
      rw [List.foldl_cons, ih]
      by_cases later : slot ∈ used
      · rw [if_pos later, if_pos (List.mem_cons_of_mem _ later)]
      · rw [if_neg later]
        by_cases same : slot = h
        · subst same
          rw [if_pos List.mem_cons_self, List.getD_eq_getElem?_getD, List.getElem?_set]
          split
          · split <;> rfl
          · contradiction
        · rw [if_neg (by simp [same, later]), List.getD_eq_getElem?_getD, List.getElem?_set,
            if_neg (Ne.symm same), ← List.getD_eq_getElem?_getD]

theorem cleared_length (used : List Nat) (tab : Slots Bytes Bytes) :
    (used.foldl (fun tab h => tab.set h none) tab).length = tab.length := by
  induction used generalizing tab with
  | nil => rfl
  | cons h used ih => rw [List.foldl_cons, ih, List.length_set]

/-- A new document starts with an empty table. -/
theorem Implements.clear (implements : Implements left t st) :
    Implements left t.clear { st with slots := [] } := by
  have length : t.clear.tab.length = t.tab.length := cleared_length t.used t.tab
  have empty (slot : Nat) : t.clear.tab.getD slot none = none := by
    have cleared : t.clear.tab.getD slot none =
        if slot ∈ t.used then none else t.tab.getD slot none := cleared_getD t.used t.tab slot
    rw [cleared]
    split
    · rfl
    · rename_i outside
      by_contra filled
      exact outside (implements.used slot filled)
  refine ⟨?_, represents_empty empty, ?_, ?_, implements.names⟩
  · rw [length]
    exact implements.capacity
  · intro slot filled
    exact absurd (empty slot) filled
  · rw [length]
    exact Nat.lt_of_le_of_lt (Nat.add_le_add_right (Nat.zero_le _) left) implements.room

theorem lookup_cons_eq_update (name bound : Bytes) (slots : List (Bytes × Bytes)) :
    (((name, bound) :: slots).lookup ·) =
      Function.update (slots.lookup ·) name (some bound) := by
  funext other
  rw [List.lookup_cons]
  by_cases same : other = name
  · subst same
    rw [beq_self_eq_true, Function.update_self]
  · rw [beq_false_of_ne same, Function.update_of_ne same]

theorem Implements.define {evt : Event} {name : Bytes} (named : evt.anchorName = some name)
    (implements : Implements (left + 1) t st) :
    ∃ t', t.define evt = some ((bindAnchor st evt).1, t') ∧
      Implements left t' (bindAnchor st evt).2 := by
  obtain ⟨n, isSlot, passed, inside, found⟩ := implements.slotOf name
  generalize atSlot : (nextSlot t.tab.length)^[n] (homeSlot t.tab.length name) = h
    at isSlot inside found
  have bound : bindAnchor st evt =
      ({ evt with anchor := some (boundName name t.names.length) },
        { slots := (name, boundName name t.names.length) :: st.slots
          names := st.names ++ [name] }) := by
    rw [bindAnchor, named, implements.names]
  rw [bound]
  refine ⟨{ tab := t.tab.set h (some (name, boundName name t.names.length))
            used := if (t.tab.getD h none).isNone then h :: t.used else t.used
            names := t.names ++ [name] }, ?_, ?_⟩
  · rw [AnchorTable.define, named]
    dsimp only
    rw [isSlot]
    rfl
  · have entered := implements.represents.set passed (atSlot.symm ▸ inside)
      (atSlot.symm ▸ found) (boundName name t.names.length)
    rw [atSlot, ← lookup_cons_eq_update] at entered
    constructor
    · dsimp only
      rw [List.length_set]
      exact implements.capacity
    · dsimp only
      rw [List.length_set]
      exact entered
    · dsimp only
      intro slot filled
      rw [getD_set inside] at filled
      split at filled
      · rename_i same
        subst same
        split
        · exact List.mem_cons_self
        · rename_i some
          apply implements.used
          intro none
          rw [none] at some
          exact some rfl
      · have among := implements.used slot filled
        split
        · exact List.mem_cons_of_mem _ among
        · exact among
    · dsimp only
      rw [List.length_set]
      have room := implements.room
      split
      · rw [List.length_cons]
        omega
      · omega
    · dsimp only
      rw [implements.names]

theorem Implements.refer (implements : Implements left t st) (evt : Event) :
    t.refer evt = some (bindAlias st evt) := by
  rw [AnchorTable.refer, bindAlias]
  split
  · obtain ⟨n, isSlot, _, _, found⟩ := implements.slotOf evt.value
    rw [isSlot, Option.bind_eq_bind, Option.bind_some, found]
    cases st.slots.lookup evt.value <;> rfl
  · rfl

/-- One event. -/
theorem Implements.bindEvent (evt : Event)
    (implements : Implements (left + if evt.anchorName.isSome then 1 else 0) t st) :
    ∃ t', t.bindEvent evt = some ((Oyl.bindEvent st evt).1, t') ∧
      Implements left t' (Oyl.bindEvent st evt).2 := by
  rw [AnchorTable.bindEvent, Oyl.bindEvent]
  split
  · have cleared := implements.clear
    refine ⟨t.clear, rfl, ?_⟩
    exact ⟨cleared.capacity, cleared.represents, cleared.used,
      Nat.lt_of_le_of_lt (Nat.add_le_add_left (Nat.le_add_right _ _) _) cleared.room,
      cleared.names⟩
  · cases named : evt.anchorName with
    | none =>
        rw [named] at implements
        have stays : t.define evt = some (evt, t) := by rw [AnchorTable.define, named]
        have same : bindAnchor st evt = (evt, st) := by rw [bindAnchor, named]
        refine ⟨t, ?_, ?_⟩
        · rw [stays, same, Option.bind_eq_bind, Option.bind_some]
          dsimp only
          rw [implements.refer]
          rfl
        · rw [same]
          exact implements
    | some name =>
        rw [named] at implements
        obtain ⟨t', defined, implements'⟩ := Implements.define named implements
        refine ⟨t', ?_, implements'⟩
        rw [defined, Option.bind_eq_bind, Option.bind_some]
        dsimp only
        rw [implements'.refer]
        rfl

/-- All events. -/
theorem Implements.bindEvents (events : List Event)
    (implements : Implements (left + events.countP (·.anchorName.isSome)) t st) :
    ∃ t', t.bindEvents events = some ((Oyl.bindEvents st events).1, t') ∧
      Implements left t' (Oyl.bindEvents st events).2 := by
  induction events generalizing t st with
  | nil => exact ⟨t, rfl, implements⟩
  | cons evt rest ih =>
      rw [List.countP_cons, ← Nat.add_assoc] at implements
      obtain ⟨t₁, first, implements₁⟩ := Implements.bindEvent evt implements
      obtain ⟨t₂, others, implements₂⟩ := ih implements₁
      refine ⟨t₂, ?_, implements₂⟩
      rw [AnchorTable.bindEvents, first, Option.bind_eq_bind, Option.bind_some]
      dsimp only
      rw [others]
      rfl

end

/-- Every search in the table ends, and binding with the table is binding. -/
theorem Parser.bindAnchorsOn_eq (p : Parser) : p.bindAnchorsOn = some p.bindAnchors := by
  have none_iff : p.events.countP (·.anchorName.isSome) = 0 ↔
      p.events.all (·.anchorName.isNone) = true := by
    rw [List.countP_eq_zero, List.all_eq_true]
    apply forall₂_congr
    intro evt _
    rw [Bool.not_eq_true, Option.isSome_eq_false_iff]
  rw [Parser.bindAnchorsOn, Parser.bindAnchors]
  dsimp only
  by_cases bare : p.events.countP (·.anchorName.isSome) = 0
  · rw [if_pos (beq_iff_eq.mpr bare), if_pos (none_iff.mp bare)]
  · rw [if_neg (by simpa using bare), if_neg (mt none_iff.mpr bare)]
    generalize count : p.events.countP (·.anchorName.isSome) = nanchors at bare
    obtain ⟨k, isPower, large⟩ := tableCapacity_spec nanchors
    have length : (List.replicate (tableCapacity nanchors)
        (none : Option (Bytes × Bytes))).length = 2 ^ k := by rw [List.length_replicate, isPower]
    have empty (slot : Nat) :
        (List.replicate (tableCapacity nanchors) (none : Option (Bytes × Bytes))).getD
          slot none = none := by
      rw [List.getD_eq_getElem?_getD, List.getElem?_replicate]
      split <;> rfl
    have start : Implements (0 + nanchors)
        { tab := List.replicate (tableCapacity nanchors) none } {} := by
      refine ⟨⟨k, length⟩, represents_empty empty, ?_, ?_, rfl⟩
      · intro slot filled
        exact absurd (empty slot) filled
      · dsimp only
        rw [length, List.length_nil]
        omega
    rw [← count] at start
    obtain ⟨t', bound, implements⟩ := Implements.bindEvents p.events start
    rw [← count, bound, Option.bind_eq_bind, Option.bind_some]
    dsimp only
    rw [implements.names]

end Oyl
