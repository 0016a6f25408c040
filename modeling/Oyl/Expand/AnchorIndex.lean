import Oyl.Expand.AnchorTable
import Oyl.Expand.Documents

/-!
# The index of the anchor table

`atbl_build` and `atbl_lookup` with their hash index.  A slot of the index has the number
of an entry, and the name is read in the entries.  A later entry takes the slot of an
earlier one of the same name.
-/

namespace Oyl

open OpenAddressing

/-- `merge_anchor_table`: `index` has the number of an entry plus one per slot, 0 where it is
empty. -/
structure MergeAnchorTable where
  entries : List AnchorEntry
  index : List Nat := []
  deriving DecidableEq, Repr

def atblNameIs (a : AnchorEntry) (name : Bytes) : Bool := a.name == name

/-- The loop of `atbl_lookup` without an index, over the first entries from the last on. -/
def atblScan (entries : List AnchorEntry) (name : Bytes) : Nat → Option Nat
  | 0 => none
  | i + 1 =>
      if atblNameIs (entries.getD i default) name then some i else atblScan entries name i

namespace MergeAnchorTable

/-- The loop over the slots from `h` on; `none` if it is not over after `fuel` slots. -/
def slotFrom (t : MergeAnchorTable) (name : Bytes) : Nat → Nat → Option Nat
  | 0, _ => none
  | fuel + 1, h =>
      if t.index.getD h 0 == 0 then some h
      else if atblNameIs (t.entries.getD (t.index.getD h 0 - 1) default) name then some h
      else slotFrom t name fuel (nextSlot t.index.length h)

/-- The slot at which the search for a name ends; `none` if it goes round the index. -/
def slotOf (t : MergeAnchorTable) (name : Bytes) : Option Nat :=
  t.slotFrom name t.index.length (homeSlot t.index.length name)

/-- `atbl_lookup`: the entry found, if any; `none` if the loop has no end. -/
def lookup (t : MergeAnchorTable) (name : Bytes) : Option (Option Nat) :=
  if t.index.isEmpty then some (atblScan t.entries name t.entries.length)
  else (t.slotOf name).map fun h =>
    if t.index.getD h 0 == 0 then none else some (t.index.getD h 0 - 1)

/-- One round of the second loop of `atbl_build`. -/
def enter (t : MergeAnchorTable) (i : Nat) : Option MergeAnchorTable :=
  (t.slotOf (t.entries.getD i default).name).map fun h =>
    { t with index := t.index.set h (i + 1) }

/-- `atbl_build`, with or without memory for the index. -/
def build (indexed : Bool) (events : List Event) : Option MergeAnchorTable :=
  let t : MergeAnchorTable := { entries := atblBuild events }
  if t.entries.length == 0 || !indexed then some t
  else (List.range t.entries.length).foldlM enter
    { t with index := List.replicate (tableCapacity t.entries.length) 0 }

/-- A slot of the index with the name of its entry. -/
def named (t : MergeAnchorTable) (i : Nat) : Option (Bytes × Nat) :=
  if i = 0 then none else some ((t.entries.getD (i - 1) default).name, i - 1)

def slots (t : MergeAnchorTable) : Slots Bytes Nat := t.index.map t.named

/-- An index of the first `n` entries. -/
structure Indexes (n : Nat) (t : MergeAnchorTable) : Prop where
  capacity : ∃ k, t.index.length = 2 ^ k
  represents : Represents t.slots (nextSlot t.index.length) (homeSlot t.index.length)
    (atblScan t.entries · n)
  filled : ∃ used : List Nat, (∀ slot, t.slots.getD slot none ≠ none → slot ∈ used) ∧
    used.length ≤ n
  room : t.entries.length < t.index.length

end MergeAnchorTable

/-! ### The scan -/

section

variable {entries : List AnchorEntry} {name : Bytes}

/-- The last of the first `n` entries of this name. -/
def IsLatest (entries : List AnchorEntry) (name : Bytes) (n i : Nat) : Prop :=
  i < n ∧ (entries.getD i default).name = name ∧
    ∀ j, i < j → j < n → (entries.getD j default).name ≠ name

theorem atblScan_some {n i : Nat} :
    atblScan entries name n = some i ↔ IsLatest entries name n i := by
  induction n with
  | zero => exact iff_of_false (fun found => by cases found) fun latest => by cases latest.1
  | succ n ih =>
      rw [atblScan, atblNameIs]
      by_cases same : (entries.getD n default).name = name
      · rw [if_pos (beq_iff_eq.mpr same), Option.some_inj]
        constructor
        · rintro rfl
          exact ⟨Nat.lt_succ_self n, same, fun j after before => by omega⟩
        · rintro ⟨below, _, later⟩
          by_contra differ
          exact later n (by omega) (Nat.lt_succ_self n) same
      · rw [if_neg fun isName => same (beq_iff_eq.mp isName), ih]
        constructor
        · rintro ⟨below, here, later⟩
          refine ⟨Nat.lt_succ_of_lt below, here, fun j after before => ?_⟩
          rcases Nat.lt_succ_iff_lt_or_eq.mp before with earlier | rfl
          · exact later j after earlier
          · exact same
        · rintro ⟨below, here, later⟩
          have notLast : i ≠ n := fun isLast => same (isLast ▸ here)
          exact ⟨by omega, here, fun j after before => later j after (Nat.lt_succ_of_lt before)⟩

theorem atblScan_none {n : Nat} :
    atblScan entries name n = none ↔ ∀ i < n, (entries.getD i default).name ≠ name := by
  induction n with
  | zero => exact iff_of_true rfl fun i below => by cases below
  | succ n ih =>
      rw [atblScan, atblNameIs]
      by_cases same : (entries.getD n default).name = name
      · rw [if_pos (beq_iff_eq.mpr same)]
        exact iff_of_false (fun found => by cases found) fun none =>
          none n (Nat.lt_succ_self n) same
      · rw [if_neg fun isName => same (beq_iff_eq.mp isName), ih]
        constructor
        · intro none i below
          rcases Nat.lt_succ_iff_lt_or_eq.mp below with earlier | rfl
          · exact none i earlier
          · exact same
        · exact fun none i below => none i (Nat.lt_succ_of_lt below)

theorem atblScan_find (n : Nat) :
    atblScan entries name n =
      (List.range n).reverse.find? fun i => (entries.getD i default).name == name := by
  induction n with
  | zero => rfl
  | succ n ih =>
      rw [atblScan, List.range_succ, List.reverse_append, List.reverse_singleton,
        List.singleton_append, List.find?_cons, ih, atblNameIs]
      cases (entries.getD n default).name == name <;> rfl

theorem atblScan_succ (n : Nat) :
    (atblScan entries · (n + 1)) =
      Function.update (atblScan entries · n) (entries.getD n default).name (some n) := by
  funext other
  rw [atblScan, atblNameIs]
  by_cases same : other = (entries.getD n default).name
  · rw [if_pos (beq_iff_eq.mpr same.symm), same, Function.update_self]
  · rw [if_neg fun isName => same (beq_iff_eq.mp isName).symm, Function.update_of_ne same]

end

/-! ### The index as a table of slots -/

namespace MergeAnchorTable

section

variable {t : MergeAnchorTable} {n : Nat}

theorem slots_length (t : MergeAnchorTable) : t.slots.length = t.index.length :=
  List.length_map _

theorem slots_getD (t : MergeAnchorTable) (slot : Nat) :
    t.slots.getD slot none = t.named (t.index.getD slot 0) := by
  rw [slots, List.getD_eq_getElem?_getD, List.getD_eq_getElem?_getD, List.getElem?_map]
  cases t.index[slot]? <;> rfl

theorem slotFrom_eq_probe (t : MergeAnchorTable) (name : Bytes) (fuel h : Nat) :
    t.slotFrom name fuel h = probe t.slots (nextSlot t.index.length) name fuel h := by
  induction fuel generalizing h with
  | zero => rfl
  | succ fuel ih =>
      rw [slotFrom, probe, slots_getD, named, atblNameIs]
      by_cases empty : t.index.getD h 0 = 0
      · rw [if_pos (beq_iff_eq.mpr empty), if_pos empty]
      · rw [if_neg fun isEmpty => empty (beq_iff_eq.mp isEmpty), if_neg empty, ih]
        simp only [beq_iff_eq]

/-- The search for a name ends at the slot of its latest entry, or at an empty one. -/
theorem Indexes.slotOf (indexes : Indexes n t) (within : n ≤ t.entries.length) (name : Bytes) :
    ∃ m, t.slotOf name = some ((nextSlot t.index.length)^[m] (homeSlot t.index.length name)) ∧
      (∀ j < m, Passed t.slots name
        ((nextSlot t.index.length)^[j] (homeSlot t.index.length name))) ∧
      (nextSlot t.index.length)^[m] (homeSlot t.index.length name) < t.index.length ∧
      t.slots.getD ((nextSlot t.index.length)^[m] (homeSlot t.index.length name)) none =
        (atblScan t.entries name n).map (name, ·) := by
  obtain ⟨k, isPower⟩ := indexes.capacity
  obtain ⟨used, covers, few⟩ := indexes.filled
  have walk : Walk (nextSlot t.index.length) t.slots.length := by
    rw [slots_length, isPower]
    exact nextSlot_walk k
  have inside : homeSlot t.index.length name < t.slots.length := by
    rw [slots_length, isPower]
    exact homeSlot_inside k name
  have few' : used.length < t.slots.length := by
    rw [slots_length]
    exact Nat.lt_of_le_of_lt (few.trans within) indexes.room
  have found := indexes.represents.probe_found walk inside (exists_room covers few')
  rwa [slots_length, ← slotFrom_eq_probe] at found

/-- One entry. -/
theorem Indexes.enter (indexes : Indexes n t) (inside : n < t.entries.length) :
    ∃ t', t.enter n = some t' ∧ t'.entries = t.entries ∧ Indexes (n + 1) t' := by
  obtain ⟨m, isSlot, passed, within, found⟩ :=
    indexes.slotOf (Nat.le_of_lt inside) (t.entries.getD n default).name
  have entered := indexes.represents.set passed (slots_length t ▸ within) found n
  rw [← atblScan_succ] at entered
  generalize (nextSlot t.index.length)^[m] _ = h at isSlot within entered
  have slots : ({ t with index := t.index.set h (n + 1) } : MergeAnchorTable).slots =
      t.slots.set h (some ((t.entries.getD n default).name, n)) := by
    rw [MergeAnchorTable.slots, List.map_set]
    rfl
  refine ⟨{ t with index := t.index.set h (n + 1) }, ?_, rfl, ?_⟩
  · rw [MergeAnchorTable.enter, isSlot]
    rfl
  · constructor
    · rw [List.length_set]
      exact indexes.capacity
    · rw [slots, List.length_set]
      exact entered
    · obtain ⟨used, covers, few⟩ := indexes.filled
      refine ⟨h :: used, ?_, Nat.succ_le_succ few⟩
      intro slot full
      rw [slots, getD_set (slots_length t ▸ within)] at full
      split at full
      · rename_i same
        rw [same]
        exact List.mem_cons_self
      · exact List.mem_cons_of_mem _ (covers slot full)
    · rw [List.length_set]
      exact indexes.room

/-- The first entries, one after the other. -/
theorem Indexes.enterAll (start : Indexes 0 t) (within : n ≤ t.entries.length) :
    ∃ t', (List.range n).foldlM MergeAnchorTable.enter t = some t' ∧ t'.entries = t.entries ∧
      Indexes n t' := by
  induction n with
  | zero => exact ⟨t, rfl, rfl, start⟩
  | succ n ih =>
      obtain ⟨t₁, before, same, indexes⟩ := ih (Nat.le_of_succ_le within)
      obtain ⟨t₂, entered, same', indexes'⟩ := indexes.enter (same.symm ▸ within)
      refine ⟨t₂, ?_, same'.trans same, indexes'⟩
      rw [List.range_succ, List.foldlM_append, before, Option.bind_eq_bind, Option.bind_some,
        List.foldlM_cons, entered]
      rfl

theorem indexes_empty (entries : List AnchorEntry) (some : entries.length ≠ 0) :
    Indexes 0 { entries := entries, index := List.replicate (tableCapacity entries.length) 0 } := by
  obtain ⟨k, isPower, large⟩ := tableCapacity_spec entries.length
  have empty (slot : Nat) : (MergeAnchorTable.mk entries
      (List.replicate (tableCapacity entries.length) 0)).slots.getD slot none = none := by
    rw [slots_getD, List.getD_eq_getElem?_getD, List.getElem?_replicate]
    split <;> rfl
  constructor
  · exact ⟨k, List.length_replicate.trans isPower⟩
  · exact represents_empty empty
  · exact ⟨[], fun slot full => absurd (empty slot) full, Nat.le_refl _⟩
  · rw [List.length_replicate, isPower]
    change entries.length < 2 ^ k
    omega

/-- With the index of all entries a lookup is a scan. -/
theorem Indexes.lookup (indexes : Indexes t.entries.length t) (name : Bytes) :
    t.lookup name = some (atblScan t.entries name t.entries.length) := by
  have some : t.index.isEmpty = false := by
    rw [List.isEmpty_eq_false_iff, ← List.length_pos_iff]
    exact Nat.zero_lt_of_lt indexes.room
  obtain ⟨m, isSlot, _, _, found⟩ := indexes.slotOf (Nat.le_refl _) name
  rw [MergeAnchorTable.lookup, some, if_neg Bool.false_ne_true, isSlot, Option.map_some]
  rw [slots_getD, named] at found
  generalize t.index.getD _ 0 = i at found ⊢
  by_cases empty : i = 0
  · rw [if_pos empty] at found
    rw [if_pos (beq_iff_eq.mpr empty), Option.map_eq_none_iff.mp found.symm]
  · rw [if_neg empty] at found
    obtain ⟨j, isEntry, same⟩ := Option.map_eq_some_iff.mp found.symm
    rw [if_neg fun isEmpty => empty (beq_iff_eq.mp isEmpty), isEntry, (Prod.mk.inj same).2]

end

theorem exists_built (indexed : Bool) (events : List Event) :
    ∃ t, build indexed events = some t ∧ t.entries = atblBuild events ∧
      ∀ name, t.lookup name = some (atblScan t.entries name t.entries.length) := by
  rw [build]
  dsimp only
  by_cases plain : ((atblBuild events).length == 0 || !indexed) = true
  · rw [if_pos plain]
    exact ⟨_, rfl, rfl, fun name => rfl⟩
  · rw [if_neg plain]
    simp only [Bool.or_eq_true, beq_iff_eq, not_or] at plain
    obtain ⟨t, built, same, indexes⟩ :=
      (indexes_empty (atblBuild events) plain.1).enterAll (Nat.le_refl _)
    rw [← same] at indexes
    exact ⟨t, built, same, indexes.lookup⟩

/-- The lookup of the table is the one the merge and alias passes are stated with. -/
theorem build_lookup {indexed : Bool} {events : List Event} {t : MergeAnchorTable}
    (built : build indexed events = some t) (name : Bytes) :
    t.lookup name = some (atblLookup (atblBuild events) name) := by
  obtain ⟨t', built', same, scans⟩ := exists_built indexed events
  obtain rfl := Option.some_inj.mp (built.symm.trans built')
  rw [scans, same, atblScan_find]
  rfl

/-- Building the index ends, every search in it ends, and with or without it a lookup gives
the latest entry of the name, or none where there is none. -/
theorem lookup_latest (indexed : Bool) (events : List Event) :
    ∃ t, build indexed events = some t ∧ t.entries = atblBuild events ∧ ∀ name,
      t.lookup name = some (atblScan t.entries name t.entries.length) ∧
      (∀ i, t.lookup name = some (some i) ↔ IsLatest t.entries name t.entries.length i) ∧
      (t.lookup name = some none ↔
        ∀ i < t.entries.length, (t.entries.getD i default).name ≠ name) := by
  obtain ⟨t, built, same, scans⟩ := exists_built indexed events
  refine ⟨t, built, same, fun name => ⟨scans name, fun i => ?_, ?_⟩⟩
  · rw [scans name, Option.some_inj, atblScan_some]
  · rw [scans name, Option.some_inj, atblScan_none]

/-- `A`, `Q` and `a` have one home slot; `A` is bound twice, and `a` is not. -/
example :
    let evt (name : UInt8) : Event := { type := .scalar, anchor := some [name] }
    let built := build true [evt 0x41, evt 0x51, evt 0x41]
    homeSlot 16 [0x41] = homeSlot 16 [0x51] ∧ homeSlot 16 [0x41] = homeSlot 16 [0x61] ∧
      built.map (·.lookup [0x41]) = some (some (some 2)) ∧
      built.map (·.lookup [0x51]) = some (some (some 1)) ∧
      built.map (·.lookup [0x61]) = some (some none) := by
  decide +kernel

end MergeAnchorTable

end Oyl
