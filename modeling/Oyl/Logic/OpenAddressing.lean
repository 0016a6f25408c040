import Mathlib.Data.List.Basic
import Mathlib.Data.List.Perm.Subperm
import Mathlib.Data.Nat.Find
import Mathlib.Logic.Function.Iterate

/-!
# Open addressing

Tables of slots in which a key is searched along a walk from its home slot, up to the
first slot that has the key or is empty.
-/

namespace OpenAddressing

variable {K V : Type}

/-- A slot is empty or has a key with its value. -/
abbrev Slots (K V : Type) := List (Option (K × V))

/-- The first slot of the walk from `slot` that is empty or has the key, if it is among the
first `fuel` ones. -/
def probe [DecidableEq K] (slots : Slots K V) (next : Nat → Nat) (key : K) : Nat → Nat → Option Nat
  | 0, _ => none
  | fuel + 1, slot =>
      match slots.getD slot none with
      | none => some slot
      | some (other, _) =>
          if other = key then some slot else probe slots next key fuel (next slot)

/-- A walk that stays in the table and meets every slot from every other. -/
structure Walk (next : Nat → Nat) (size : Nat) : Prop where
  inside : ∀ slot < size, next slot < size
  meets : ∀ home < size, ∀ slot < size, ∃ n < size, next^[n] home = slot

/-- The slot has another key. -/
def Passed (slots : Slots K V) (key : K) (slot : Nat) : Prop :=
  ∃ other value, slots.getD slot none = some (other, value) ∧ other ≠ key

/-- The search ends at the slot. -/
def Stops (slots : Slots K V) (key : K) (slot : Nat) : Prop :=
  slots.getD slot none = none ∨ ∃ value, slots.getD slot none = some (key, value)

/-- A table and the map it stands for: what it has of a key is found along the walk. -/
structure Represents (slots : Slots K V) (next : Nat → Nat) (home : K → Nat)
    (entries : K → Option V) : Prop where
  settled : ∀ slot key value, slots.getD slot none = some (key, value) →
    ∃ n, next^[n] (home key) = slot ∧ ∀ m < n, Passed slots key (next^[m] (home key))
  content : ∀ key value, entries key = some value ↔
    ∃ slot, slots.getD slot none = some (key, value)

section

variable {slots : Slots K V} {next : Nat → Nat} {home : K → Nat} {entries : K → Option V}
  {key : K} {value : V} {slot n : Nat}

theorem stops_or_passed (slots : Slots K V) (key : K) (slot : Nat) :
    Stops slots key slot ∨ Passed slots key slot := by
  cases found : slots.getD slot none with
  | none => exact .inl (.inl found)
  | some entry =>
      obtain ⟨other, value⟩ := entry
      by_cases same : other = key
      · subst same
        exact .inl (.inr ⟨value, found⟩)
      · exact .inr ⟨other, value, found, same⟩

theorem Passed.not_stops (passed : Passed slots key slot) : ¬Stops slots key slot := by
  obtain ⟨other, value, found, differ⟩ := passed
  rintro (none | ⟨value', same⟩)
  · rw [found] at none
    cases none
  · rw [found] at same
    cases same
    exact differ rfl

/-- A search that passes `n` slots ends at the next. -/
theorem probe_eq [DecidableEq K] {fuel : Nat} (passed : ∀ m < n, Passed slots key (next^[m] slot))
    (stops : Stops slots key (next^[n] slot)) (enough : n < fuel) :
    probe slots next key fuel slot = some (next^[n] slot) := by
  induction n generalizing slot fuel with
  | zero =>
      obtain ⟨fuel, rfl⟩ := Nat.exists_eq_succ_of_ne_zero (Nat.ne_of_gt enough)
      rw [probe]
      rcases stops with none | ⟨value, found⟩
      · rw [Function.iterate_zero_apply] at none
        rw [none]
        rfl
      · rw [Function.iterate_zero_apply] at found
        rw [found]
        exact if_pos rfl
  | succ n ih =>
      obtain ⟨fuel, rfl⟩ := Nat.exists_eq_succ_of_ne_zero (Nat.ne_of_gt (Nat.zero_lt_of_lt enough))
      obtain ⟨other, value, found, differ⟩ := passed 0 (Nat.succ_pos n)
      rw [Function.iterate_zero_apply] at found
      rw [probe, found]
      dsimp only
      rw [if_neg differ, Function.iterate_succ_apply]
      refine ih ?_ ?_ (Nat.lt_of_succ_lt_succ enough)
      · intro m below
        have later := passed (m + 1) (Nat.succ_lt_succ below)
        rwa [Function.iterate_succ_apply] at later
      · rwa [Function.iterate_succ_apply] at stops

/-- With an empty slot every search ends. -/
theorem exists_stop (key : K) (walk : Walk next slots.length) (inside : slot < slots.length)
    (room : ∃ empty < slots.length, slots.getD empty none = none) :
    ∃ n < slots.length, (∀ m < n, Passed slots key (next^[m] slot)) ∧
      Stops slots key (next^[n] slot) := by
  classical
  obtain ⟨empty, within, isEmpty⟩ := room
  obtain ⟨steps, few, arrives⟩ := walk.meets slot inside empty within
  have exists_stops : ∃ n, Stops slots key (next^[n] slot) := by
    refine ⟨steps, .inl ?_⟩
    rwa [arrives]
  refine ⟨Nat.find exists_stops, ?_, ?_, Nat.find_spec exists_stops⟩
  · refine Nat.lt_of_le_of_lt (Nat.find_min' exists_stops ?_) few
    rw [arrives]
    exact .inl isEmpty
  · intro m earlier
    exact (stops_or_passed _ _ _).resolve_left (Nat.find_min exists_stops earlier)

theorem iterate_inside (walk : Walk next slots.length) (inside : slot < slots.length) (n : Nat) :
    next^[n] slot < slots.length := by
  induction n with
  | zero => exact inside
  | succ n ih =>
      rw [Function.iterate_succ_apply']
      exact walk.inside _ ih

/-- The slot at which a search ends has what the table has of the key. -/
theorem Represents.at_stop (represents : Represents slots next home entries)
    (passed : ∀ m < n, Passed slots key (next^[m] (home key)))
    (stops : Stops slots key (next^[n] (home key))) :
    slots.getD (next^[n] (home key)) none = (entries key).map (key, ·) := by
  rcases stops with none | ⟨value, found⟩
  · cases isEntry : entries key with
    | none => exact none
    | some value =>
        exfalso
        obtain ⟨slot, found⟩ := (represents.content key value).mp isEntry
        obtain ⟨n', rfl, passed'⟩ := represents.settled slot key value found
        rcases Nat.lt_trichotomy n n' with earlier | rfl | later
        · exact (passed' n earlier).not_stops (.inl none)
        · rw [found] at none
          cases none
        · exact (passed n' later).not_stops (.inr ⟨value, found⟩)
  · rw [found, (represents.content key value).mpr ⟨_, found⟩]
    rfl

/-- The search for a key, in a table with an empty slot. -/
theorem Represents.probe_found [DecidableEq K] (represents : Represents slots next home entries)
    (walk : Walk next slots.length) (inside : home key < slots.length)
    (room : ∃ empty < slots.length, slots.getD empty none = none) :
    ∃ n, probe slots next key slots.length (home key) = some (next^[n] (home key)) ∧
      (∀ m < n, Passed slots key (next^[m] (home key))) ∧
      next^[n] (home key) < slots.length ∧
      slots.getD (next^[n] (home key)) none = (entries key).map (key, ·) := by
  obtain ⟨n, enough, passed, stops⟩ := exists_stop key walk inside room
  exact ⟨n, probe_eq passed stops enough, passed, iterate_inside walk inside n,
    represents.at_stop passed stops⟩

theorem getD_set (inside : slot < slots.length) (entry : Option (K × V)) (other : Nat) :
    (slots.set slot entry).getD other none =
      if other = slot then entry else slots.getD other none := by
  rw [List.getD_eq_getElem?_getD, List.getD_eq_getElem?_getD, List.getElem?_set]
  by_cases same : slot = other
  · subst same
    rw [if_pos rfl, if_pos rfl, if_pos inside]
    rfl
  · rw [if_neg same, if_neg (Ne.symm same)]

/-- Entering a key at the end of its search. -/
theorem Represents.set [DecidableEq K] (represents : Represents slots next home entries)
    (passed : ∀ m < n, Passed slots key (next^[m] (home key)))
    (inside : next^[n] (home key) < slots.length)
    (found : slots.getD (next^[n] (home key)) none = (entries key).map (key, ·)) (value : V) :
    Represents (slots.set (next^[n] (home key)) (some (key, value))) next home
      (Function.update entries key (some value)) := by
  generalize atSlot : next^[n] (home key) = slot at inside found ⊢
  -- what was at the slot is nothing or of the same key
  have own (other : K) (value' : V) (there : slots.getD slot none = some (other, value')) :
      other = key := by
    rw [found] at there
    cases isEntry : entries key with
    | none =>
        rw [isEntry] at there
        cases there
    | some _ =>
        rw [isEntry] at there
        cases there
        rfl
  have keeps {other : K} {place : Nat} (before : Passed slots other place) :
      Passed (slots.set slot (some (key, value))) other place := by
    obtain ⟨third, value', there, differ⟩ := before
    by_cases same : place = slot
    · subst same
      refine ⟨key, value, ?_, ?_⟩
      · rw [getD_set inside, if_pos rfl]
      · rw [← own third value' there]
        exact differ
    · refine ⟨third, value', ?_, differ⟩
      rw [getD_set inside, if_neg same]
      exact there
  constructor
  · intro place other value' there
    rw [getD_set inside] at there
    split at there
    · rename_i same
      cases there
      subst same
      exact ⟨n, atSlot, fun m below => keeps (passed m below)⟩
    · obtain ⟨n', arrives, passed'⟩ := represents.settled place other value' there
      exact ⟨n', arrives, fun m below => keeps (passed' m below)⟩
  · intro other value'
    by_cases same : other = key
    · subst same
      rw [Function.update_self]
      constructor
      · intro isValue
        refine ⟨slot, ?_⟩
        cases isValue
        rw [getD_set inside, if_pos rfl]
      · rintro ⟨place, there⟩
        rw [getD_set inside] at there
        split at there
        · cases there
          rfl
        · -- the key is nowhere else
          rename_i elsewhere
          exfalso
          obtain ⟨n', rfl, passed'⟩ := represents.settled place other value' there
          rcases Nat.lt_trichotomy n n' with earlier | rfl | later
          · have stopped := passed' n earlier
            rw [atSlot] at stopped
            obtain ⟨third, value'', at', differ⟩ := stopped
            exact differ (own third value'' at')
          · exact elsewhere atSlot
          · exact (passed n' later).not_stops (.inr ⟨value', there⟩)
    · rw [Function.update_of_ne same, represents.content other value']
      constructor
      · rintro ⟨place, there⟩
        refine ⟨place, ?_⟩
        rw [getD_set inside, if_neg ?_]
        · exact there
        · rintro rfl
          exact same (own other value' there)
      · rintro ⟨place, there⟩
        rw [getD_set inside] at there
        split at there
        · cases there
          exact absurd rfl same
        · exact ⟨place, there⟩

theorem represents_empty (empty : ∀ slot, slots.getD slot none = none) :
    Represents slots next home fun _ => none := by
  constructor
  · intro slot key value there
    rw [empty slot] at there
    cases there
  · intro key value
    constructor
    · intro isEntry
      cases isEntry
    · rintro ⟨slot, there⟩
      rw [empty slot] at there
      cases there

/-- A table has an empty slot when fewer slots were filled than it has. -/
theorem exists_room {used : List Nat} (covers : ∀ slot, slots.getD slot none ≠ none → slot ∈ used)
    (few : used.length < slots.length) : ∃ empty < slots.length, slots.getD empty none = none := by
  by_contra full
  have all : List.range slots.length ⊆ used := by
    intro slot inside
    apply covers
    intro isEmpty
    exact full ⟨slot, List.mem_range.mp inside, isEmpty⟩
  have many := (List.subperm_of_subset List.nodup_range all).length_le
  rw [List.length_range] at many
  exact Nat.not_lt_of_le many few

end

end OpenAddressing
