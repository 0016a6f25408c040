import Oyl.Arena.Blocks
import Mathlib.Algebra.Group.Nat.Defs
import Mathlib.Data.List.Basic

/-!
# Allocations are apart

Every block is filled from its start, and only the newest one.  No region reaches into
what a block has not given out, so the next region is apart from all of them.
-/

namespace Oyl

open Words

/-- A block of which part is given out. -/
structure Block.Sound (b : Block) : Prop where
  positive : 0 < b.base
  fits : b.base + blockHeader + b.cap < sizeBound
  within : b.used ≤ b.cap

def Block.Apart (b b' : Block) : Prop :=
  b.base + blockHeader + b.cap ≤ b'.base ∨ b'.base + blockHeader + b'.cap ≤ b.base

def Region.Apart (r r' : Region) : Prop :=
  r.addr + r.size ≤ r'.addr ∨ r'.addr + r'.size ≤ r.addr

/-- The region lies in the first `n` bytes of the data of a block. -/
def Block.Holds (b : Block) (n : Nat) (r : Region) : Prop :=
  b.base + blockHeader ≤ r.addr ∧ r.addr + r.size ≤ b.base + blockHeader + n

/-- An arena and the regions that were given out since the last reset. -/
structure Arena.Sound (a : Arena) (live : List Region) : Prop where
  blocks : ∀ b ∈ a.blocks, b.Sound
  apart : a.blocks.Pairwise Block.Apart
  held : ∀ r ∈ live, ∃ b ∈ a.blocks, b.Holds b.used r
  aligned : ∀ r ∈ live, r.align ∣ r.addr
  disjoint : live.Pairwise Region.Apart

section

variable {malloc : Nat → Option Nat} {a : Arena} {b : Block} {live : List Region}
  {start size align aligned : Nat}

/-! ### Offsets -/

theorem Block.Sound.data (sound : b.Sound) : b.data = pure (b.base + blockHeader) :=
  add_fits (Nat.lt_of_le_of_lt (Nat.le_add_right _ _) sound.fits)

theorem dvd_sizeBound (power : align.isPowerOfTwo) (small : align < sizeBound) :
    align ∣ sizeBound := by
  obtain ⟨k, rfl⟩ := power
  have bound : sizeBound = 2 ^ 64 := rfl
  rw [bound] at small ⊢
  exact Nat.pow_dvd_pow 2 (Nat.le_of_lt ((Nat.pow_lt_pow_iff_right (by decide)).mp small))

/-- The offset is the first one from `start` on whose address is aligned. -/
theorem alignedOffset_eq (sound : b.Sound) (within : start ≤ b.cap)
    (power : align.isPowerOfTwo) (small : align < sizeBound) :
    ∃ offset, alignedOffset b start align = pure offset ∧ start ≤ offset ∧
      offset < start + align ∧ align ∣ b.base + blockHeader + offset := by
  obtain ⟨positive, fits, _⟩ := sound
  have one : 0 < align := Nat.pos_of_isPowerOfTwo power
  have masked : (b.base + blockHeader + start) &&& (align - 1) ≤ align :=
    Nat.and_le_right.trans (Nat.sub_le _ _)
  have inside : b.base + blockHeader + start < sizeBound := by omega
  have below := add_padding_le one (dvd_sizeBound power small) (Nat.le_of_lt inside)
  have unwrapped : start + padding (b.base + blockHeader + start) align < sizeBound := by omega
  refine ⟨start + padding (b.base + blockHeader + start) align, ?_, Nat.le_add_right _ _,
    Nat.add_lt_add_left (padding_lt one) _, ?_⟩
  · rw [alignedOffset, Block.Sound.data ⟨positive, fits, ‹_›⟩, pure_bind, sizeAdd,
      add_fits inside, pure_bind, sizeSub, sub_fits one small, pure_bind, sizeSub,
      sub_fits masked small, pure_bind, padding_eq_and power, sizeAdd, add_fits unwrapped]
  · rw [← Nat.add_assoc]
    exact dvd_add_padding one

theorem Block.Sound.hasRoom (sound : b.Sound) :
    b.hasRoom aligned size = pure (decide (aligned + size ≤ b.cap)) := by
  obtain ⟨_, fits, _⟩ := sound
  rw [Block.hasRoom]
  split
  · rw [decide_eq_false (by omega)]
  · rename_i inside
    rw [sizeSub, sub_fits (Nat.not_lt.mp inside) (by omega), pure_bind]
    congr 1
    exact decide_eq_decide.mpr (by omega)

theorem nextCap_eq (a : Arena) (fits : size + align < sizeBound) :
    ∃ cap, a.nextCap size align = pure cap ∧ size + align ≤ cap := by
  rw [Arena.nextCap, sizeAdd, add_fits fits, pure_bind]
  generalize enough : (if a.defaultCap < size + align then size + align else a.defaultCap) = cap
  have large : size + align ≤ cap := by
    rw [← enough]
    split <;> omega
  dsimp only
  split
  · rename_i half
    have twice : a.head.cap * 2 < sizeBound := by
      rw [sizeBound]
      omega
    rw [sizeMul, mul_fits twice, pure_bind]
    refine ⟨_, rfl, ?_⟩
    split <;> omega
  · exact ⟨cap, rfl, large⟩

theorem blockNew_eq (malloc : Nat → Option Nat) (cap : Nat) :
    ∃ result, blockNew malloc cap = pure result ∧ ∀ nb, result = some nb →
      nb.cap = cap ∧ nb.used = 0 ∧ malloc (blockHeader + cap) = some nb.base := by
  have header : blockHeader ≤ sizeMax := by decide
  have top : sizeMax < sizeBound := by decide
  rw [blockNew, sizeSub, sub_fits header top, pure_bind]
  split
  · refine ⟨none, rfl, ?_⟩
    intro nb none
    cases none
  · rename_i inside
    rw [sizeAdd, add_fits (by omega), pure_bind]
    refine ⟨_, rfl, ?_⟩
    intro nb isBlock
    obtain ⟨base, found, rfl⟩ := Option.map_eq_some_iff.mp isBlock
    exact ⟨rfl, rfl, found⟩

/-! ### Steps -/

namespace Arena.Sound

/-- Two blocks, one of them the head. -/
theorem apart_head (sound : a.Sound live) : ∀ b ∈ a.rest, a.head.Apart b :=
  (List.pairwise_cons.mp sound.apart).1

/-- The head gives out what follows its used part. -/
theorem place {align : Nat} (sound : a.Sound live) (later : a.head.used ≤ aligned)
    (fits : aligned + size ≤ a.head.cap)
    (multiple : align ∣ a.head.base + blockHeader + aligned) :
    ∃ a', a.place aligned size = pure (some (a.head.base + blockHeader + aligned), a') ∧
      a'.Sound (⟨a.head.base + blockHeader + aligned, size, align⟩ :: live) := by
  have head := sound.blocks a.head List.mem_cons_self
  have bound := head.fits
  refine ⟨{ a with head := { a.head with used := aligned + size } }, ?_, ?_⟩
  · rw [Arena.place, head.data, pure_bind, sizeAdd, add_fits (by omega), pure_bind, sizeAdd,
      add_fits (by omega), pure_bind]
  constructor
  · intro b member
    rcases List.mem_cons.mp member with rfl | older
    · exact ⟨head.positive, bound, fits⟩
    · exact sound.blocks b (List.mem_cons_of_mem _ older)
  · exact List.pairwise_cons.mpr ⟨sound.apart_head, (List.pairwise_cons.mp sound.apart).2⟩
  · intro r member
    rcases List.mem_cons.mp member with rfl | older
    · exact ⟨_, List.mem_cons_self, Nat.le_add_right _ _, Nat.le_of_eq (Nat.add_assoc _ _ _)⟩
    · obtain ⟨b, isBlock, low, high⟩ := sound.held r older
      rcases List.mem_cons.mp isBlock with rfl | other
      · refine ⟨_, List.mem_cons_self, low, high.trans ?_⟩
        exact Nat.add_le_add_left (Nat.le_add_right_of_le later) _
      · exact ⟨b, List.mem_cons_of_mem _ other, low, high⟩
  · intro r member
    rcases List.mem_cons.mp member with rfl | older
    · exact multiple
    · exact sound.aligned r older
  · refine List.pairwise_cons.mpr ⟨?_, sound.disjoint⟩
    intro r older
    obtain ⟨b, isBlock, low, high⟩ := sound.held r older
    rcases List.mem_cons.mp isBlock with rfl | other
    · right
      dsimp only
      omega
    · have within := (sound.blocks b isBlock).within
      rcases sound.apart_head b other with before | behind
      · left
        dsimp only
        omega
      · right
        dsimp only
        omega

/-- A new block becomes the head. -/
theorem grow {nb : Block} (sound : a.Sound live) (honest : HonestMalloc malloc a.blocks)
    (unused : nb.used = 0) (given : malloc (blockHeader + nb.cap) = some nb.base) :
    Arena.Sound { a with head := nb, rest := a.blocks } live := by
  constructor
  · intro b member
    rcases List.mem_cons.mp member with rfl | older
    · refine ⟨honest.positive _ _ given, ?_, by omega⟩
      rw [Nat.add_assoc]
      exact honest.fits _ _ given
    · exact sound.blocks b older
  · refine List.pairwise_cons.mpr ⟨fun b older => ?_, sound.apart⟩
    have apart := honest.apart _ _ given b older
    rw [← Nat.add_assoc] at apart
    exact apart
  · intro r member
    obtain ⟨b, isBlock, holds⟩ := sound.held r member
    exact ⟨b, List.mem_cons_of_mem _ isBlock, holds⟩
  · exact sound.aligned
  · exact sound.disjoint

/-- An allocation computes without wrapping around.  It gives out a region, or fails and
changes nothing. -/
theorem alloc (sound : a.Sound live) (honest : HonestMalloc malloc a.blocks)
    (_ : size < sizeBound) (isAlign : align < sizeBound) :
    ∃ result a', arenaAlloc malloc a size align = pure (result, a') ∧
      (result = none → a' = a) ∧
      ∀ addr, result = some addr → a'.Sound (⟨addr, size, max align 1⟩ :: live) := by
  have effective : (if (align == 0) = true then 1 else align) = max align 1 := by
    cases align with
    | zero => rfl
    | succ n => rw [if_neg (by simp), Nat.max_eq_left (Nat.succ_pos n)]
  have bounded : max align 1 < sizeBound := Nat.max_lt.mpr ⟨isAlign, by decide⟩
  have one : 1 ≤ max align 1 := Nat.le_max_right _ _
  rw [arenaAlloc, effective]
  generalize max align 1 = align at bounded one
  have fails : ∃ result a', (pure (none, a) : Wrapping _) = pure (result, a') ∧
      (result = none → a' = a) ∧
      ∀ addr, result = some addr → a'.Sound (⟨addr, size, align⟩ :: live) :=
    ⟨none, a, rfl, fun _ => rfl, fun addr given => by cases given⟩
  rw [sizeSub, sub_fits one bounded, pure_bind]
  split
  · exact fails
  rename_i power
  have isPower : align.isPowerOfTwo := by
    refine (Nat.and_sub_one_eq_zero_iff_isPowerOfTwo (Nat.ne_of_gt one)).mp ?_
    simpa using power
  have top : sizeMax < sizeBound := by decide
  rw [sizeSub, sub_fits (Nat.le_of_lt_succ bounded) top, pure_bind]
  split
  · exact fails
  rename_i fits
  have head := sound.blocks a.head List.mem_cons_self
  obtain ⟨offset, isOffset, later, _, multiple⟩ :=
    alignedOffset_eq head head.within isPower bounded
  rw [isOffset, pure_bind, head.hasRoom, pure_bind]
  split
  · rename_i room
    obtain ⟨a', placed, sound'⟩ := sound.place later (of_decide_eq_true room) multiple
    refine ⟨_, a', placed, (fun none => by cases none), ?_⟩
    rintro addr ⟨⟩
    exact sound'
  · have bounded' : size + align < sizeBound := by omega
    obtain ⟨cap, isCap, enough⟩ := nextCap_eq a bounded'
    obtain ⟨result, made, given⟩ := blockNew_eq malloc cap
    rw [isCap, pure_bind, made, pure_bind]
    cases result with
    | none => exact fails
    | some nb =>
        obtain ⟨rfl, unused, isBlock⟩ := given nb rfl
        have grown := sound.grow honest unused isBlock
        have fresh := grown.blocks nb List.mem_cons_self
        obtain ⟨offset, isOffset, _, near, multiple⟩ :=
          alignedOffset_eq fresh (Nat.zero_le _) isPower bounded
        have inside : offset + size ≤ nb.cap := by omega
        obtain ⟨a', placed, sound'⟩ := grown.place (unused ▸ Nat.zero_le _) inside multiple
        dsimp only
        rw [isOffset, pure_bind]
        refine ⟨_, a', placed, (fun none => by cases none), ?_⟩
        rintro addr ⟨⟩
        exact sound'

/-- One call of `oyl_arena_alloc` or `oyl_arena_dup`. -/
theorem call (sound : a.Sound live) (honest : HonestMalloc malloc a.blocks) (call : ArenaCall) :
    ∃ result a', arenaCall malloc a call = pure (result, a') ∧ (result = none → a' = a) ∧
      a'.Sound (result.toList ++ live) := by
  have settle {size align : Nat} (result : Option Nat) (a' : Arena) (fails : result = none → a' = a)
      (sound' : ∀ addr, result = some addr → a'.Sound (⟨addr, size, align⟩ :: live)) :
      ((result.map fun addr => (⟨addr, size, align⟩ : Region)) = none → a' = a) ∧
        a'.Sound ((result.map fun addr => (⟨addr, size, align⟩ : Region)).toList ++ live) := by
    cases result with
    | none =>
        refine ⟨fun _ => fails rfl, ?_⟩
        rw [fails rfl]
        exact sound
    | some addr => exact ⟨(fun none => by cases none), sound' addr rfl⟩
  cases call with
  | alloc size align =>
      obtain ⟨result, a', allocated, fails, sound'⟩ :=
        sound.alloc honest size.toNat_lt align.toNat_lt
      refine ⟨_, a', ?_, settle result a' fails sound'⟩
      rw [arenaCall, allocated, pure_bind]
  | dup len =>
      rw [arenaCall, arenaDup]
      split
      · exact ⟨none, a, rfl, fun _ => rfl, sound⟩
      · rename_i short
        have bound : len.toNat < sizeBound := len.toNat_lt
        have fits : len.toNat + 1 < sizeBound := by
          rw [beq_iff_eq] at short
          have top : sizeBound = sizeMax + 1 := rfl
          omega
        obtain ⟨result, a', allocated, fails, sound'⟩ :=
          sound.alloc honest fits (show 1 < sizeBound by decide)
        refine ⟨_, a', ?_, settle result a' fails sound'⟩
        rw [sizeAdd, add_fits fits, pure_bind, allocated, pure_bind]
        rfl

theorem largest_mem (a : Arena) : a.largest ∈ a.blocks := by
  have among (keep : Block) (rest : List Block) :
      rest.foldl (fun keep cur => if cur.cap ≥ keep.cap then cur else keep) keep ∈
        keep :: rest := by
    induction rest generalizing keep with
    | nil => exact List.mem_cons_self
    | cons b rest ih =>
        rw [List.foldl_cons]
        split
        · exact List.mem_cons_of_mem _ (ih b)
        · rcases List.mem_cons.mp (ih keep) with same | later
          · rw [same]
            exact List.mem_cons_self
          · exact List.mem_cons_of_mem _ (List.mem_cons_of_mem _ later)
  exact among a.head a.rest

/-- Only an empty block is left of the blocks. -/
theorem reset (sound : a.Sound live) : (arenaReset a).Sound [] := by
  have kept := sound.blocks _ (largest_mem a)
  constructor
  · intro b member
    obtain rfl := List.mem_singleton.mp member
    exact ⟨kept.positive, kept.fits, Nat.zero_le _⟩
  · exact List.pairwise_singleton _ _
  · intro r none
    cases none
  · intro r none
    cases none
  · exact List.Pairwise.nil

end Arena.Sound

/-- A new arena. -/
theorem arenaNew_sound {initialCap : Nat} (honest : HonestMalloc malloc []) :
    ∃ result, arenaNew malloc initialCap = pure result ∧
      ∀ a, result = some a → a.Sound [] := by
  rw [arenaNew]
  generalize (if initialCap < 4096 then 4096 else initialCap) = cap
  obtain ⟨result, made, given⟩ := blockNew_eq malloc cap
  rw [made, pure_bind]
  refine ⟨_, rfl, ?_⟩
  intro a isNew
  obtain ⟨nb, rfl, rfl⟩ := Option.map_eq_some_iff.mp isNew
  obtain ⟨rfl, unused, isBlock⟩ := given nb rfl
  constructor
  · intro b member
    obtain rfl := List.mem_singleton.mp member
    refine ⟨honest.positive _ _ isBlock, ?_, by omega⟩
    rw [Nat.add_assoc]
    exact honest.fits _ _ isBlock
  · exact List.pairwise_singleton _ _
  · intro r none
    cases none
  · intro r none
    cases none
  · exact List.Pairwise.nil

/-! ### Runs -/

theorem ArenaReached.sound (reached : ArenaReached a live) : a.Sound live := by
  induction reached with
  | new honest made =>
      obtain ⟨result, isPure, sound⟩ := arenaNew_sound honest
      rw [isPure] at made
      exact sound _ (congrArg Prod.fst made)
  | call _ honest called ih =>
      obtain ⟨result, a', isPure, _, sound⟩ := ih.call honest _
      rw [isPure] at called
      obtain ⟨rfl, rfl⟩ := Prod.mk.inj (congrArg Prod.fst called)
      exact sound
  | reset _ ih => exact ih.reset

/-- In every run the regions returned since the last reset are aligned, inside the data of a
block and apart from each other, and a next call computes its sizes without wrapping around
and changes nothing if it returns no region. -/
theorem arena_apart (reached : ArenaReached a live) :
    (∀ r ∈ live, r.align ∣ r.addr ∧ ∃ b ∈ a.blocks, b.Holds b.cap r) ∧
      live.Pairwise Region.Apart ∧
      ∀ malloc, HonestMalloc malloc a.blocks → ∀ call, ∃ result a',
        (arenaCall malloc a call).run false = ((result, a'), false) ∧
          (result = none → a' = a) := by
  have sound := reached.sound
  refine ⟨fun r member => ⟨sound.aligned r member, ?_⟩, sound.disjoint, ?_⟩
  · obtain ⟨b, isBlock, low, high⟩ := sound.held r member
    have within := (sound.blocks b isBlock).within
    exact ⟨b, isBlock, low, high.trans (Nat.add_le_add_left within _)⟩
  · intro malloc honest call
    obtain ⟨result, a', isPure, fails, _⟩ := sound.call honest call
    exact ⟨result, a', by rw [isPure]; rfl, fails⟩

end

theorem honestMalloc_none (live : List Block) : HonestMalloc (fun _ => none) live := by
  constructor
  · intro asked addr given
    cases given
  · intro asked addr given
    cases given
  · intro asked addr given
    cases given

theorem honestMalloc_first {base bytes : Nat} (positive : 0 < base)
    (fits : base + bytes < sizeBound) :
    HonestMalloc (fun asked => if asked = bytes then some base else none) [] := by
  constructor
  · intro asked addr given
    obtain ⟨_, same⟩ := Option.ite_none_right_eq_some.mp given
    exact Option.some_inj.mp same ▸ positive
  · intro asked addr given
    obtain ⟨rfl, same⟩ := Option.ite_none_right_eq_some.mp given
    exact Option.some_inj.mp same ▸ fits
  · intro asked addr given b member
    cases member

/-- A copied string of four bytes, and 24 aligned bytes behind it. -/
theorem arena_apart_string :
    (∃ a, ArenaReached a [⟨65072, 24, 16⟩, ⟨65064, 5, 1⟩]) ∧
      [(⟨65072, 24, 16⟩ : Region), ⟨65064, 5, 1⟩].Pairwise Region.Apart := by
  have honest : HonestMalloc (fun asked => if asked = 4120 then some 65040 else none) [] :=
    honestMalloc_first (by decide) (by decide)
  have start : ArenaReached ⟨⟨65040, 4096, 0⟩, [], 4096⟩ [] := by
    refine .new honest (?_ : (arenaNew _ (100 : UInt64).toNat).run false = (_, false))
    rfl
  have copied : ArenaReached ⟨⟨65040, 4096, 5⟩, [], 4096⟩ [⟨65064, 5, 1⟩] := by
    refine start.call (honestMalloc_none _)
      (?_ : (arenaCall _ _ (.dup 4)).run false = ((some ⟨65064, 5, 1⟩, _), false))
    rfl
  have aligned : ArenaReached ⟨⟨65040, 4096, 32⟩, [], 4096⟩ [⟨65072, 24, 16⟩, ⟨65064, 5, 1⟩] := by
    refine copied.call (honestMalloc_none _)
      (?_ : (arenaCall _ _ (.alloc 24 16)).run false = ((some ⟨65072, 24, 16⟩, _), false))
    rfl
  exact ⟨⟨_, aligned⟩, (arena_apart aligned).2.1⟩

end Oyl
