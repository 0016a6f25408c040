import Oyl.Basic
import Oyl.Logic.Words

/-!
# The arena

A bump allocator over a chain of blocks.  Addresses and sizes are 64-bit words; memory
itself is not modelled, and `malloc` is a parameter of each call.
-/

namespace Oyl

open Words

/-- The words a `size_t` or a pointer can be. -/
def sizeBound : Nat := sizeMax + 1

def sizeAdd (x y : Nat) : Wrapping Nat := add sizeBound x y

def sizeSub (x y : Nat) : Wrapping Nat := sub sizeBound x y

def sizeMul (x y : Nat) : Wrapping Nat := mul sizeBound x y

/-- `sizeof(oyl_block)`: a pointer and two sizes. -/
def blockHeader : Nat := 24

/-- `oyl_block` at the address `base`. -/
structure Block where
  base : Nat
  cap : Nat
  used : Nat
  deriving DecidableEq, Repr

/-- `oyl_arena`.  The head is always the first of all blocks. -/
structure Arena where
  head : Block
  rest : List Block
  defaultCap : Nat
  deriving DecidableEq, Repr

namespace Arena

def blocks (a : Arena) : List Block := a.head :: a.rest

end Arena

/-- `BLOCK_DATA` -/
def Block.data (b : Block) : Wrapping Nat := sizeAdd b.base blockHeader

section

variable (malloc : Nat → Option Nat)

/-- `block_new` -/
def blockNew (cap : Nat) : Wrapping (Option Block) := do
  let most ← sizeSub sizeMax blockHeader
  if cap > most then return none
  let bytes ← sizeAdd blockHeader cap
  return (malloc bytes).map fun base => { base := base, cap := cap, used := 0 }

/-- `oyl_arena_new` -/
def arenaNew (initialCap : Nat) : Wrapping (Option Arena) := do
  let initialCap := if initialCap < 4096 then 4096 else initialCap
  let head ← blockNew malloc initialCap
  return head.map fun head => { head := head, rest := [], defaultCap := initialCap }

/-- `aligned_offset` -/
def alignedOffset (b : Block) (start align : Nat) : Wrapping Nat := do
  let data ← b.data
  let addr ← sizeAdd data start
  let low ← sizeSub align 1
  let pad ← sizeSub align (addr &&& low)
  sizeAdd start (pad &&& low)

/-- Is there room for `size` bytes at `aligned`? -/
def Block.hasRoom (b : Block) (aligned size : Nat) : Wrapping Bool := do
  if aligned > b.cap then return false
  let room ← sizeSub b.cap aligned
  return size ≤ room

/-- The capacity of the next block. -/
def Arena.nextCap (a : Arena) (size align : Nat) : Wrapping Nat := do
  let need ← sizeAdd size align
  let cap := if a.defaultCap < need then need else a.defaultCap
  if a.head.cap ≤ sizeMax / 2 then
    let twice ← sizeMul a.head.cap 2
    return if cap < twice then twice else cap
  else return cap

/-- The end of `oyl_arena_alloc`: `size` bytes of the head at `aligned`. -/
def Arena.place (a : Arena) (aligned size : Nat) : Wrapping (Option Nat × Arena) := do
  let data ← a.head.data
  let ptr ← sizeAdd data aligned
  let used ← sizeAdd aligned size
  return (some ptr, { a with head := { a.head with used := used } })

/-- `oyl_arena_alloc`; `none` is `NULL`. -/
def arenaAlloc (a : Arena) (size align : Nat) : Wrapping (Option Nat × Arena) := do
  let align := if align == 0 then 1 else align
  let low ← sizeSub align 1
  if align &&& low != 0 then return (none, a)
  let most ← sizeSub sizeMax align
  if size > most then return (none, a)
  let aligned ← alignedOffset a.head a.head.used align
  if ← a.head.hasRoom aligned size then a.place aligned size
  else
    let cap ← a.nextCap size align
    match ← blockNew malloc cap with
    | none => return (none, a)
    | some nb =>
        let aligned ← alignedOffset nb 0 align
        Arena.place { a with head := nb, rest := a.blocks } aligned size

/-- `oyl_arena_dup`, without the bytes it copies. -/
def arenaDup (a : Arena) (len : Nat) : Wrapping (Option Nat × Arena) := do
  if len == sizeMax then return (none, a)
  let size ← sizeAdd len 1
  arenaAlloc malloc a size 1

end

/-- The block kept by `oyl_arena_reset`: the last one of the largest. -/
def Arena.largest (a : Arena) : Block :=
  a.rest.foldl (fun keep cur => if cur.cap ≥ keep.cap then cur else keep) a.head

/-- `oyl_arena_reset` -/
def arenaReset (a : Arena) : Arena :=
  { a with head := { a.largest with used := 0 }, rest := [] }

/-! ### Runs -/

/-- What a call returned, with the size and the alignment asked for. -/
structure Region where
  addr : Nat
  size : Nat
  align : Nat
  deriving DecidableEq, Repr

/-- A call that asks for memory. -/
inductive ArenaCall where
  | alloc (size align : UInt64)
  | dup (len : UInt64)
  deriving DecidableEq, Repr

/-- One call and what it returns.  No alignment stands for an alignment of 1. -/
def arenaCall (malloc : Nat → Option Nat) (a : Arena) :
    ArenaCall → Wrapping (Option Region × Arena)
  | .alloc size align => do
      let (ptr, a) ← arenaAlloc malloc a size.toNat align.toNat
      return (ptr.map fun addr => ⟨addr, size.toNat, max align.toNat 1⟩, a)
  | .dup len => do
      let (ptr, a) ← arenaDup malloc a len.toNat
      return (ptr.map fun addr => ⟨addr, len.toNat + 1, 1⟩, a)

/-- What `malloc` promises: no block wraps around or meets a live one. -/
structure HonestMalloc (malloc : Nat → Option Nat) (live : List Block) : Prop where
  positive : ∀ bytes addr, malloc bytes = some addr → 0 < addr
  fits : ∀ bytes addr, malloc bytes = some addr → addr + bytes < sizeBound
  apart : ∀ bytes addr, malloc bytes = some addr → ∀ b ∈ live,
    addr + bytes ≤ b.base ∨ b.base + blockHeader + b.cap ≤ addr

/-- The arenas that calls lead to, with the regions returned since the last reset. -/
inductive ArenaReached : Arena → List Region → Prop
  | new {malloc : Nat → Option Nat} {initialCap : UInt64} {a : Arena} {wrapped : Bool} :
      HonestMalloc malloc [] →
      (arenaNew malloc initialCap.toNat).run false = (some a, wrapped) → ArenaReached a []
  | call {malloc : Nat → Option Nat} {a a' : Arena} {live : List Region} {call : ArenaCall}
      {result : Option Region} {wrapped : Bool} :
      ArenaReached a live → HonestMalloc malloc a.blocks →
      (arenaCall malloc a call).run false = ((result, a'), wrapped) →
      ArenaReached a' (result.toList ++ live)
  | reset {a : Arena} {live : List Region} : ArenaReached a live → ArenaReached (arenaReset a) []

end Oyl
