import Mathlib.Data.List.Basic

/-!
# Tokens, events and source positions

The data exchanged by the scanner, the parser and the emitter.  Strings are
byte strings; a string field that the source may leave `NULL` is an `Option`.
Sizes are unbounded, where the source has `size_t`.  Where it keeps a size in an
`int` and the result depends on that, the size is narrowed by `asInt`.  Columns and
counts of breaks are not: what depends on their range bounds the length of the input.
-/

namespace Oyl

abbrev Bytes := List UInt8

/-- `oyl_status`. -/
inductive Status where
  | ok
  | memory
  | input
  | scan
  | parse
  | emit
  | limit
  deriving DecidableEq, Repr, Inhabited

/-- `oyl_mark`: a byte offset with its 1-based line and column. -/
structure Mark where
  offset : Nat
  line : Nat
  col : Nat
  deriving DecidableEq, Repr, Inhabited

/-- `oyl_token_type`. -/
inductive TokenType where
  | none
  | streamStart
  | streamEnd
  | docStart
  | docEnd
  | blockSeqEntry
  | blockMapKey
  | blockMapValue
  | flowSeqStart
  | flowSeqEnd
  | flowMapStart
  | flowMapEnd
  | flowEntry
  | scalar
  | tag
  | anchor
  | alias
  | directive
  deriving DecidableEq, Repr, Inhabited

/-- `oyl_scalar_style`. -/
inductive ScalarStyle where
  | plain
  | singleQuoted
  | doubleQuoted
  | literal
  | folded
  deriving DecidableEq, Repr, Inhabited

/-- `oyl_token`. -/
structure Token where
  type : TokenType := .none
  value : Bytes := []
  scalarStyle : ScalarStyle := .plain
  start : Mark := ⟨0, 0, 0⟩
  stop : Mark := ⟨0, 0, 0⟩
  deriving DecidableEq, Repr, Inhabited

/-- `oyl_event_type`. -/
inductive EventType where
  | none
  | streamStart
  | streamEnd
  | docStart
  | docEnd
  | mappingStart
  | mappingEnd
  | sequenceStart
  | sequenceEnd
  | scalar
  | alias
  deriving DecidableEq, Repr, Inhabited

/-- The value of the C enumerator, as the fallback signature reads it. -/
def EventType.toNat : EventType → Nat
  | .none => 0
  | .streamStart => 1
  | .streamEnd => 2
  | .docStart => 3
  | .docEnd => 4
  | .mappingStart => 5
  | .mappingEnd => 6
  | .sequenceStart => 7
  | .sequenceEnd => 8
  | .scalar => 9
  | .alias => 10

/-- `oyl_event`.  A missing anchor or tag is `none`; an empty value and a
missing one read the same everywhere in the source. -/
structure Event where
  type : EventType
  value : Bytes := []
  anchor : Option Bytes := none
  tag : Option Bytes := none
  scalarStyle : ScalarStyle := .plain
  implicit : Bool := false
  flow : Bool := false
  start : Mark := ⟨0, 0, 0⟩
  stop : Mark := ⟨0, 0, 0⟩
  deriving DecidableEq, Repr, Inhabited

/-- `INT_MAX` -/
def intMax : Int := 2147483647

/-- The value of a size that is kept in an `int`, which wraps around. -/
def asInt (n : Nat) : Int :=
  let low : Int := n % 4294967296
  if low ≤ intMax then low else low - 4294967296

theorem asInt_le (n : Nat) : asInt n ≤ n := by
  unfold asInt
  dsimp only
  split <;> omega

theorem asInt_le_intMax (n : Nat) : asInt n ≤ intMax := by
  unfold asInt intMax
  dsimp only
  split <;> omega

theorem asInt_of_le {n : Nat} (small : (n : Int) ≤ intMax) : asInt n = n := by
  unfold intMax at small
  unfold asInt intMax
  dsimp only
  rw [if_pos (by omega)]
  omega

/-- `SIZE_MAX`, the source's marker for "no offset yet". -/
def sizeMax : Nat := 18446744073709551615

end Oyl
