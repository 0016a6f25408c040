import Oyl.Parser.State

/-!
# Flow-as-key lookahead

Before a flow collection is parsed incrementally the parser must know whether
it is an implicit key.  A scan of the raw bytes to the matching bracket answers
this for every collection inside as well, so its result is kept.
-/

namespace Oyl

/-- The bytes the scan stops at: `' " # [ ] { } <` and line breaks. -/
def isFkStop (c : UInt8) : Bool :=
  c == squote || c == dquote || c == hash || c == lbracket || c == rbracket ||
    c == lbrace || c == rbrace || c == less || isBreak c

/-- `fk_quote_kind` -/
inductive QuoteKind where
  | opens
  | plain
  | unclear
  deriving DecidableEq, Repr

def startsEntry (c : UInt8) : Bool := c == lbracket || c == lbrace || c == comma

/-- What the quote at `input[i]` is; `qend` is just past the last quoted scalar
skipped. -/
def fkQuoteKind (input : Bytes) (i qend : Nat) : QuoteKind :=
  let at' (k : Nat) := input.getD k 0
  let c := at' (i - 1)
  if !isBlank c then
    if startsEntry c then .opens
    else if c == colon && i ≥ 2 &&
        (((at' (i - 2) == dquote || at' (i - 2) == squote) && i - 1 == qend) ||
          at' (i - 2) == rbracket || at' (i - 2) == rbrace) then .opens
    else .plain
  else
    match ((input.take i).reverse).dropWhile isBlank with
    | [] => .opens
    | c :: _ => if startsEntry c || c == colon then .opens else .unclear

/-- `fk_colon_follows`, on the bytes after a closing bracket. -/
def fkColonFollows (inComment : Bool) : Bytes → Bool
  | [] => false
  | c :: rest =>
      if inComment then fkColonFollows (c != lf) rest
      else if isBlankOrBreak c then fkColonFollows false rest
      else if c == hash then fkColonFollows true rest
      else c == colon

/-- `fk_next`: the first stop at or after `pos`, or the input's length. -/
def fkNext (input : Bytes) (pos : Nat) : Nat :=
  pos + ((input.drop pos).findIdx isFkStop)

/-- Backslashes right before `k`, not looking before `first`. -/
def backslashRun (input : Bytes) (first k : Nat) : Nat :=
  runLength (· == backslash) ((input.take k).drop first).reverse

/-- `fk_skip_quoted` for the quoted scalar that opens at `i`: just past its
closing quote, or the input's length. -/
def fkSkipQuoted (input : Bytes) (i : Nat) : Nat → Nat → Nat
  | 0, _ => input.length
  | fuel + 1, pos =>
      let q := input.getD i 0
      let k := fkNext input pos
      if k ≥ input.length then input.length
      else if input.getD k 0 != q then fkSkipQuoted input i fuel (k + 1)
      else if q == squote then
        if k + 1 < input.length && input.getD (k + 1) 0 == squote then
          fkSkipQuoted input i fuel (k + 2)
        else k + 1
      else if backslashRun input (i + 1) k % 2 == 0 then k + 1
      else fkSkipQuoted input i fuel (k + 1)

/-- Just past the next line feed, or the input's length if there is none. -/
def fkSkipComment (input : Bytes) (pos : Nat) : Nat :=
  pos + ((input.drop pos).findIdx (· == lf)) + 1

/-- What a scan leaves in the cache. -/
structure FkCache where
  hi : Nat
  keys : List Nat
  ambiguous : Bool := false
  deriving DecidableEq, Repr

/-- Does `!<` at `i - 1` start a verbatim tag? -/
def startsVerbatimTag (input : Bytes) (i : Nat) : Bool :=
  i ≥ 1 && input.getD (i - 1) 0 == bang &&
    (i == 1 || isBlank (input.getD (i - 2) 0) || startsEntry (input.getD (i - 2) 0))

/-- What the scan meets next. -/
inductive FkMove where
  | unterminated
  | ambiguous
  /-- On from `pos`, which is just past a quoted scalar or not. -/
  | past (pos : Nat) (quoted : Bool)
  | opening (i : Nat)
  | closing (i : Nat)
  | lineEnd (i : Nat)
  deriving DecidableEq, Repr

/-- What the loop of `fk_scan` meets from `pos` on: the `switch` on the next stop. -/
def fkMove (input : Bytes) (pos qend : Nat) : FkMove :=
  let i := fkNext input pos
  if i ≥ input.length then .unterminated
  else
    let c := input.getD i 0
    if c == squote || c == dquote then
      match fkQuoteKind input i qend with
      | .opens =>
          let qend := fkSkipQuoted input i (input.length - i) (i + 1)
          if qend ≥ input.length then .unterminated else .past qend true
      | .unclear => .ambiguous
      | .plain => .past (i + 1) false
    else if c == less then
      if startsVerbatimTag input i then
        let k := i + 1 + (input.drop (i + 1)).findIdx fun b => b == greater || isBlankOrBreak b
        if input.getD k 0 != greater then .ambiguous else .past (k + 1) false
      else .past (i + 1) false
    else if c == hash then
      if i > 0 && isBlankOrBreak (input.getD (i - 1) 0) then
        let next := fkSkipComment input (i + 1)
        if next > input.length then .unterminated else .past next false
      else .past (i + 1) false
    else if c == lbracket || c == lbrace then .opening i
    else if isBreak c then .lineEnd i
    else .closing i

/-- The loop of `fk_scan`, from `pos` with the open brackets `stack`. -/
def fkScanFrom (input : Bytes) :
    Nat → Nat → List Nat → List Nat → Nat → FkCache
  | 0, _, _, keys, _ => { hi := input.length, keys := keys }
  | fuel + 1, pos, stack, keys, qend =>
      match fkMove input pos qend with
      | .unterminated => { hi := input.length, keys := keys }
      | .ambiguous => { hi := input.length, keys := [], ambiguous := true }
      | .past pos quoted => fkScanFrom input fuel pos stack keys (if quoted then pos else qend)
      | .opening i => fkScanFrom input fuel (i + 1) (i :: stack) keys qend
      | .lineEnd i =>
          if stack.isEmpty then fkScanFrom input fuel (i + 1) stack keys qend
          else { hi := i, keys := keys }
      | .closing i =>
          match stack with
          | [] => fkScanFrom input fuel (i + 1) stack keys qend
          | opened :: stack =>
              let keys := if fkColonFollows false (input.drop (i + 1)) then
                keys ++ [opened] else keys
              if stack.isEmpty then { hi := i, keys := keys }
              else fkScanFrom input fuel (i + 1) stack keys qend

/-- `fk_scan` -/
def fkScan (input : Bytes) (offset : Nat) : FkCache :=
  fkScanFrom input (input.length - offset + 1) offset [] [] sizeMax

namespace Parser

/-- The parser with a cache that covers `offset`. -/
def fkCovering (p : Parser) (offset : Nat) : Parser :=
  if !p.fkValid || offset < p.fkLo || offset > p.fkHi then
    let cache := fkScan p.input offset
    { p with
      fkValid := true, fkLo := offset, fkHi := cache.hi, fkKeys := cache.keys,
      fkAmbiguous := cache.ambiguous }
  else p

/-- `flow_is_block_key`: the answer for the collection that opens at `offset`. -/
def flowIsBlockKey (p : Parser) (offset : Nat) : Bool × Parser :=
  let p := p.fkCovering offset
  (p.fkAmbiguous || p.fkKeys.contains offset, p)

end Parser

end Oyl
