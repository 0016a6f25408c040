import Oyl.Chars

/-!
# Scanner state and cursor

The state of `oyl_scanner.c` and the helpers that move its cursor, keep its
indent and bracket stacks, and remember the nodes and properties that decide
where an implicit key starts.  Stacks are lists with the top first.
-/

namespace Oyl

/-- An open flow bracket, with the column of the properties right before it
(or `-1`). -/
structure FlowOpen where
  opening : Mark
  isMap : Bool
  propsCol : Int
  deriving DecidableEq, Repr, Inhabited

structure Scanner where
  buf : Bytes
  len : Nat
  begins : Nat := 0
  pos : Nat := 0
  line : Nat := 1
  col : Nat := 1
  flowLevel : Nat := 0
  indent : Int := -1
  indents : List Int := []
  streamStarted : Bool := false
  streamEnded : Bool := false
  pending : List Token := []
  lastWasQuoted : Bool := false
  flows : List FlowOpen := []
  nodeLine : Nat := 0
  nodeEnd : Nat := sizeMax
  explicitKey : Bool := false
  explicitDepth : Nat := 0
  keyColonLine : Nat := 0
  nodeStart : Nat := 0
  nodeCol : Int := 0
  propsEnd : Nat := sizeMax
  propsCol : Int := 0
  indicatorEnd : Nat := sizeMax
  errorMsg : String := ""
  errorMark : Mark := ⟨0, 0, 0⟩
  deriving DecidableEq, Repr, Inhabited

abbrev ScanM := EStateM Status Scanner

namespace Scanner

def byte (s : Scanner) (i : Nat) : UInt8 := s.buf.getD i 0

/-- `PEEK_AT`: the byte `n` past the cursor, or NUL past the end. -/
def peekAt (s : Scanner) (n : Nat) : UInt8 :=
  if s.pos + n < s.len then s.byte (s.pos + n) else 0

def peek (s : Scanner) : UInt8 := s.peekAt 0

def remaining (s : Scanner) : Nat := s.len - s.pos

def atEnd (s : Scanner) : Bool := s.len ≤ s.pos

/-- The unread input, `BUF_AT` with `REMAINING` bytes. -/
def rest (s : Scanner) : Bytes := s.buf.drop s.pos

def mark (s : Scanner) : Mark := ⟨s.pos, s.line, s.col⟩

/-- 0-based column of the cursor.  The source narrows it to an `int`, which changes nothing in
an input of fewer than `INT_MAX` bytes. -/
def column (s : Scanner) : Int := (s.col : Int) - 1

def advance (s : Scanner) : Nat → Scanner
  | 0 => s
  | n + 1 =>
      if s.pos < s.len then
        if s.byte s.pos == lf then
          advance { s with pos := s.pos + 1, line := s.line + 1, col := 1 } n
        else
          advance { s with pos := s.pos + 1, col := s.col + 1 } n
      else s

/-- Advance over `n` bytes known to contain no line break. -/
def advanceCols (s : Scanner) (n : Nat) : Scanner :=
  { s with pos := s.pos + n, col := s.col + n }

def skipBreak (s : Scanner) : Scanner :=
  if s.len ≤ s.pos then s
  else if s.byte s.pos == cr then
    if s.pos + 1 < s.len && s.byte (s.pos + 1) == lf then
      { s with pos := s.pos + 2, line := s.line + 1, col := 1 }
    else
      { s with pos := s.pos + 1, line := s.line + 1, col := 1 }
  else if s.byte s.pos == lf then
    { s with pos := s.pos + 1, line := s.line + 1, col := 1 }
  else
    { s with line := s.line + 1, col := 1 }

/-- Number of spaces from `first` on, not looking past the cursor. -/
def spacesToCursor (s : Scanner) (first : Nat) : Nat :=
  runLength (· == space) ((s.buf.drop first).take (s.pos - first))

/-- A continuation line must be indented, with spaces, more than the enclosing
block; a line that starts with `closer` may sit anywhere. -/
def continuationIndentOk (s : Scanner) (closer : UInt8) : Bool :=
  if s.len ≤ s.pos || s.byte s.pos == closer then true
  else (s.spacesToCursor (s.pos - (s.col - 1)) : Int) > s.indent

/-- Only blanks, on one line, between two offsets? -/
def onlyBlanksBetween (s : Scanner) (first last : Nat) : Bool :=
  if first == sizeMax || last < first then false
  else ((s.buf.drop first).take (last - first)).all isBlank

/-- Record an anchor or tag spanning `[start, stop)`: consecutive properties
on a line form one run, which starts at the first of them. -/
def noteProps (s : Scanner) (start : Mark) (stop : Nat) : Scanner :=
  let col := if s.onlyBlanksBetween s.propsEnd start.offset then s.propsCol
    else (start.col : Int) - 1
  { s with propsCol := col, propsEnd := stop }

/-- Record a token that could be an implicit key. -/
def noteNode (s : Scanner) (start : Mark) (stop : Nat) : Scanner :=
  { s with
    nodeLine := start.line
    nodeStart := start.offset
    nodeCol := (start.col : Int) - 1
    nodeEnd := stop }

def flowPush (s : Scanner) (isMap : Bool) : Scanner :=
  let propsCol := if s.onlyBlanksBetween s.propsEnd s.pos then s.propsCol else -1
  { s with flows := ⟨s.mark, isMap, propsCol⟩ :: s.flows }

/-- Close a flow collection: its opening mark, with the record of the
properties right before it restored. -/
def flowPop (s : Scanner) : Mark × Scanner :=
  match s.flows with
  | [] => (s.mark, s)
  | top :: below =>
      let s := if s.explicitKey && s.explicitDepth ≥ s.flows.length then
          { s with explicitKey := false } else s
      let s := { s with flows := below }
      if top.propsCol ≥ 0 then
        (top.opening,
          { s with propsCol := top.propsCol, propsEnd := top.opening.offset })
      else (top.opening, s)

/-- Is the whitespace between the last block indicator and offset `stop` on
one line, with a tab in it? -/
def tabAfterIndicator (s : Scanner) (stop : Nat) : Bool :=
  if s.indicatorEnd == sizeMax || s.indicatorEnd > stop then false
  else
    let gap := (s.buf.drop s.indicatorEnd).take (stop - s.indicatorEnd)
    gap.all isBlank && gap.contains tab

def indentPush (s : Scanner) (col : Int) : Scanner :=
  { s with indents := s.indent :: s.indents, indent := col }

/-- `maybe_unroll_indents`: pop while the current indent is right of `col`.  The source's loop
has no case for an empty stack, which only a `col` below -1 comes to. -/
def unrollIndents (s : Scanner) (col : Int) : Scanner :=
  go s.indent s.indents
where
  go (indent : Int) : List Int → Scanner
    | [] => { s with indent := indent, indents := [] }
    | below :: rest =>
        if indent > col then go below rest
        else { s with indent := indent, indents := below :: rest }

/-- `is_doc_indicator_at`: `---` or `...` followed by a blank, a break or the
end of input. -/
def isDocIndicatorAt (s : Scanner) (pos : Nat) : Bool :=
  if s.len < pos + 3 then false
  else
    let c := s.byte pos
    (c == dash || c == dot) && s.byte (pos + 1) == c && s.byte (pos + 2) == c &&
      (pos + 3 == s.len || isBlankOrBreak (s.byte (pos + 3)))

def atDocIndicator (s : Scanner) (c : UInt8) : Bool :=
  s.col == 1 && 3 ≤ s.remaining && s.byte s.pos == c &&
    s.byte (s.pos + 1) == c && s.byte (s.pos + 2) == c &&
    (s.remaining == 3 || isBlankOrBreak (s.peekAt 3))

/-- `oyl_scanner_new`: a UTF-8 byte order mark is skipped. -/
def new (input : Bytes) : Scanner :=
  let begins := if input.take 3 == [0xEF, 0xBB, 0xBF] then 3 else 0
  { buf := input, len := input.length, begins := begins, pos := begins }

end Scanner

/-- `SCAN_ERROR`. -/
def scanError (msg : String) : ScanM α := do
  modify fun s => { s with errorMsg := msg, errorMark := s.mark }
  throw .scan

def tokSimple (type : TokenType) (start stop : Mark) : Token :=
  { type := type, start := start, stop := stop }

def tokScalar (value : Bytes) (style : ScalarStyle) (start stop : Mark) : Token :=
  { type := .scalar, value := value, scalarStyle := style, start := start,
    stop := stop }

end Oyl
