import Oyl.Scanner.BlockScalar

/-!
# The tokenizer

`oyl_scan_token`: whitespace and comments, indentation, document markers,
indicators, and the dispatch to the scalar scanners.
-/

namespace Oyl

/-- `skip_blanks_and_comments`, line by line; returns the start of the line
the cursor ends on, or `none` if it is still on the line it started in. -/
def skipBlankLines (lineStart : Option Nat) : Nat → ScanM (Option Nat)
  | 0 => return lineStart
  | fuel + 1 => do
      let s ← get
      let s := s.advanceCols (skipBlanks s.rest)
      set s
      if s.peek == hash && s.pos > s.begins &&
          !isBlankOrBreak (s.byte (s.pos - 1)) then
        scanError "comment must be separated from other tokens by whitespace"
      let s := if s.peek == hash then s.advanceCols (scanToBreak s.rest) else s
      set s
      if isBreak s.peek then
        let s := s.skipBreak
        set s
        skipBlankLines (some s.pos) fuel
      else return lineStart

def skipBlanksAndComments : ScanM Unit := do
  let s ← get
  let lineStart ← skipBlankLines (if s.col == 1 then some s.pos else none)
    (s.remaining + 1)
  let s ← get
  match lineStart with
  | none => return ()
  | some lineStart =>
      if s.atEnd then return ()
      let c := s.byte s.pos
      if s.flowLevel > 0 && c != rbracket && c != rbrace &&
          !s.continuationIndentOk 0 then
        scanError "flow collection content must be indented more than the enclosing block"
      -- only blanks lie between the line's start and the cursor, so a tab is
      -- there exactly when its spaces stop short of the cursor
      let spaces := s.spacesToCursor lineStart
      if s.flowLevel == 0 && lineStart + spaces < s.pos &&
          (spaces : Int) ≤ s.indent then
        scanError "tabs are not allowed as indentation"

/-- What a `:` value indicator belongs to. -/
inductive ColonKind where
  | implicit
  | explicit
  | badKey
  deriving DecidableEq, Repr

namespace Scanner

/-- Only blanks between the start of the line (or of the text) and the cursor? -/
def onlyBlanksBefore (s : Scanner) : Nat → Bool
  | 0 => s.begins == 0
  | k + 1 =>
      if isBlank (s.byte k) then s.onlyBlanksBefore k
      else k + 1 == s.begins || isBreak (s.byte k)

/-- Do only blanks (and, in a flow sequence, breaks) separate the last node's
end from offset `j`? -/
def reachesNode (s : Scanner) (inSeq : Bool) (j : Nat) : Bool :=
  s.nodeEnd ≤ j &&
    ((s.buf.drop s.nodeEnd).take (j - s.nodeEnd)).all fun c =>
      isBlank c || (inSeq && isBreak c)

/-- `classify_colon`. -/
def classifyColon (s : Scanner) : ColonKind × Scanner :=
  if s.flows.isEmpty && s.onlyBlanksBefore s.pos then
    (.explicit, { s with explicitKey := false })
  else if !s.flows.isEmpty && s.explicitKey &&
      s.explicitDepth == s.flows.length then
    (.explicit, { s with explicitKey := false })
  else if s.nodeEnd > s.pos || s.nodeLine ≥ s.line then (.implicit, s)
  else
    match s.flows with
    | top :: _ =>
        if top.isMap then (.implicit, s)
        else (if s.reachesNode true s.pos then .badKey else .implicit, s)
    | [] => (if s.reachesNode false s.pos then .badKey else .implicit, s)

/-- The column a block mapping value's key starts at. -/
def keyColumn (s : Scanner) : Int :=
  if s.onlyBlanksBetween s.nodeEnd s.pos then
    if s.onlyBlanksBetween s.propsEnd s.nodeStart then s.propsCol else s.nodeCol
  else if s.onlyBlanksBetween s.propsEnd s.pos then s.propsCol
  else s.column

end Scanner

/-- A one-byte token at `start`. -/
def indicatorToken (type : TokenType) (start : Mark) : ScanM Token := do
  modify fun s => s.advance 1
  return tokSimple type start (← get).mark

/-- The flow indicators `[ ] { } ,`. -/
def scanFlowIndicator (c : UInt8) (start : Mark) : ScanM Token := do
  if c == lbracket || c == lbrace then
    modify fun s => { s with lastWasQuoted := false }
    modify fun s => s.flowPush (c == lbrace)
    modify fun s => { s with flowLevel := s.flowLevel + 1 }
    indicatorToken (if c == lbrace then .flowMapStart else .flowSeqStart) start
  else if c == rbracket || c == rbrace then
    let (opening, s) := (← get).flowPop
    let s := { s with flowLevel := s.flowLevel - 1 }
    let s := s.advance 1
    -- `]:value` reads like `"key":value`
    let s := { s.noteNode opening s.pos with lastWasQuoted := true }
    set s
    return tokSimple (if c == rbrace then .flowMapEnd else .flowSeqEnd) start s.mark
  else
    modify fun s => { s with lastWasQuoted := false }
    modify fun s => if s.explicitKey && s.explicitDepth == s.flows.length then
      { s with explicitKey := false } else s
    indicatorToken .flowEntry start

/-- A block indicator that opens a block collection at column `col` if that is
right of the current indent. -/
def blockIndicator (type : TokenType) (start : Mark) (col : Int) :
    ScanM Token := do
  modify fun s => if col > s.indent then s.indentPush col else s
  modify fun s => s.advance 1
  modify fun s => { s with indicatorEnd := s.pos }
  return tokSimple type start (← get).mark

/-- `- ` in block context. -/
def scanSeqEntry (start : Mark) : ScanM Token := do
  let s ← get
  if s.keyColonLine == s.line then
    scanError "block sequence entries are not allowed on the same line as a mapping key"
  if s.tabAfterIndicator s.pos then
    scanError "tabs are not allowed before a nested block collection"
  blockIndicator .blockSeqEntry start s.column

/-- `? `, in block and in flow context. -/
def scanKeyIndicator (start : Mark) : ScanM Token := do
  let s ← get
  if s.flowLevel == 0 then
    if s.keyColonLine == s.line then
      scanError "mapping values are not allowed on the same line as another key"
    if s.tabAfterIndicator s.pos then
      scanError "tabs are not allowed before a nested block collection"
    let tok ← blockIndicator .blockMapKey start s.column
    modify fun s =>
      { s with explicitKey := true, explicitDepth := s.flows.length }
    return tok
  else
    modify fun s =>
      { s with explicitKey := true, explicitDepth := s.flows.length }
    indicatorToken .blockMapKey start

/-- `: ` in block context. -/
def scanBlockValue (start : Mark) : ScanM Token := do
  let s ← get
  let colonCol := s.column
  let mapCol := min s.keyColumn colonCol
  let (kind, s) := s.classifyColon
  set s
  if kind == .badKey then scanError "implicit key must be on a single line"
  if kind == .implicit then
    if s.keyColonLine == s.line then
      scanError "mapping values are not allowed on the same line as another key"
    if s.tabAfterIndicator s.nodeStart then
      scanError "tabs are not allowed before a nested block collection"
    set { s with keyColonLine := s.line }
    blockIndicator .blockMapValue start mapCol
  else
    blockIndicator .blockMapValue start colonCol

/-- `:` in flow context. -/
def scanFlowValue (start : Mark) : ScanM Token := do
  modify fun s => { s with lastWasQuoted := false }
  let (kind, s) := (← get).classifyColon
  set s
  if kind == .badKey then scanError "implicit key must be on a single line"
  indicatorToken .blockMapValue start

/-- Tags, names, scalars: every token that is not an indicator. -/
def scanContent (c : UInt8) (start : Mark) : ScanM Token := do
  modify fun s => { s with lastWasQuoted := false }
  let s ← get
  if c == bang then scanTag
  else if c == amp || c == star then scanAnchorOrAlias
  else if c == squote then scanSingleQuoted
  else if c == dquote then scanDoubleQuoted
  else if (c == pipe || c == greater) && s.flowLevel == 0 then
    scanBlockScalar start
  else
    let next := s.peekAt 1
    if c == dash && s.flowLevel > 0 &&
        (next == 0 || isBlankOrBreak next || isFlow next) then
      scanError "block sequence entry not allowed in flow context"
    scanPlainScalar

/-- A document marker, `---` or `...`. -/
def scanDocMarker (type : TokenType) (start : Mark) : ScanM Token := do
  modify fun s => (s.unrollIndents (-1)).advance 3
  let s ← get
  if type == .docEnd then
    let k := s.pos + skipBlanks s.rest
    if k < s.len && s.byte k != hash && !isBreak (s.byte k) then
      scanError "content after document end marker '...'"
  return tokSimple type start s.mark

/-- A directive line, one token for the whole line. -/
def scanDirective (start : Mark) : ScanM Token := do
  let s ← get
  let n := scanToBreak s.rest
  let next := s.advanceCols n
  set next
  return {
    type := .directive, value := s.rest.take n, start := start, stop := next.mark }

/-- The token at the cursor, past whitespace and comments. -/
def scanAtToken : ScanM Token := do
  modify fun s => if s.flowLevel == 0 then s.unrollIndents s.column else s
  let s ← get
  let start := s.mark
  let c := s.peek
  let next := s.peekAt 1
  let gap := isBlankOrBreak next || next == 0
  if s.atDocIndicator dash then scanDocMarker .docStart start
  else if s.atDocIndicator dot then scanDocMarker .docEnd start
  else if c == percent && s.col == 1 && s.flowLevel == 0 then
    scanDirective start
  else if isFlow c then scanFlowIndicator c start
  else if c == dash && s.flowLevel == 0 && gap then scanSeqEntry start
  else if c == question && gap then scanKeyIndicator start
  else if c == colon && s.flowLevel == 0 && gap then scanBlockValue start
  else if c == colon && s.flowLevel > 0 &&
      (gap || next == comma || next == rbracket || next == rbrace ||
        s.lastWasQuoted) then
    scanFlowValue start
  else scanContent c start

/-- `oyl_scan_token`. -/
def scanToken : ScanM Token := do
  let s ← get
  match s.pending with
  | tok :: pending =>
      set { s with pending := pending }
      return tok
  | [] =>
      if !s.streamStarted then
        set { s with streamStarted := true }
        return tokSimple .streamStart s.mark s.mark
      skipBlanksAndComments
      let s ← get
      if s.atEnd then
        if !s.streamEnded then
          let s := { s with streamEnded := true }.unrollIndents (-1)
          set s
          return tokSimple .streamEnd s.mark s.mark
        return tokSimple .none s.mark s.mark
      scanAtToken

end Oyl
