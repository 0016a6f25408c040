import Oyl.Scanner.State

/-!
# Scalars, tags and names

`scan_plain_scalar`, the two quoted forms, `scan_tag` and
`scan_anchor_or_alias`.  A value the source returns as a slice of the input
and one it builds in a buffer are the same list of bytes here.  Each loop
consumes input or stops, so the unread length is fuel enough.
-/

namespace Oyl

namespace Scanner

/-- Cross consecutive line breaks with the blanks that start each next line;
returns how many breaks there were. -/
def skipBreakLines : Nat → Scanner → Nat → Scanner × Nat
  | 0, s, count => (s, count)
  | fuel + 1, s, count =>
      if s.atEnd || !isBreak s.peek then (s, count)
      else
        let s := s.skipBreak
        let s := s.advanceCols (skipBlanks s.rest)
        if !s.atEnd && !isBreak s.peek then (s, count + 1)
        else skipBreakLines fuel s (count + 1)

/-- Does the line at the cursor, after a break inside a plain scalar, end the
scalar rather than continue it? -/
def plainLineEnds (s : Scanner) : Bool :=
  let nextIndent := s.column
  let minIndent := if s.indent + 1 < 0 then 0 else s.indent + 1
  let c := s.peek
  let after := s.peekAt 1
  let gap := isBlankOrBreak after || after == 0
  nextIndent < minIndent ||
    ((c == dash || c == question) &&
      (s.indent < 0 || nextIndent ≤ s.indent) && gap) ||
    (c == colon && gap) ||
    c == hash ||
    ((c == amp || c == star) &&
      nextIndent ≤ s.indent + (if s.indent < 0 then 1 else 0)) ||
    (s.col == 1 && 3 ≤ s.remaining &&
      ((c == dash && s.peekAt 1 == dash && s.peekAt 2 == dash) ||
        (c == dot && s.peekAt 1 == dot && s.peekAt 2 == dot)) &&
      (s.remaining == 3 || isBlankOrBreak (s.peekAt 3)))

end Scanner

/-- Line folding: one break is a space, `k + 1` breaks are `k` line feeds. -/
def foldBreaks (count : Nat) : Bytes :=
  if count == 1 then [space] else List.replicate (count - 1) lf

/-- The loop of `scan_plain_scalar`; `out` is the value so far. -/
def plainLoop : Nat → Bytes → ScanM Bytes
  | 0, out => pure out
  | fuel + 1, out => do
      let s ← get
      let run := plainRun s.rest
      let out := out ++ s.rest.take run
      let s := s.advanceCols run
      set s
      if s.atEnd then return out
      let c := s.peek
      if c == colon then
        let next := s.peekAt 1
        if !isBlankOrBreak next && next != 0 &&
            !(s.flowLevel > 0 && isFlow next) then
          set (s.advance 1)
          plainLoop fuel (out ++ [colon])
        else return out
      else if c == hash then
        if out.getLast?.any isBlank then return trimBlanks out
        else if out.isEmpty then return out
        else
          set (s.advance 1)
          plainLoop fuel (out ++ [hash])
      else if s.flowLevel > 0 && isFlow c then return out
      else if isBlank c then
        let blanks := skipBlanks s.rest
        let next := s.advanceCols blanks
        set next
        if next.atEnd then return out
        -- blanks before a break are dropped; the break is handled next
        if isBreak next.peek then plainLoop fuel out
        else plainLoop fuel (out ++ s.rest.take blanks)
      else if isBreak c then
        let (next, breakCount) := s.skipBreakLines s.remaining 0
        if next.atEnd || next.plainLineEnds then return out
        set next
        plainLoop fuel (trimBlanks out ++ foldBreaks breakCount)
      else if isControl c then scanError "control character in plain scalar"
      else
        set (s.advance 1)
        plainLoop fuel (out ++ [c])

def scanPlainScalar : ScanM Token := do
  let start := (← get).mark
  let out ← plainLoop ((← get).remaining + 1) []
  let s ← get
  let stop := s.mark
  set (s.noteNode start stop.offset)
  return tokScalar (trimBlanks out) .plain start stop

/-- What both quoted forms do once the closing quote is passed. -/
def finishQuoted (style : ScalarStyle) (start : Mark) (value : Bytes) :
    ScanM Token := do
  modify fun s => { s with lastWasQuoted := true }
  modify fun s => s.noteNode start s.pos
  return tokScalar value style start (← get).mark

/-- A break inside a quoted scalar: the lines crossed must not be a document
marker and must be indented. -/
def quotedBreak (closer : UInt8) (marker : String) : ScanM Nat := do
  let s ← get
  let (next, breakCount) := s.skipBreakLines s.remaining 0
  set next
  if next.col == 1 && next.isDocIndicatorAt next.pos then scanError marker
  if !next.continuationIndentOk closer then
    scanError "continuation line of a quoted scalar must be indented"
  return breakCount

/-- The buffered loop of `scan_single_quoted`. -/
def singleQuotedLoop : Nat → Bytes → ScanM Bytes
  | 0, out => pure out
  | fuel + 1, out => do
      let s ← get
      if s.atEnd then return out
      if s.peek == squote then
        if s.pos + 1 < s.len && s.byte (s.pos + 1) == squote then
          set (s.advance 2)
          singleQuotedLoop fuel (out ++ [squote])
        else return out
      else if isBreak s.peek then
        let breakCount ← quotedBreak squote
          "document indicator in single-quoted scalar"
        singleQuotedLoop fuel (trimBlanks out ++ foldBreaks breakCount)
      else
        let n := findAny4 squote lf cr squote s.rest
        set (s.advanceCols n)
        singleQuotedLoop fuel (out ++ s.rest.take n)

def scanSingleQuoted : ScanM Token := do
  let start := (← get).mark
  modify fun s => s.advance 1
  let s ← get
  let n := findAny4 squote lf cr squote s.rest
  let j := s.pos + n
  if j < s.len && s.byte j == squote &&
      !(j + 1 < s.len && s.byte (j + 1) == squote) then
    set (s.advanceCols (n + 1))
    finishQuoted .singleQuoted start (s.rest.take n)
  else
    let out ← singleQuotedLoop (s.remaining + 1) []
    if (← get).peek != squote then scanError "unterminated single-quoted scalar"
    modify fun s => s.advance 1
    finishQuoted .singleQuoted start out

def hexDigit (c : UInt8) : Nat :=
  if isDigit c then c.toNat - 0x30
  else if 0x61 ≤ c && c ≤ 0x66 then c.toNat - 0x61 + 10
  else if 0x41 ≤ c && c ≤ 0x46 then c.toNat - 0x41 + 10
  else 0

def encodeUtf8 (cp : Nat) : Bytes :=
  if cp ≤ 0x7F then [UInt8.ofNat cp]
  else if cp ≤ 0x7FF then
    [UInt8.ofNat (0xC0 ||| cp >>> 6), UInt8.ofNat (0x80 ||| cp &&& 0x3F)]
  else if cp ≤ 0xFFFF then
    [UInt8.ofNat (0xE0 ||| cp >>> 12), UInt8.ofNat (0x80 ||| cp >>> 6 &&& 0x3F),
      UInt8.ofNat (0x80 ||| cp &&& 0x3F)]
  else
    [UInt8.ofNat (0xF0 ||| cp >>> 18), UInt8.ofNat (0x80 ||| cp >>> 12 &&& 0x3F),
      UInt8.ofNat (0x80 ||| cp >>> 6 &&& 0x3F), UInt8.ofNat (0x80 ||| cp &&& 0x3F)]

/-- `\u` and `\U`, with the letter already consumed. -/
def unicodeEscape (ndigits : Nat) : ScanM Bytes := do
  let s ← get
  if asInt s.remaining < ndigits then scanError "incomplete unicode escape sequence"
  let digits := s.rest.take ndigits
  if !digits.all isHex then scanError "invalid hex digit in unicode escape"
  let cp := digits.foldl (fun cp c => cp * 16 + hexDigit c) 0
  set (s.advance ndigits)
  if cp > 0x10FFFF then scanError "unicode codepoint exceeds U+10FFFF"
  if 0xD800 ≤ cp && cp ≤ 0xDFFF then scanError "surrogate pair in unicode escape"
  return encodeUtf8 cp

/-- The escapes that stand for fixed bytes. -/
def simpleEscape (esc : UInt8) : Option Bytes :=
  if esc == 0x30 then some [0x00]            -- 0
  else if esc == 0x61 then some [0x07]       -- a
  else if esc == 0x62 then some [0x08]       -- b
  else if esc == 0x74 then some [0x09]       -- t
  else if esc == tab then some [0x09]
  else if esc == 0x6E then some [0x0A]       -- n
  else if esc == 0x76 then some [0x0B]       -- v
  else if esc == 0x66 then some [0x0C]       -- f
  else if esc == 0x72 then some [0x0D]       -- r
  else if esc == 0x65 then some [0x1B]       -- e
  else if esc == space then some [space]
  else if esc == dquote then some [dquote]
  else if esc == slash then some [slash]
  else if esc == backslash then some [backslash]
  else if esc == 0x4E then some [0xC2, 0x85] -- N
  else if esc == 0x5F then some [0xC2, 0xA0] -- _
  else none

/-- The decoding loop of `scan_double_quoted`.  Literal blanks past
`contentEnd` are dropped at a line break. -/
def doubleQuotedLoop : Nat → Bytes → Nat → ScanM Bytes
  | 0, out, _ => pure out
  | fuel + 1, out, contentEnd => do
      let s ← get
      if s.atEnd || s.peek == dquote then return out
      if s.peek == backslash then
        let s := s.advance 1
        set s
        if s.atEnd then scanError "incomplete escape at end of input"
        let esc := s.peek
        let s := s.advance 1
        set s
        if esc == lf || esc == cr then
          let s := if esc == cr && s.peek == lf then s.advance 1 else s
          let s := s.advanceCols (skipBlanks s.rest)
          set s
          if !s.atEnd && !isBreak s.peek && !s.continuationIndentOk dquote then
            scanError "continuation line of a quoted scalar must be indented"
          doubleQuotedLoop fuel out out.length
        else
          let bytes ←
            match simpleEscape esc with
            | some bytes => pure bytes
            | none =>
                if esc == 0x78 then do       -- x
                  if s.remaining < 2 then
                    scanError "incomplete \\x escape sequence"
                  let hi := s.peek
                  let lo := s.peekAt 1
                  if !isHex hi || !isHex lo then
                    scanError "invalid hex digit in \\x escape"
                  set (s.advance 2)
                  pure [UInt8.ofNat (hexDigit hi * 16 + hexDigit lo)]
                else if esc == 0x75 then unicodeEscape 4  -- u
                else if esc == 0x55 then unicodeEscape 8  -- U
                else scanError "invalid escape sequence"
          let out := out ++ bytes
          doubleQuotedLoop fuel out out.length
      else if isBreak s.peek then
        let breakCount ← quotedBreak dquote
          "document indicator in double-quoted scalar"
        doubleQuotedLoop fuel (out.take contentEnd ++ foldBreaks breakCount)
          contentEnd
      else
        let n := findAny4 dquote backslash lf cr s.rest
        let run := s.rest.take n
        let content := (trimBlanks run).length
        set (s.advanceCols n)
        doubleQuotedLoop fuel (out ++ run)
          (if content > 0 then out.length + content else contentEnd)

def scanDoubleQuoted : ScanM Token := do
  let start := (← get).mark
  modify fun s => s.advance 1
  let s ← get
  let n := findAny4 dquote backslash lf cr s.rest
  let j := s.pos + n
  if j < s.len && s.byte j == dquote then
    set (s.advanceCols (n + 1))
    finishQuoted .doubleQuoted start (s.rest.take n)
  else
    let out ← doubleQuotedLoop (s.remaining + 1) [] 0
    if (← get).peek != dquote then scanError "unterminated double-quoted scalar"
    modify fun s => s.advance 1
    finishQuoted .doubleQuoted start out

/-- Advance to the first byte with `stops`, refusing control characters. -/
def scanNameLoop (stops : UInt8 → Bool) (msg : String) : Nat → ScanM Unit
  | 0 => pure ()
  | fuel + 1 => do
      let s ← get
      if s.atEnd || stops s.peek then return ()
      if isControl s.peek then scanError msg
      set (s.advance 1)
      scanNameLoop stops msg fuel

/-- The token for an anchor, alias or tag ending at the cursor, with its value
starting at `valueStart`. -/
def finishName (type : TokenType) (start : Mark) (valueStart : Nat) :
    ScanM Token := do
  let s ← get
  set (if type == .alias then s.noteNode start s.pos else s.noteProps start s.pos)
  return {
    type := type
    value := (s.buf.drop valueStart).take (s.pos - valueStart)
    start := start
    stop := s.mark }

def scanTag : ScanM Token := do
  let start := (← get).mark
  modify fun s => s.advance 1
  let s ← get
  if s.peek == less then
    let s := s.advance 1
    set s
    scanNameLoop (fun c => c == greater || isBlankOrBreak c)
      "control character in tag" s.remaining
    let next ← get
    if next.peek != greater || next.pos == s.pos then
      scanError "invalid verbatim tag"
    set (next.advance 1)
    finishName .tag start start.offset
  else
    if s.peek == bang then set (s.advance 1)
    scanNameLoop (fun c => isBlankOrBreak c || isFlow c)
      "control character in tag" s.remaining
    finishName .tag start start.offset

def scanAnchorOrAlias : ScanM Token := do
  let start := (← get).mark
  let isAnchor := (← get).peek == amp
  modify fun s => s.advance 1
  let nameStart := (← get).pos
  scanNameLoop (fun c => isBlankOrBreak c || c == 0 || isFlow c)
    "control character in anchor or alias name" (← get).remaining
  if (← get).pos == nameStart then scanError "empty anchor or alias name"
  finishName (if isAnchor then .anchor else .alias) start nameStart

end Oyl
