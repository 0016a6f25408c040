import Oyl.Scanner.Scalars

/-!
# Block scalars

The block scalar branch of `oyl_scan_token`: header, content indentation, the
measuring and the copying pass, folding and chomping.
-/

namespace Oyl

/-- A chomping indicator of a block scalar header. -/
inductive Chomp where
  | strip
  | clip
  | keep
  deriving DecidableEq, Repr

/-- A line the copying pass records for folding. -/
structure BlockLine where
  content : Bytes
  empty : Bool
  moreIndented : Bool
  deriving DecidableEq, Repr

namespace Scanner

/-- Number of spaces from offset `pos` on. -/
def spacesAt (s : Scanner) (pos : Nat) : Nat :=
  runLength (· == space) (s.buf.drop pos)

/-- Offset past the line break at `pos`, as the probing passes step over it. -/
def pastBreak (s : Scanner) (pos : Nat) : Nat :=
  let pos := if pos < s.len && s.byte pos == cr then pos + 1 else pos
  if pos < s.len && s.byte pos == lf then pos + 1 else pos

/-- Up to two chomping and indentation indicators. -/
def blockHeader : Nat → Scanner → Chomp → Nat → Scanner × Chomp × Nat
  | 0, s, chomp, explicitIndent => (s, chomp, explicitIndent)
  | n + 1, s, chomp, explicitIndent =>
      let c := s.peek
      if s.atEnd || isBreak c then (s, chomp, explicitIndent)
      else if c == dash then blockHeader n (s.advance 1) .strip explicitIndent
      else if c == plus then blockHeader n (s.advance 1) .keep explicitIndent
      else if 0x31 ≤ c && c ≤ 0x39 then
        blockHeader n (s.advance 1) chomp (c.toNat - 0x30)
      else (s, chomp, explicitIndent)

/-- What auto-detection finds: the indentation of the first content line, if
it is deep enough to be content, and the longest line of spaces before it. -/
def probeIndent (s : Scanner) : Nat → Nat → Nat → Option Nat × Nat
  | 0, _, maxEmpty => (none, maxEmpty)
  | fuel + 1, probe, maxEmpty =>
      if s.len ≤ probe then (none, maxEmpty)
      else
        let li := s.spacesAt probe
        if s.len ≤ probe + li then (none, max maxEmpty li)
        else if li == 0 && s.isDocIndicatorAt probe then (none, maxEmpty)
        else if isBreak (s.byte (probe + li)) then
          probeIndent s fuel (s.pastBreak (probe + li)) (max maxEmpty li)
        else if (li : Int) ≥ s.indent + 1 then (some li, maxEmpty)
        else (none, maxEmpty)

/-- The measuring pass: where the content ends and how many bytes it needs, or
`none` for a tab in the indentation of a whitespace-only line. -/
def measureBlock (s : Scanner) (base : Nat) :
    Nat → Nat → Nat → Option (Nat × Nat)
  | 0, pos, needed => some (pos, needed)
  | fuel + 1, pos, needed =>
      if s.len ≤ pos then some (pos, needed)
      else
        let li := s.spacesAt pos
        if s.len ≤ pos + li then some (pos + li, needed + (li - base) + 1)
        else if isBreak (s.byte (pos + li)) then
          measureBlock s base fuel (s.pastBreak (pos + li))
            (needed + (li - base) + 1)
        else if li == 0 && s.isDocIndicatorAt pos then some (pos, needed)
        else if li < base then
          let k := pos + li
          if s.byte k == tab then
            let k := k + skipBlanks (s.buf.drop k)
            if s.len ≤ k || isBreak (s.byte k) then none
            else some (pos, needed)
          else some (pos, needed)
        else
          let lineStart := pos + base
          let run := scanToBreak (s.buf.drop lineStart)
          measureBlock s base fuel (s.pastBreak (lineStart + run))
            (needed + run + 1)

/-- The copying pass up to `endPos`: the raw text and its lines. -/
def copyBlock (base endPos : Nat) :
    Nat → Scanner → Bytes → List BlockLine → Scanner × Bytes × List BlockLine
  | 0, s, out, lines => (s, out, lines)
  | fuel + 1, s, out, lines =>
      if endPos ≤ s.pos then (s, out, lines)
      else
        let li := s.spacesAt s.pos
        let lineIsBreak := endPos ≤ s.pos + li ||
          (s.pos + li < s.len && isBreak (s.byte (s.pos + li)))
        let crossBreak (s : Scanner) :=
          if !s.atEnd && isBreak s.peek then s.skipBreak else s
        if lineIsBreak && li ≤ base then
          copyBlock base endPos fuel (crossBreak (s.advanceCols li))
            (out ++ [lf]) (lines ++ [⟨[], true, false⟩])
        else if !lineIsBreak && li < base then (s, out, lines)
        else
          let extra := li - base
          let s := (s.advanceCols base).advanceCols extra
          let startsWithWs := extra > 0 ||
            (!s.atEnd && !isBreak s.peek && isBlank s.peek)
          let n := scanToBreak s.rest
          let content := List.replicate extra space ++ s.rest.take n
          copyBlock base endPos fuel (crossBreak (s.advanceCols n))
            (out ++ content ++ [lf]) (lines ++ [⟨content, false, startsWithWs⟩])

end Scanner

/-- Folding of the recorded lines; every round takes at least one line. -/
def foldLines : Nat → List BlockLine → Bytes
  | 0, _ => []
  | _ + 1, [] => []
  | fuel + 1, line :: rest =>
      if line.empty then lf :: foldLines fuel rest
      else
        let emptyCount := (rest.takeWhile (·.empty)).length
        let after := rest.dropWhile (·.empty)
        let breaks : Bytes :=
          match after with
          | [] => List.replicate (emptyCount + 1) lf
          | next :: _ =>
              if line.moreIndented then List.replicate (emptyCount + 1) lf
              else if emptyCount > 0 then
                List.replicate
                  (if next.moreIndented then emptyCount + 1 else emptyCount) lf
              else if next.moreIndented then [lf]
              else [space]
        line.content ++ breaks ++ foldLines fuel after

/-- Chomping of the trailing line feeds. -/
def chompBlock (chomp : Chomp) (out : Bytes) : Bytes :=
  let body := (out.reverse.dropWhile (· == lf)).reverse
  match chomp with
  | .strip => body
  | .clip => if body.isEmpty then [] else body ++ [lf]
  | .keep => out

/-- A block scalar, with the cursor on its `|` or `>`. -/
def scanBlockScalar (start : Mark) : ScanM Token := do
  let style := if (← get).peek == pipe then ScalarStyle.literal else .folded
  let (s, chomp, explicitIndent) := ((← get).advance 1).blockHeader 2 .clip 0
  let blanks := skipBlanks s.rest
  let s := s.advanceCols blanks
  set s
  if !s.atEnd && s.peek == hash && blanks == 0 then
    scanError "comment must be separated from other tokens by whitespace"
  let s := if !s.atEnd && s.peek == hash then s.advanceCols (scanToBreak s.rest)
    else s
  set s
  if !s.atEnd && !isBreak s.peek then scanError "invalid block scalar indicator"
  let s := s.skipBreak
  set s
  let (detected, maxEmpty) := s.probeIndent (s.remaining + 1) s.pos 0
  let base ←
    if explicitIndent > 0 then
      pure (max (s.indent + explicitIndent) explicitIndent).toNat
    else
      match detected with
      | some li =>
          if maxEmpty > li then
            scanError "leading empty line in block scalar has more spaces than the first content line"
          else pure li
      | none => pure (max maxEmpty (max (s.indent + 1) 1).toNat)
  match s.measureBlock base (s.remaining + 1) s.pos 0 with
  | none => scanError "tabs are not allowed as indentation in a block scalar"
  | some (endPos, _needed) =>
      let (s, out, lines) := s.copyBlock base endPos (s.remaining + 1) [] []
      set s
      let out := if style == .folded && !lines.isEmpty then
          foldLines lines.length lines else out
      return tokScalar (chompBlock chomp out) style start s.mark

end Oyl
