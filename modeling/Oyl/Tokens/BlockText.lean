import Oyl.Tokens.BlockLines
import Oyl.Tokens.BlockTokens
import Mathlib.Data.List.TakeWhile

/-!
# What a block scalar contains

The content of a block scalar is cut from the lines after its header, folded or not, and
chomped, as its header says.
-/

namespace Oyl

open StateError

/-! ### What a header says -/

def chompOf (indicators : Bytes) : Chomp :=
  if indicators.contains dash then .strip else if indicators.contains plus then .keep else .clip

/-- The indentation that a header gives, or zero. -/
def digitOf (indicators : Bytes) : Nat :=
  ((indicators.find? isIndentDigit).map fun d => d.toNat - 0x30).getD 0

/-! ### Indentation -/

/-- The length of the longest of the empty lines before the first other one. -/
def longestEmpty : List Bytes → Nat
  | [] => 0
  | line :: lines => if isEmptyLine line then max line.length (longestEmpty lines) else 0

/-- The indentation of the first line that is not empty, if it is content in a block that is
indented by `parent`. -/
def firstIndent (parent : Int) (lines : List Bytes) : Option Nat :=
  ((lines.find? fun line => !isEmptyLine line).filter fun line =>
    !isMarkerLine line && parent < indentation line).map indentation

/-- The indentation of a block scalar's content. -/
def contentIndent (parent : Int) (digit : Nat) (lines : List Bytes) : Nat :=
  if 0 < digit then (max parent 0).toNat + digit
  else (firstIndent parent lines).getD (max (longestEmpty lines) (max (parent + 1) 1).toNat)

/-- The content's lines without their indentation. -/
def blockContent (parent : Int) (digit : Nat) (lines : List Bytes) : List Bytes :=
  (lines.takeWhile (isContentLine (contentIndent parent digit lines))).map
    (·.drop (contentIndent parent digit lines))

/-! ### Folding -/

/-- A line that does not start with a blank, and is not empty. -/
def isTextLine (line : Bytes) : Bool := line.head?.any (!isBlank ·)

/-- What folding makes of the break after a line. -/
def foldedBreak (line : Bytes) (after : List Bytes) : Bytes :=
  if isTextLine line && (after.find? (!·.isEmpty)).any isTextLine then
    if after.head?.any (·.isEmpty) then [] else [space]
  else [lf]

def foldedText : List Bytes → Bytes
  | [] => []
  | line :: after => line ++ foldedBreak line after ++ foldedText after

def blockText (style : ScalarStyle) (content : List Bytes) : Bytes :=
  if style == .folded then foldedText content else content.flatMap (· ++ [lf])

/-! ### Chomping -/

/-- A text that does not end in a line feed. -/
def Unbroken (body : Bytes) : Prop := body.getLast? ≠ some lf

/-- What chomping makes of a text. -/
inductive Chomped : Chomp → Bytes → Bytes → Prop
  | strip {body : Bytes} (breaks : Nat) : Unbroken body →
      Chomped .strip (body ++ List.replicate breaks lf) body
  | clip {body : Bytes} (breaks : Nat) : body ≠ [] → Unbroken body →
      Chomped .clip (body ++ List.replicate breaks lf) (body ++ [lf])
  | clipBreaks (breaks : Nat) : Chomped .clip (List.replicate breaks lf) []
  | keep (text : Bytes) : Chomped .keep text text

section

variable {text indicators tail out : Bytes} {s s' : Scanner} {tok : Token} {pos stop base : Nat}
  {lines : List Bytes}

/-- A text is cut before the line feeds at its end. -/
theorem append_breaks (out : Bytes) :
    ∃ breaks, out = (out.reverse.dropWhile (· == lf)).reverse ++ List.replicate breaks lf := by
  have isBreaks : out.reverse.takeWhile (· == lf) =
      List.replicate (out.reverse.takeWhile (· == lf)).length lf :=
    List.eq_replicate_of_mem fun c member =>
      beq_iff_eq.mp (List.mem_takeWhile_imp (p := (· == lf)) member)
  refine ⟨(out.reverse.takeWhile (· == lf)).length, ?_⟩
  calc out = (out.reverse.takeWhile (· == lf) ++ out.reverse.dropWhile (· == lf)).reverse := by
        rw [List.takeWhile_append_dropWhile, List.reverse_reverse]
    _ = _ := by rw [List.reverse_append, isBreaks, List.reverse_replicate, List.length_replicate]

theorem unbroken_dropWhile (out : Bytes) : Unbroken (out.reverse.dropWhile (· == lf)).reverse := by
  intro isLf
  rw [List.getLast?_reverse] at isLf
  have other := List.head?_dropWhile_not (· == lf) out.reverse
  rw [isLf] at other
  cases other

/-- The code's chomping. -/
theorem chompBlock_chomped (chomp : Chomp) (out : Bytes) : Chomped chomp out
    (chompBlock chomp out) := by
  obtain ⟨breaks, isOut⟩ := append_breaks out
  have unbroken := unbroken_dropWhile out
  unfold chompBlock
  generalize (out.reverse.dropWhile (· == lf)).reverse = body at isOut unbroken
  subst isOut
  cases chomp with
  | strip => exact .strip breaks unbroken
  | clip =>
      dsimp only
      cases body with
      | nil => exact .clipBreaks breaks
      | cons c body => exact .clip breaks (List.cons_ne_nil c body) unbroken
  | keep => exact .keep _

theorem foldedText_empties (count : Nat) (after : List Bytes) :
    foldedText (List.replicate count [] ++ after) = List.replicate count lf ++
      foldedText after := by
  induction count with
  | zero => rfl
  | succ count ih =>
      rw [List.replicate_succ, List.cons_append, foldedText, ih]
      rfl

/-- A list of lines starts with empty ones. -/
theorem exists_empties (content : List Bytes) :
    content = List.replicate (content.takeWhile (·.isEmpty)).length [] ++
      content.dropWhile (·.isEmpty) := by
  have isEmpties : content.takeWhile (·.isEmpty) =
      List.replicate (content.takeWhile (·.isEmpty)).length [] :=
    List.eq_replicate_of_mem fun line member => List.isEmpty_iff.mp (List.mem_takeWhile_imp member)
  rw [← isEmpties, List.takeWhile_append_dropWhile]

theorem isTextLine_eq {line : Bytes} (some' : line ≠ []) :
    isTextLine line = !line.head?.any isBlank := by
  cases line with
  | nil => exact absurd rfl some'
  | cons c line => rfl

/-- The break after a line that empty lines follow. -/
theorem foldedBreak_empties (line : Bytes) (count : Nat) {after : List Bytes}
    (first : after.head?.all (fun next => !next.isEmpty) = true) :
    foldedBreak line (List.replicate count [] ++ after) =
      if isTextLine line && after.head?.any isTextLine then
        if count == 0 then [space] else []
      else [lf] := by
  have next : (List.replicate count [] ++ after).find? (fun line => !line.isEmpty) =
      after.head? := by
    induction count with
    | zero =>
        cases after with
        | nil => rfl
        | cons next after => exact List.find?_cons_of_pos first
    | succ count ih => exact ih
  have isNext : (List.replicate count [] ++ after).head?.any List.isEmpty =
      !(count == 0) := by
    cases count with
    | zero =>
        cases after with
        | nil => rfl
        | cons next after => exact Bool.not_eq_true' _ ▸ first
    | succ count => rfl
  rw [foldedBreak, next, isNext]
  cases count <;> rfl

/-- The code's folding. -/
theorem foldLines_eq (fuel : Nat) (content : List Bytes) (enough : content.length ≤ fuel) :
    foldLines fuel (content.map .of) = foldedText content := by
  induction fuel generalizing content with
  | zero =>
      rw [List.length_eq_zero_iff.mp (Nat.le_zero.mp enough)]
      rfl
  | succ fuel ih =>
      cases content with
      | nil => rfl
      | cons line rest =>
          have enough' := Nat.le_of_succ_le_succ enough
          rw [List.map_cons, foldLines, foldedText]
          cases isEmpty : line.isEmpty with
          | true =>
              rw [if_pos (show (BlockLine.of line).empty = true from isEmpty), ih rest enough',
                List.isEmpty_iff.mp isEmpty]
              rfl
          | false =>
              have some' : line ≠ [] := List.isEmpty_eq_false_iff.mp isEmpty
              have empties : ((rest.map BlockLine.of).takeWhile (·.empty)).length =
                  (rest.takeWhile (·.isEmpty)).length := by
                rw [List.takeWhile_map, List.length_map]
                rfl
              have others : (rest.map BlockLine.of).dropWhile (·.empty) =
                  (rest.dropWhile (·.isEmpty)).map BlockLine.of := List.dropWhile_map
              have first : (rest.dropWhile (·.isEmpty)).head?.all (fun next => !next.isEmpty) := by
                have other := List.head?_dropWhile_not (·.isEmpty) rest
                cases after : (rest.dropWhile (·.isEmpty)).head? with
                | none => rfl
                | some next =>
                    rw [after] at other
                    rw [Option.all_some, other]
                    rfl
              have size : (rest.dropWhile (·.isEmpty)).length ≤ fuel :=
                Nat.le_trans (List.dropWhile_sublist _).length_le enough'
              rw [if_neg (by rw [BlockLine.of, isEmpty]; exact Bool.false_ne_true), empties, others]
              dsimp only
              rw [ih _ size]
              conv_rhs => rw [exists_empties rest, foldedText_empties]
              generalize (rest.takeWhile (·.isEmpty)).length = count
              generalize rest.dropWhile (·.isEmpty) = after at first
              rw [foldedBreak_empties line count first, isTextLine_eq some']
              cases after with
              | nil => simp [BlockLine.of, List.replicate_succ]
              | cons next after =>
                  have nextSome : next ≠ [] := by
                    rintro rfl
                    cases first
                  rw [List.head?_cons, Option.any_some, isTextLine_eq nextSome, List.map_cons]
                  dsimp only [BlockLine.of]
                  by_cases lineBlank : line.head?.any isBlank = true <;>
                    by_cases nextBlank : next.head?.any isBlank = true <;>
                    cases count <;> simp [List.replicate_succ, lineBlank, nextBlank]

/-! ### The indentation that is found -/

/-- Probing goes over the empty lines to the first other one. -/
theorem probeIndent_eq (reads : s.Reads text) (fuel maxEmpty : Nat) (inside : pos ≤ text.length)
    (enough : text.length - pos < fuel) :
    s.probeIndent fuel pos maxEmpty =
      (firstIndent s.indent (textLines (text.drop pos)),
        max maxEmpty (longestEmpty (textLines (text.drop pos)))) := by
  induction fuel generalizing pos maxEmpty with
  | zero => exact absurd enough (Nat.not_lt_zero _)
  | succ fuel ih =>
      rw [Scanner.probeIndent, reads.len]
      by_cases below : text.length ≤ pos
      · rw [if_pos below, List.drop_eq_nil_of_le below, textLines, longestEmpty, Nat.max_zero]
        rfl
      have below := Nat.not_le.mp below
      have isEnd := firstLine_length text pos
      rw [if_neg (Nat.not_le.mpr below)]
      dsimp only
      rw [spacesAt_line reads, reads.byte_eq, reads.isDocIndicatorAt_eq, markerAt_line,
        textLines_drop below, longestEmpty, firstIndent]
      cases isEmpty : isEmptyLine (firstLine (text.drop pos)) with
      | true =>
          have notMarker := isMarkerLine_empty isEmpty
          rw [List.find?_cons_of_neg (by rw [isEmpty]; exact Bool.false_ne_true), if_pos rfl,
            notMarker, Bool.and_false, indentation_empty isEmpty, ← isEnd, ← firstIndent]
          rcases lineEnd_stops text pos with outside | isBr
          · rw [if_pos outside, nextLine_end outside, List.drop_eq_nil_of_le outside, textLines,
              longestEmpty, Nat.max_zero]
            rfl
          · rw [if_neg (Nat.not_le.mpr (lt_length_of_isBreak isBr)), if_neg Bool.false_ne_true,
              if_pos isBr, pastBreak_eq reads isBr, ← nextLine_break isBr,
              ih _ (nextLine_le inside) (by have later := lt_nextLine below; omega), Nat.max_assoc]
      | false =>
          have more := (isEmptyLine_iff inside).not.mp (by rw [isEmpty]; exact Bool.false_ne_true)
          rw [not_or] at more
          rw [List.find?_cons_of_pos (by rw [isEmpty]; rfl), if_neg more.1, if_neg more.2,
            if_neg Bool.false_ne_true, Nat.max_zero]
          rw [Option.filter_some]
          cases isMarker : isMarkerLine (firstLine (text.drop pos)) with
          | true =>
              rw [(isMarkerLine_first isMarker).1]
              rfl
          | false =>
              rw [Bool.and_false, if_neg Bool.false_ne_true, Bool.not_false, Bool.true_and]
              by_cases deep : s.indent < indentation (firstLine (text.drop pos))
              · rw [if_pos (Int.add_one_le_of_lt deep), decide_eq_true deep, if_pos rfl]
                rfl
              · have shallow : ¬s.indent + 1 ≤ indentation (firstLine (text.drop pos)) := by omega
                rw [if_neg shallow, decide_eq_false deep, if_neg Bool.false_ne_true]
                rfl

/-- More leading spaces than the content is indented by. -/
def tooDeep (parent : Int) (digit : Nat) (lines : List Bytes) : Bool :=
  digit == 0 && (firstIndent parent lines).any (· < longestEmpty lines)

theorem blockBase_eq (reads : s.Reads text) (digit : Nat) :
    blockBase digit s =
      if tooDeep s.indent digit (textLines s.rest) then
        (scanError "leading empty line in block scalar has more spaces than the first content line" :
          ScanM Nat) s
      else .ok (contentIndent s.indent digit (textLines s.rest)) s := by
  have probed := probeIndent_eq reads (s.remaining + 1) 0 reads.inside
    (by rw [Scanner.remaining, reads.len]; exact Nat.lt_succ_self _)
  rw [← reads.rest_eq, Nat.zero_max] at probed
  rw [blockBase, get_bind_eq, probed, contentIndent, tooDeep]
  by_cases given : 0 < digit
  · have isBase : (max (s.indent + digit) digit).toNat = (max s.indent 0).toNat + digit := by omega
    rw [if_pos given, if_pos given, isBase, beq_false_of_ne (Nat.ne_of_gt given)]
    rfl
  · rw [if_neg given, if_neg given, Nat.le_zero.mp (Nat.not_lt.mp given)]
    cases firstIndent s.indent (textLines s.rest) with
    | none => rfl
    | some li =>
        by_cases deep : li < longestEmpty (textLines s.rest)
        · simp [deep]
        · simp [deep]
          rfl

/-! ### The header -/

theorem indentDigit_apart {d : UInt8} (digit : isIndentDigit d = true) : d ≠ dash ∧ d ≠ plus := by
  constructor <;>
    · rintro rfl
      cases digit

/-- Reading one indicator. -/
theorem blockHeader_indicator (reads : s.Reads text) (n digit : Nat) (chomp : Chomp) {c : UInt8}
    {more : Bytes} (isRest : s.rest = c :: more) (indicator : isHeaderIndicator c = true) :
    (s.advanceCols 1).Reads text ∧ (s.advanceCols 1).rest = more ∧
      s.blockHeader (n + 1) chomp digit =
        (s.advanceCols 1).blockHeader n
          (if c == dash then .strip else if c == plus then .keep else chomp)
          (if isIndentDigit c then c.toNat - 0x30 else digit) := by
  obtain ⟨inside, isByte, isMore⟩ := peek_of_rest reads isRest
  have plain := (indicator_plain indicator).2.1
  have open' : s.atEnd = false := by
    rw [Bool.eq_false_iff, ne_eq, reads.atEnd_iff, Nat.not_le]
    exact inside
  have reads' : (s.advanceCols 1).Reads text := reads.advanceCols inside
  have passed := Moves.advance_plain reads open' (isByte ▸ plain)
  refine ⟨reads', reads'.rest_eq.trans isMore, ?_⟩
  rw [Scanner.blockHeader, open', isByte, plain, passed]
  rcases isHeaderIndicator_iff.mp indicator with chomping | isDigit
  · rw [chomping_not_digit chomping]
    rw [isChomping, Bool.or_eq_true, beq_iff_eq, beq_iff_eq] at chomping
    rcases chomping with rfl | rfl <;> rfl
  · obtain ⟨notDash, notPlus⟩ := indentDigit_apart isDigit
    have inRange : (decide (0x31 ≤ c) && decide (c ≤ 0x39)) = true := isDigit
    rw [beq_false_of_ne notDash, beq_false_of_ne notPlus, isDigit, inRange]
    rfl

/-- Nothing more is read at the end of a header. -/
theorem blockHeader_halt (reads : s.Reads text) (n digit : Nat) (chomp : Chomp)
    (ends : headerEnds s.rest = true) : s.blockHeader n chomp digit = (s, chomp, digit) := by
  cases n with
  | zero => rfl
  | succ n =>
      rw [Scanner.blockHeader]
      cases ended : s.atEnd with
      | true => rfl
      | false =>
          have first := head_rest reads ended
          have other : isHeaderIndicator s.peek = false := by
            rw [Bool.eq_false_iff]
            intro indicator
            cases isRest : s.rest with
            | nil =>
                rw [isRest] at first
                cases first
            | cons c more =>
                rw [isRest] at first ends
                rw [← Option.some.inj first] at indicator
                rw [headerEnds_indicator indicator] at ends
                cases ends
          rw [isHeaderIndicator, isChomping, Bool.or_eq_false_iff, Bool.or_eq_false_iff] at other
          have notDigit : (decide (0x31 ≤ s.peek) && decide (s.peek ≤ 0x39)) = false := other.2
          rw [other.1.1, other.1.2, notDigit]
          split <;> rfl

/-- A valid header is read to its end. -/
theorem blockHeader_known (reads : s.Reads text) (isRest : s.rest = indicators ++ tail)
    (known : HeaderIndicators indicators) (ends : headerEnds tail = true) :
    s.blockHeader 2 .clip 0 =
      (s.advanceCols indicators.length, chompOf indicators, digitOf indicators) := by
  -- what one indicator after the other makes of the defaults
  have one {c : UInt8} (first : isHeaderIndicator c = true) (isRest : s.rest = c :: tail) :
      s.blockHeader 2 .clip 0 = (s.advanceCols 1,
        (if c == dash then .strip else if c == plus then .keep else .clip),
        if isIndentDigit c then c.toNat - 0x30 else 0) := by
    obtain ⟨reads1, isRest1, read⟩ := blockHeader_indicator reads 1 0 .clip isRest first
    rw [read, blockHeader_halt reads1 _ _ _ (isRest1 ▸ ends)]
  have two {c d : UInt8} (first : isHeaderIndicator c = true) (second : isHeaderIndicator d = true)
      (isRest : s.rest = c :: d :: tail) :
      s.blockHeader 2 .clip 0 = (s.advanceCols 2,
        (if d == dash then .strip else if d == plus then .keep else
          if c == dash then .strip else if c == plus then .keep else .clip),
        if isIndentDigit d then d.toNat - 0x30 else if isIndentDigit c then c.toNat - 0x30 else 0) := by
    obtain ⟨reads1, isRest1, read⟩ := blockHeader_indicator reads 1 0 .clip isRest first
    obtain ⟨reads2, isRest2, read'⟩ := blockHeader_indicator reads1 0 _ _ isRest1 second
    rw [read, read', advanceCols_add]
    rfl
  have apart : plus ≠ dash := by decide
  have noDash : isIndentDigit dash = false := rfl
  have noPlus : isIndentDigit plus = false := rfl
  cases known with
  | none => exact blockHeader_halt reads 2 0 .clip (isRest ▸ ends)
  | chomping chomping =>
      rw [one (isHeaderIndicator_iff.mpr (.inl chomping)) isRest]
      rw [isChomping, Bool.or_eq_true, beq_iff_eq, beq_iff_eq] at chomping
      rcases chomping with rfl | rfl <;> rfl
  | digit digit =>
      obtain ⟨notDash, notPlus⟩ := indentDigit_apart digit
      rw [one (isHeaderIndicator_iff.mpr (.inr digit)) isRest]
      simp [chompOf, digitOf, digit, notDash, notPlus, notDash.symm, notPlus.symm]
  | chompingDigit chomping digit =>
      obtain ⟨notDash, notPlus⟩ := indentDigit_apart digit
      rw [two (isHeaderIndicator_iff.mpr (.inl chomping)) (isHeaderIndicator_iff.mpr (.inr digit))
        isRest]
      rw [isChomping, Bool.or_eq_true, beq_iff_eq, beq_iff_eq] at chomping
      rcases chomping with rfl | rfl <;>
        simp [chompOf, digitOf, digit, notDash, notPlus, notDash.symm, apart, apart.symm, noDash,
          noPlus]
  | digitChomping digit chomping =>
      obtain ⟨notDash, notPlus⟩ := indentDigit_apart digit
      rw [two (isHeaderIndicator_iff.mpr (.inr digit)) (isHeaderIndicator_iff.mpr (.inl chomping))
        isRest, chomping_not_digit chomping]
      rw [isChomping, Bool.or_eq_true, beq_iff_eq, beq_iff_eq] at chomping
      rcases chomping with rfl | rfl <;>
        simp [chompOf, digitOf, digit, notDash.symm, apart, apart.symm]

theorem skipBreak_line (reads : s.Reads text) (isEnd : s.pos = lineEnd text pos) :
    s.skipBreak.Reads text ∧ s.skipBreak.pos = nextLine text pos := by
  have crossed := crossBreak_line reads isEnd
  rcases lineEnd_stops text pos with outside | isBr
  · have ended : s.len ≤ s.pos := by rw [reads.len, isEnd]; exact outside
    rw [Scanner.skipBreak, if_pos ended]
    exact ⟨reads, isEnd.trans (nextLine_end outside).symm⟩
  · have inside : s.atEnd = false := by
      rw [Bool.eq_false_iff, ne_eq, reads.atEnd_iff, Nat.not_le, isEnd]
      exact lt_length_of_isBreak isBr
    rw [inside, reads.peek_eq, isEnd, isBr] at crossed
    exact crossed

theorem skipBreak_indent (s : Scanner) : s.skipBreak.indent = s.indent := by
  rw [Scanner.skipBreak]
  split
  · rfl
  split
  · split <;> rfl
  split <;> rfl

/-- A valid header is scanned to the end of its line. -/
theorem scanBlockHeader_known (reads : s.Reads text) (inside : s.pos < text.length)
    (plain : isBreak s.peek = false) (isRest : text.drop (s.pos + 1) = indicators ++ tail)
    (known : HeaderIndicators indicators) (ends : headerEnds tail = true) :
    ∃ q, scanBlockHeader s = .ok (chompOf indicators, digitOf indicators) q ∧ q.Reads text ∧
      q.indent = s.indent ∧ q.pos = nextLine text (s.pos + 1 + indicators.length) := by
  have open' : s.atEnd = false := by
    rw [Bool.eq_false_iff, ne_eq, reads.atEnd_iff, Nat.not_le]
    exact inside
  have first : (s.advanceCols 1).Reads text := reads.advanceCols inside
  have isRest1 : (s.advanceCols 1).rest = indicators ++ tail := first.rest_eq.trans isRest
  have size := congrArg List.length isRest
  rw [List.length_drop, List.length_append] at size
  have second : ((s.advanceCols 1).advanceCols indicators.length).Reads text :=
    first.advanceCols (by change s.pos + 1 + indicators.length ≤ text.length; omega)
  have isTail : ((s.advanceCols 1).advanceCols indicators.length).rest = tail := by
    rw [Scanner.rest_advanceCols, isRest1, List.drop_left]
  rw [scanBlockHeader, get_bind_eq, Moves.advance_plain reads open' plain,
    blockHeader_known first isRest1 known ends]
  dsimp only
  rw [← isTail, headerEnds_eq second] at ends
  have isPos : ((s.advanceCols 1).advanceCols indicators.length).pos =
    s.pos + 1 + indicators.length := rfl
  have isIndent : ((s.advanceCols 1).advanceCols indicators.length).indent = s.indent := rfl
  rw [← isPos, ← isIndent]
  generalize (s.advanceCols 1).advanceCols indicators.length = p at second ends
  have third : (p.advanceCols (skipBlanks p.rest)).Reads text :=
    second.advanceCols (second.run_within isBlank)
  -- the line ends after the blanks, or after a comment that follows them
  have isEnd : p.pos + skipBlanks p.rest +
      scanToBreak (p.advanceCols (skipBlanks p.rest)).rest = lineEnd text p.pos := by
    have parts := runLength_add (fun c => !isBreak c) p.rest (k := skipBlanks p.rest)
      (fun i below => by
        have blank := runLength_all isBlank p.rest below
        rw [isBlank, Bool.or_eq_true, beq_iff_eq, beq_iff_eq] at blank
        rcases blank with isByte | isByte <;> rw [isByte] <;> rfl) (runLength_le _ _)
    rw [lineEnd, ← second.rest_eq, Scanner.rest_advanceCols]
    unfold scanToBreak
    omega
  have isIndent1 : (p.advanceCols (skipBlanks p.rest)).indent = p.indent := rfl
  have isPos1 : (p.advanceCols (skipBlanks p.rest)).pos = p.pos + skipBlanks p.rest := rfl
  rw [← isIndent1]
  rw [← isPos1] at isEnd
  generalize p.advanceCols (skipBlanks p.rest) = q at *
  generalize skipBlanks p.rest = blanks at *
  -- from the end of the line the header's break is crossed
  have finish {r : Scanner} (reads : r.Reads text) (isStop : r.pos = lineEnd text p.pos)
      (isIndent : r.indent = q.indent) :
      (!r.atEnd && !isBreak r.peek) = false ∧ r.skipBreak.Reads text ∧
        r.skipBreak.indent = q.indent ∧ r.skipBreak.pos = nextLine text p.pos := by
    obtain ⟨reads', isNext⟩ := skipBreak_line reads isStop
    refine ⟨?_, reads', (skipBreak_indent r).trans isIndent, isNext⟩
    rw [reads.peek_eq]
    rcases lineEnd_stops text p.pos with outside | isBr
    · rw [reads.atEnd_iff.mpr (isStop ▸ outside)]
      rfl
    · rw [isStop, isBr]
      exact Bool.and_false _
  have attached : (!q.atEnd && q.peek == hash && blanks == 0) = false := by
    cases ended : q.atEnd with
    | true => rfl
    | false =>
        rw [ended, Bool.false_or, Bool.or_eq_true, Bool.and_eq_true] at ends
        rcases ends with isBr | ⟨_, some'⟩
        · rw [isBreak, Bool.or_eq_true, beq_iff_eq, beq_iff_eq] at isBr
          rcases isBr with isByte | isByte <;> rw [isByte] <;> rfl
        · have apart : (blanks == 0) = false := by simpa using some'
          rw [apart, Bool.and_false]
  have lineEnds : ∃ r, (if !q.atEnd && q.peek == hash then q.advanceCols
      (scanToBreak q.rest) else q) = r ∧
      r.Reads text ∧ r.pos = lineEnd text p.pos ∧ r.indent = q.indent := by
    by_cases comment : (!q.atEnd && q.peek == hash) = true
    · rw [if_pos comment]
      exact ⟨_, rfl, third.advanceCols (third.run_within fun c => !isBreak c), isEnd, rfl⟩
    · rw [if_neg comment]
      refine ⟨q, rfl, third, ?_, rfl⟩
      have none : scanToBreak q.rest = 0 := by
        cases ended : q.atEnd with
        | true =>
            rw [rest_atEnd third ended]
            rfl
        | false =>
            rw [ended, Bool.not_false, Bool.true_and] at comment
            rw [ended, Bool.false_or, Bool.eq_false_iff.mpr comment, Bool.false_and,
              Bool.or_false] at ends
            obtain ⟨more, isMore⟩ := List.head?_eq_some_iff.mp (head_rest third ended)
            rw [isMore, scanToBreak, runLength, ends]
            rfl
      rw [← isEnd, none]
      rfl
  obtain ⟨r, isNext, reads', isStop, isIndent⟩ := lineEnds
  obtain ⟨stops, ready⟩ := finish reads' isStop isIndent
  rw [run_bind, run_set]
  dsimp only
  rw [attached, if_neg Bool.false_ne_true, isNext, run_bind, run_set]
  dsimp only
  rw [stops, if_neg Bool.false_ne_true, run_bind, run_set]
  exact ⟨_, rfl, ready⟩

/-! ### The lines -/

theorem blockText_copied (style : ScalarStyle) (base : Nat) (lines : List Bytes) :
    (if style == .folded && !(lines.map fun line => BlockLine.of (line.drop base)).isEmpty then
      foldLines (lines.map fun line => BlockLine.of (line.drop base)).length
        (lines.map fun line => .of (line.drop base))
    else literalText base lines) = blockText style (lines.map (·.drop base)) := by
  have folds := foldLines_eq lines.length (lines.map (·.drop base)) (by rw [List.length_map])
  rw [List.map_map] at folds
  rw [blockText, List.length_map]
  by_cases folded : (style == .folded) = true
  · rw [if_pos folded, folded, Bool.true_and]
    cases lines with
    | nil => rfl
    | cons line lines => exact folds
  · rw [if_neg folded, Bool.eq_false_iff.mpr folded, Bool.false_and, if_neg Bool.false_ne_true,
      literalText, List.flatMap_map]

/-- The lines of a block scalar are read up to the first that is no content. -/
theorem scanBlockLines_eq (reads : s.Reads text) (style : ScalarStyle) (start : Mark)
    (chomp : Chomp)
    (leads : LinesTo text s.pos lines stop)
    (content : ∀ line ∈ lines, isContentLine base line = true)
    (ends : stop < text.length → isContentLine base (firstLine (text.drop stop)) = false) :
    (isTabLine base (firstLine (text.drop stop)) = false →
      ∃ q, scanBlockLines style start chomp base s =
        .ok (tokScalar (chompBlock chomp (blockText style (lines.map (·.drop base)))) style start
          q.mark) q ∧ q.Reads text ∧ q.pos = stop) ∧
    (isTabLine base (firstLine (text.drop stop)) = true →
      ∃ q, scanBlockLines style start chomp base s = .error .scan q) := by
  have within := leads.length_le reads.inside
  have enough : lines.length < s.remaining + 1 := by
    rw [Scanner.remaining, reads.len]
    omega
  have measured := measureBlock_lines reads 0 reads.inside leads content ends enough
  obtain ⟨q, copied, reads', isStop⟩ := copyBlock_lines [] [] reads leads rfl content enough
  rw [scanBlockLines, get_bind_eq, measured]
  constructor
  · intro clear
    rw [clear, if_neg Bool.false_ne_true]
    dsimp only
    rw [copied]
    dsimp only
    rw [run_bind, run_set, List.nil_append, List.nil_append]
    dsimp only
    rw [blockText_copied]
    exact ⟨q, rfl, reads', isStop⟩
  · intro tabbed
    rw [tabbed, if_pos rfl]
    exact ⟨_, rfl⟩

/-! ### The whole scalar -/

/-- A block scalar is read from its lines, unless a tab or an empty line stands where the
content is indented. -/
theorem scanBlockScalar_lines (reads : s.Reads text) (inside : s.pos < text.length)
    (plain : isBreak s.peek = false) (isRest : text.drop (s.pos + 1) = indicators ++ tail)
    (known : HeaderIndicators indicators) (ends : headerEnds tail = true) (start : Mark)
    (isStart : pos = nextLine text (s.pos + 1 + indicators.length))
    (isBase : base = contentIndent s.indent (digitOf indicators) (textLines (text.drop pos)))
    (leads : LinesTo text pos lines stop)
    (content : ∀ line ∈ lines, isContentLine base line = true)
    (stops : stop < text.length → isContentLine base (firstLine (text.drop stop)) = false) :
    (tooDeep s.indent (digitOf indicators) (textLines (text.drop pos)) = false →
      isTabLine base (firstLine (text.drop stop)) = false →
      ∃ q, scanBlockScalar start s =
        .ok (tokScalar (chompBlock (chompOf indicators)
          (blockText s.blockStyle (lines.map (·.drop base)))) s.blockStyle start q.mark) q ∧
        q.Reads text ∧ q.pos = stop) ∧
    (tooDeep s.indent (digitOf indicators) (textLines (text.drop pos)) = true ∨
      isTabLine base (firstLine (text.drop stop)) = true →
      ∃ q, scanBlockScalar start s = .error .scan q) := by
  obtain ⟨q, header, reads', isIndent, isPos⟩ :=
    scanBlockHeader_known reads inside plain isRest known ends
  have based := blockBase_eq reads' (digitOf indicators)
  have isRest' : q.rest = text.drop pos := by rw [reads'.rest_eq, isPos, isStart]
  rw [isIndent, isRest'] at based
  have read := scanBlockLines_eq reads' s.blockStyle start (chompOf indicators)
    (isPos.trans isStart.symm ▸ leads) content stops
  rw [scanBlockScalar_eq, get_bind_eq, run_bind_ok header]
  dsimp only
  constructor
  · intro shallow clear
    rw [shallow, if_neg Bool.false_ne_true, ← isBase] at based
    rw [run_bind_ok based]
    exact read.1 clear
  · intro bad
    cases deep : tooDeep s.indent (digitOf indicators) (textLines (text.drop pos)) with
    | true =>
        rw [deep, if_pos rfl] at based
        rw [run_bind, based]
        exact ⟨_, rfl⟩
    | false =>
        rw [deep, if_neg Bool.false_ne_true, ← isBase] at based
        rw [run_bind_ok based]
        exact read.2 (bad.resolve_left (by rw [deep]; exact Bool.false_ne_true))

/-- What a block scalar with a valid header is read to. -/
theorem blockScalar_decodes (reads : s.Reads text) (isBlock : s.peek = pipe ∨ s.peek = greater)
    (block : s.flowLevel = 0) (isRest : s.following = indicators ++ tail)
    (known : HeaderIndicators indicators) (ends : headerEnds tail = true)
    (accepted : scanAtToken s = .ok tok s') :
    tok.type = .scalar ∧ tok.scalarStyle = s.blockStyle ∧
      Chomped (chompOf indicators)
        (blockText s.blockStyle
          (blockContent s.atScalar.indent (digitOf indicators) (textLines tail).tail)) tok.value ∧
      textLines s'.rest = (textLines tail).tail.dropWhile
        (isContentLine (contentIndent s.atScalar.indent (digitOf indicators)
          (textLines tail).tail)) := by
  have alike := s.atScalar_alike
  have reads' : s.atScalar.Reads text := (alike.moves reads : Moves text anyLine noEscape _ _).reads
  have plain : isBreak s.atScalar.peek = false := by
    rw [alike.peek]
    rcases isBlock with isByte | isByte <;> rw [isByte] <;> rfl
  have inside : s.atScalar.pos < text.length := by
    by_contra outside
    rw [alike.pos] at outside
    rw [reads.peek_eq, byteAt_outside (Nat.not_lt.mp outside)] at isBlock
    rcases isBlock with impossible | impossible <;> cases impossible
  rw [Scanner.following, reads.buf, ← alike.pos] at isRest
  have isLines : textLines (text.drop (nextLine text (s.atScalar.pos + 1 + indicators.length))) =
      (textLines tail).tail := textLines_next (by
    rw [← List.drop_drop, isRest, List.drop_left])
  have within : nextLine text (s.atScalar.pos + 1 + indicators.length) ≤ text.length := by
    have size := congrArg List.length isRest
    rw [List.length_drop, List.length_append] at size
    exact nextLine_le (by omega)
  obtain ⟨stop, leads, stops⟩ := exists_linesTo
    (isContentLine (contentIndent s.atScalar.indent (digitOf indicators)
      (textLines tail).tail)) within
  have read := scanBlockScalar_lines reads' inside plain isRest known ends s.mark rfl
    (by rw [isLines]) leads (fun line member => List.mem_takeWhile_imp member) stops
  have sameStyle : s.atScalar.blockStyle = s.blockStyle := by
    rw [Scanner.blockStyle, alike.peek, ← Scanner.blockStyle]
  rw [scanAtToken_block isBlock block] at accepted
  rw [isLines, sameStyle] at read
  have fine := read.2.mt (by
    rintro ⟨q, failed⟩
    rw [failed] at accepted
    cases accepted)
  rw [not_or, Bool.not_eq_true, Bool.not_eq_true] at fine
  obtain ⟨q, ok, reads'', isStop⟩ := read.1 fine.1 fine.2
  rw [ok] at accepted
  cases accepted
  refine ⟨rfl, rfl, chompBlock_chomped _ _, ?_⟩
  have whole := leads.append
  rw [isLines, ← isStop, ← reads''.rest_eq] at whole
  conv_lhs at whole => rw [← List.takeWhile_append_dropWhile
    (p := isContentLine (contentIndent s.atScalar.indent (digitOf indicators)
      (textLines tail).tail))
    (l := (textLines tail).tail)]
  exact (List.append_cancel_left whole).symm

end

/-- `>-`, with the lines `a` and `b`. -/
theorem blockScalar_decodes_folded :
    ∃ tok s', scanAtToken (Scanner.new [greater, dash, lf, space, 0x61, lf, space, 0x62, lf]) =
        .ok tok s' ∧
      Chomped .strip (blockText .folded (blockContent (-1) 0 [[space, 0x61], [space, 0x62]]))
        tok.value := by
  obtain ⟨tok, s', ok⟩ : ∃ tok s',
      scanAtToken (Scanner.new [greater, dash, lf, space, 0x61, lf, space, 0x62, lf]) =
        .ok tok s' :=
    ⟨_, _, rfl⟩
  have isRest : (Scanner.new [greater, dash, lf, space, 0x61, lf, space, 0x62, lf]).following =
      [dash] ++ [lf, space, 0x61, lf, space, 0x62, lf] := rfl
  have decoded := blockScalar_decodes (Scanner.new_between _).reads (.inr rfl) rfl isRest
    (.chomping rfl) rfl ok
  exact ⟨tok, s', ok, decoded.2.2.1⟩

end Oyl
