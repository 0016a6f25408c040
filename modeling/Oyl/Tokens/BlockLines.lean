import Oyl.Tokens.Names
import Oyl.Tokens.TextLines
import Mathlib.Data.List.GetD

/-!
# The lines of a block scalar

Measuring and copying go over the same lines of the text, those that belong to the content
of the block scalar, and stop at the first line that does not.
-/

namespace Oyl

/-- The spaces that a line starts with. -/
def indentation (line : Bytes) : Nat := runLength (· == space) line

/-- A line of spaces, or of nothing. -/
def isEmptyLine (line : Bytes) : Bool := line.all (· == space)

/-- `---` or `...`, then a blank or the end of the line. -/
def isMarkerLine : Bytes → Bool
  | a :: b :: c :: rest => (a == dash || a == dot) && b == a && c == a && rest.head?.all isBlank
  | _ => false

/-- A line of the content that is indented by `base` spaces. -/
def isContentLine (base : Nat) (line : Bytes) : Bool :=
  isEmptyLine line || !isMarkerLine line && base ≤ indentation line

/-- A line of blanks that has a tab where it should be indented. -/
def isTabLine (base : Nat) (line : Bytes) : Bool :=
  line.all isBlank && !isEmptyLine line && indentation line < base

/-- Lines without their indentation, each with a line feed. -/
def literalText (base : Nat) (lines : List Bytes) : Bytes :=
  lines.flatMap fun line => line.drop base ++ [lf]

/-- What folding has to know of a line. -/
def BlockLine.of (content : Bytes) : BlockLine :=
  ⟨content, content.isEmpty, content.head?.any isBlank⟩

section

variable {text line : Bytes} {lines : List Bytes} {s s' : Scanner} {base pos stop k : Nat}

/-! ### A line at a position -/

theorem byteAt_line {i : Nat} (below : i < (firstLine (text.drop pos)).length) :
    byteAt text (pos + i) = (firstLine (text.drop pos)).getD i 0 := by
  rw [← getD_drop]
  conv_lhs => rw [firstLine_append]
  exact List.getD_append _ _ _ _ below

theorem drop_line (within : k ≤ (firstLine (text.drop pos)).length) :
    text.drop (pos + k) = (firstLine (text.drop pos)).drop k ++ text.drop (lineEnd text pos) := by
  rw [← List.drop_drop]
  conv_lhs => rw [firstLine_append text pos]
  exact List.drop_append_of_le_length within

/-- What follows a line starts with a break. -/
theorem lineEnd_head (text : Bytes) (pos : Nat) :
    (text.drop (lineEnd text pos)).head?.all isBreak = true := by
  rcases lineEnd_stops text pos with outside | isBr
  · rw [List.drop_eq_nil_of_le outside]
    rfl
  · rw [drop_eq_cons (lt_length_of_isBreak isBr), List.head?_cons, Option.all_some, isBr]

/-- A run of bytes that are no breaks ends with its line. -/
theorem runLength_line {p : UInt8 → Bool} (plain : ∀ c, isBreak c = true → p c = false)
    (within : k ≤ (firstLine (text.drop pos)).length) :
    runLength p (text.drop (pos + k)) = runLength p ((firstLine (text.drop pos)).drop k) := by
  rw [drop_line within]
  obtain ⟨run, rest, isLine, all, halts⟩ := exists_run p ((firstLine (text.drop pos)).drop k)
  rw [isLine, List.append_assoc, runLength_run all halts]
  apply runLength_run all
  intro c isHead
  cases rest with
  | nil =>
      have ends := lineEnd_head text pos
      rw [List.nil_append] at isHead
      rw [Option.mem_def.mp isHead, Option.all_some] at ends
      exact plain c ends
  | cons d rest =>
      cases isHead
      exact halts _ rfl

theorem scanToBreak_line (within : k ≤ (firstLine (text.drop pos)).length) :
    scanToBreak (text.drop (pos + k)) = ((firstLine (text.drop pos)).drop k).length := by
  rw [scanToBreak, runLength_line (fun c isBr => by rw [isBr]; rfl) within]
  apply runLength_whole
  intro c member
  rw [firstLine_plain c (List.mem_of_mem_drop member)]
  rfl

theorem spacesAt_line (reads : s.Reads text) :
    s.spacesAt pos = indentation (firstLine (text.drop pos)) := by
  have plain : ∀ c, isBreak c = true → (c == space) = false := by
    intro c isBr
    rw [isBreak, Bool.or_eq_true, beq_iff_eq, beq_iff_eq] at isBr
    rcases isBr with rfl | rfl <;> rfl
  have same := runLength_line plain (Nat.zero_le (firstLine (text.drop pos)).length)
  rw [Nat.add_zero, List.drop_zero] at same
  rw [Scanner.spacesAt, reads.buf, same, indentation]

theorem indentation_le (line : Bytes) : indentation line ≤ line.length := runLength_le _ line

theorem indentation_empty (isEmpty : isEmptyLine line = true) : indentation line = line.length :=
  runLength_whole (List.all_eq_true.mp isEmpty)

/-- The first byte after the spaces of a line. -/
theorem indentation_lt (notEmpty : isEmptyLine line = false) :
    indentation line < line.length ∧ line.getD (indentation line) 0 ≠ space := by
  have short : indentation line < line.length := by
    apply Nat.lt_of_le_of_ne (indentation_le line)
    intro whole
    rw [isEmptyLine, List.all_eq_false] at notEmpty
    obtain ⟨c, member, other⟩ := notEmpty
    obtain ⟨i, below, isByte⟩ := List.getElem_of_mem member
    have isSpace := runLength_all (· == space) line (i := i)
        (by rw [← indentation, whole]; exact below)
    rw [List.getD_eq_getElem _ _ below, isByte] at isSpace
    exact other isSpace
  have stops := runLength_next (· == space) line short
  exact ⟨short, ne_of_beq_false stops⟩

/-- Blanks that are not only spaces have a tab after the spaces. -/
theorem all_blank_eq (notEmpty : isEmptyLine line = false) :
    line.all isBlank =
      (line.getD (indentation line) 0 == tab && (line.drop (indentation line)).all isBlank) := by
  obtain ⟨run, rest, rfl, spaces, halts⟩ := exists_run (· == space) line
  rcases rest with _ | ⟨c, rest⟩
  · rw [List.append_nil, isEmptyLine, List.all_eq_true.mpr spaces] at notEmpty
    cases notEmpty
  have blanks : run.all isBlank = true := List.all_eq_true.mpr fun d member => by
    rw [beq_iff_eq.mp (spaces d member)]
    rfl
  rw [indentation, runLength_run spaces halts, List.getD_append_right _ _ _ _ (Nat.le_refl _),
    Nat.sub_self, List.getD_cons_zero, List.drop_left, List.all_append, blanks, Bool.true_and,
    List.all_cons, isBlank, show (c == space) = false from halts c rfl, Bool.false_or,
    ← Bool.and_assoc, Bool.and_self]

theorem isMarkerLine_first (isMarker : isMarkerLine line = true) :
    indentation line = 0 ∧ (line.getD (indentation line) 0 == tab) = false := by
  rcases line with _ | ⟨a, _ | ⟨b, _ | ⟨c, rest⟩⟩⟩
  · cases isMarker
  · cases isMarker
  · cases isMarker
  simp only [isMarkerLine, Bool.and_eq_true, Bool.or_eq_true, beq_iff_eq] at isMarker
  rcases isMarker.1.1.1 with rfl | rfl <;> exact ⟨rfl, rfl⟩

theorem isMarkerLine_empty (isEmpty : isEmptyLine line = true) : isMarkerLine line = false := by
  rw [Bool.eq_false_iff]
  intro isMarker
  have none := (isMarkerLine_first isMarker).1
  rw [indentation_empty isEmpty, List.length_eq_zero_iff] at none
  rw [none] at isMarker
  cases isMarker

/-- A line of spaces ends where its spaces do. -/
theorem isEmptyLine_iff (inside : pos ≤ text.length) :
    isEmptyLine (firstLine (text.drop pos)) = true ↔
      text.length ≤ pos + indentation (firstLine (text.drop pos)) ∨
        isBreak (byteAt text (pos + indentation (firstLine (text.drop pos)))) = true := by
  cases isEmpty : isEmptyLine (firstLine (text.drop pos)) with
  | true =>
      rw [indentation_empty isEmpty, ← firstLine_length]
      exact ⟨fun _ => lineEnd_stops _ _, fun _ => rfl⟩
  | false =>
      obtain ⟨short, _⟩ := indentation_lt isEmpty
      have within := lineEnd_le inside
      rw [firstLine_length] at within
      refine ⟨fun impossible => (by cases impossible), ?_⟩
      rintro (outside | isBr)
      · omega
      · rw [byteAt_line short, List.getD_eq_getElem _ _ short,
          firstLine_plain _ (List.getElem_mem short)] at isBr
        cases isBr

/-- A marker has no break in it. -/
theorem markerAt_short {i : Nat} (early : i < 3) (isEnd : lineEnd text pos = pos + i) :
    markerAt text pos = false := by
  rw [Bool.eq_false_iff]
  intro isMarker
  simp only [markerAt, Bool.and_eq_true, Bool.or_eq_true, beq_iff_eq] at isMarker
  have isMark : byteAt text (lineEnd text pos) = dash ∨ byteAt text (lineEnd text pos) = dot := by
    rw [isEnd]
    obtain rfl | rfl | rfl : i = 0 ∨ i = 1 ∨ i = 2 := by omega
    · exact isMarker.1.1.1
    · rw [isMarker.1.1.2]
      exact isMarker.1.1.1
    · rw [isMarker.1.2]
      exact isMarker.1.1.1
  rcases lineEnd_stops text pos with outside | isBr
  · rw [byteAt_outside outside] at isMark
    rcases isMark with impossible | impossible <;> cases impossible
  · rcases isMark with isMark | isMark <;> rw [isMark] at isBr <;> cases isBr

theorem markerAt_line : markerAt text pos = isMarkerLine (firstLine (text.drop pos)) := by
  have isEnd := firstLine_length text pos
  have byte {i : Nat} (below : i < (firstLine (text.drop pos)).length) := byteAt_line below
  have plain : ∀ c ∈ firstLine (text.drop pos), isBreak c = false := firstLine_plain
  have within : (firstLine (text.drop pos)).length ≤ text.length - pos := by
    rw [firstLine, List.length_take, List.length_drop]
    exact Nat.min_le_right _ _
  generalize firstLine (text.drop pos) = line at isEnd byte plain within
  rcases line with _ | ⟨a, _ | ⟨b, _ | ⟨c, rest⟩⟩⟩
  · exact markerAt_short (Nat.zero_lt_succ 2) isEnd
  · exact markerAt_short (Nat.one_lt_succ_succ 1) isEnd
  · exact markerAt_short (Nat.lt_succ_self 2) isEnd
  have first := byte (i := 0) (by simp)
  have second := byte (i := 1) (by simp)
  have third := byte (i := 2) (by simp)
  rw [Nat.add_zero] at first
  rw [markerAt, isMarkerLine, first, second, third]
  congr 1
  rw [List.length_cons, List.length_cons, List.length_cons] at isEnd
  rcases rest with _ | ⟨d, rest⟩
  · -- the marker ends its line
    rw [List.head?_nil, Option.all_none, Bool.or_eq_true, beq_iff_eq, isBlankOrBreak,
      Bool.or_eq_true]
    rcases lineEnd_stops text pos with outside | isBr
    · simp only [List.length_cons, List.length_nil] at isEnd within
      exact .inl (by omega)
    · exact .inr (.inr (isEnd ▸ isBr))
  · have fourth := byte (i := 3) (by simp)
    have notBreak := plain d (by simp)
    have more : text.length ≠ pos + 3 := by
      simp only [List.length_cons] at within
      omega
    have isByte : byteAt text (pos + 3) = d := fourth
    rw [beq_false_of_ne more, isByte, isBlankOrBreak, notBreak, Bool.false_or, Bool.or_false]
    rfl

/-- Blanks end with their line if there is nothing else left of it. -/
theorem skipBlanks_line (inside : pos ≤ text.length)
    (within : k ≤ (firstLine (text.drop pos)).length) :
    (decide (text.length ≤ pos + k + skipBlanks (text.drop (pos + k))) ||
      isBreak (byteAt text (pos + k + skipBlanks (text.drop (pos + k))))) =
        ((firstLine (text.drop pos)).drop k).all isBlank := by
  have isRun : skipBlanks (text.drop (pos + k)) =
      runLength isBlank ((firstLine (text.drop pos)).drop k) :=
    runLength_line (fun c isBr => by
      rw [isBreak, Bool.or_eq_true, beq_iff_eq, beq_iff_eq] at isBr
      rcases isBr with rfl | rfl <;> rfl) within
  have isEnd := firstLine_length text pos
  have short := lineEnd_le inside
  rw [isRun]
  obtain ⟨run, rest, isLine, all, halts⟩ := exists_run isBlank ((firstLine (text.drop pos)).drop k)
  have size := congrArg List.length isLine
  rw [List.length_drop, List.length_append] at size
  rw [isLine, runLength_run all halts, List.all_append, List.all_eq_true.mpr all, Bool.true_and]
  rcases rest with _ | ⟨c, rest⟩
  · have stop : pos + k + run.length = lineEnd text pos := by
      rw [List.length_nil] at size
      omega
    rw [stop, List.all_nil, Bool.or_eq_true, decide_eq_true_eq]
    exact lineEnd_stops _ _
  · rw [List.length_cons] at size
    have isByte : byteAt text (pos + (k + run.length)) = c := by
      have at' : k + run.length < (firstLine (text.drop pos)).length := by omega
      have isNext := getD_drop (firstLine (text.drop pos)) k run.length
      rw [byteAt_line at']
      rw [isLine, List.getD_append_right _ _ _ _ (Nat.le_refl _), Nat.sub_self] at isNext
      exact isNext.symm
    have member : c ∈ firstLine (text.drop pos) :=
      List.mem_of_mem_drop (isLine ▸ List.mem_append_right _ List.mem_cons_self)
    rw [List.all_cons, halts c rfl, Nat.add_assoc, isByte, firstLine_plain c member, Bool.or_false,
      Bool.false_and, decide_eq_false_iff_not]
    omega

/-! ### Measuring -/

theorem measureBlock_end (reads : s.Reads text) (fuel needed : Nat) (outside : text.length ≤ pos) :
    s.measureBlock base fuel pos needed = some (pos, needed) := by
  cases fuel with
  | zero => rfl
  | succ fuel => rw [Scanner.measureBlock, reads.len, if_pos outside]

/-- A line of the content is measured with its break. -/
theorem measureBlock_line (reads : s.Reads text) (fuel needed : Nat) (inside : pos < text.length)
    (content : isContentLine base (firstLine (text.drop pos)) = true) :
    s.measureBlock base (fuel + 1) pos needed =
      s.measureBlock base fuel (nextLine text pos)
        (needed + (literalText base [firstLine (text.drop pos)]).length) := by
  have size : (literalText base [firstLine (text.drop pos)]).length =
      (firstLine (text.drop pos)).length - base + 1 := by
    rw [literalText, List.flatMap_singleton, List.length_append, List.length_drop,
      List.length_singleton]
  have isEnd := firstLine_length text pos
  rw [size, Scanner.measureBlock, reads.len, if_neg (Nat.not_le.mpr inside)]
  dsimp only
  rw [spacesAt_line reads, reads.byte_eq, reads.isDocIndicatorAt_eq, markerAt_line]
  cases isEmpty : isEmptyLine (firstLine (text.drop pos)) with
  | true =>
      rw [indentation_empty isEmpty, ← isEnd]
      rcases lineEnd_stops text pos with outside | isBr
      · rw [if_pos outside, nextLine_end outside, measureBlock_end reads _ _ outside, Nat.add_assoc]
      · rw [if_neg (Nat.not_le.mpr (lt_length_of_isBreak isBr)), if_pos isBr,
          pastBreak_eq reads isBr, nextLine_break isBr, Nat.add_assoc]
  | false =>
      rw [isContentLine, isEmpty, Bool.false_or, Bool.and_eq_true, Bool.not_eq_true',
        decide_eq_true_eq] at content
      have more := (isEmptyLine_iff (Nat.le_of_lt inside)).not.mp
        (by rw [isEmpty]; exact Bool.false_ne_true)
      rw [not_or] at more
      have deep := Nat.le_trans content.2 (indentation_le _)
      rw [if_neg more.1, if_neg more.2, content.1, Bool.and_false, if_neg Bool.false_ne_true,
        if_neg (Nat.not_lt.mpr content.2), reads.buf, scanToBreak_line deep, List.length_drop]
      have isStop : pos + base + ((firstLine (text.drop pos)).length - base) =
          lineEnd text pos := by
        omega
      rw [isStop, Nat.add_assoc]
      congr 1
      rcases lineEnd_stops text pos with outside | isBr
      · rw [pastBreak_end reads outside, nextLine_end outside]
      · rw [pastBreak_eq reads isBr, nextLine_break isBr]

/-- Measuring stops before a line that is no content. -/
theorem measureBlock_stop (reads : s.Reads text) (fuel needed : Nat) (inside : pos < text.length)
    (other : isContentLine base (firstLine (text.drop pos)) = false) :
    s.measureBlock base (fuel + 1) pos needed =
      if isTabLine base (firstLine (text.drop pos)) then none else some (pos, needed) := by
  rw [isContentLine, Bool.or_eq_false_iff] at other
  obtain ⟨notEmpty, other⟩ := other
  have more := (isEmptyLine_iff (Nat.le_of_lt inside)).not.mp
    (by rw [notEmpty]; exact Bool.false_ne_true)
  rw [not_or] at more
  obtain ⟨short, notSpace⟩ := indentation_lt notEmpty
  rw [Scanner.measureBlock, reads.len, if_neg (Nat.not_le.mpr inside)]
  dsimp only
  rw [spacesAt_line reads, reads.byte_eq, reads.byte_eq, reads.isDocIndicatorAt_eq, markerAt_line,
    if_neg more.1, if_neg more.2, isTabLine, notEmpty, Bool.not_false, Bool.and_true, reads.buf,
    skipBlanks_line (Nat.le_of_lt inside) (Nat.le_of_lt short), byteAt_line short,
      all_blank_eq notEmpty]
  cases isMarker : isMarkerLine (firstLine (text.drop pos)) with
  | true =>
      obtain ⟨none, notTab⟩ := isMarkerLine_first isMarker
      rw [notTab, none]
      rfl
  | false =>
      rw [isMarker, Bool.not_false, Bool.true_and, decide_eq_false_iff_not, Nat.not_le] at other
      rw [Bool.and_false, if_neg Bool.false_ne_true, if_pos other, decide_eq_true other,
        Bool.and_true]
      by_cases tabbed : ((firstLine (text.drop pos)).getD
          (indentation (firstLine (text.drop pos))) 0 == tab) = true
      · rw [if_pos tabbed, tabbed, Bool.true_and]
      · rw [if_neg tabbed, Bool.eq_false_iff.mpr tabbed]
        rfl

/-- Measuring goes over the content and stops after it. -/
theorem measureBlock_lines (reads : s.Reads text) {fuel : Nat} (needed : Nat)
    (inside : pos ≤ text.length) (leads : LinesTo text pos lines stop)
    (content : ∀ line ∈ lines, isContentLine base line = true)
    (ends : stop < text.length → isContentLine base (firstLine (text.drop stop)) = false)
    (enough : lines.length < fuel) :
    s.measureBlock base fuel pos needed =
      if isTabLine base (firstLine (text.drop stop)) then none
      else some (stop, needed + (literalText base lines).length) := by
  induction leads generalizing fuel needed with
  | @done pos =>
      by_cases below : pos < text.length
      · obtain ⟨fuel, rfl⟩ := Nat.exists_eq_succ_of_ne_zero (Nat.ne_of_gt enough)
        exact measureBlock_stop reads fuel needed below (ends below)
      · rw [measureBlock_end reads fuel needed (Nat.not_lt.mp below),
          List.drop_eq_nil_of_le (Nat.not_lt.mp below)]
        rfl
  | @line pos stop lines below _ ih =>
      obtain ⟨fuel, rfl⟩ := Nat.exists_eq_succ_of_ne_zero (Nat.ne_of_gt (Nat.zero_lt_of_lt enough))
      rw [measureBlock_line reads fuel needed below (content _ List.mem_cons_self),
        ih _ (nextLine_le inside) (fun line member => content line (List.mem_cons_of_mem _ member))
          ends (Nat.lt_of_succ_lt_succ enough)]
      simp only [literalText, List.flatMap_cons, List.flatMap_nil, List.append_nil,
        List.length_append, Nat.add_assoc]

/-! ### Copying -/

/-- A content line is empty without its indentation only if it is a line of spaces. -/
theorem isContentLine_drop (content : isContentLine base line = true) :
    (line.drop base).isEmpty = (isEmptyLine line && decide (indentation line ≤ base)) := by
  cases isEmpty : isEmptyLine line with
  | true =>
      rw [Bool.true_and, indentation_empty isEmpty, Bool.eq_iff_iff, List.isEmpty_iff,
        List.drop_eq_nil_iff, decide_eq_true_eq]
  | false =>
      rw [isContentLine, isEmpty, Bool.false_or, Bool.and_eq_true, decide_eq_true_eq] at content
      have short := (indentation_lt isEmpty).1
      rw [Bool.false_and, List.isEmpty_eq_false_iff, ne_eq, List.drop_eq_nil_iff]
      omega

theorem drop_spaces (deep : base ≤ indentation line) :
    line.drop base =
      List.replicate (indentation line - base) space ++ line.drop (indentation line) := by
  obtain ⟨run, rest, rfl, spaces, halts⟩ := exists_run (· == space) line
  have isRun : run = List.replicate run.length space :=
    List.eq_replicate_of_mem fun c member => beq_iff_eq.mp (spaces c member)
  rw [indentation, runLength_run spaces halts] at deep ⊢
  rw [List.drop_left, List.drop_append_of_le_length deep]
  conv_lhs => rw [isRun, List.drop_replicate]

/-- From the end of a line the cursor goes to the next one. -/
theorem crossBreak_line (reads : s.Reads text) (isEnd : s.pos = lineEnd text pos) :
    (if !s.atEnd && isBreak s.peek then s.skipBreak else s).Reads text ∧
      (if !s.atEnd && isBreak s.peek then s.skipBreak else s).pos = nextLine text pos := by
  have stops := lineEnd_stops text pos
  rw [← isEnd] at stops
  rcases stops with outside | isBr
  · rw [reads.atEnd_iff.mpr outside]
    exact ⟨reads, isEnd.trans (nextLine_end (isEnd ▸ outside)).symm⟩
  · have inside : s.atEnd = false := by
      rw [Bool.eq_false_iff, ne_eq, reads.atEnd_iff, Nat.not_le]
      exact lt_length_of_isBreak isBr
    rw [inside, reads.peek_eq, isBr, Bool.not_false, Bool.and_self, if_pos rfl,
      nextLine_break (isEnd ▸ isBr), ← isEnd]
    have crossed : Moves text anyLine noEscape s s.skipBreak :=
      .skipBreak reads (reads.peek_eq ▸ isBr) trivial
    refine ⟨crossed.reads, ?_⟩
    rw [Moves.skipBreak_eq reads isBr]

/-- Whether what is copied of a line starts with a blank. -/
theorem startsBlank_line (reads : s.Reads text) (inside : s.pos ≤ text.length)
    (deep : base ≤ indentation (firstLine (text.drop s.pos)))
    (some' : (firstLine (text.drop s.pos)).drop base ≠ []) :
    (decide (indentation (firstLine (text.drop s.pos)) - base > 0) ||
      (!(s.advanceCols (indentation (firstLine (text.drop s.pos)))).atEnd &&
        !isBreak (s.advanceCols (indentation (firstLine (text.drop s.pos)))).peek &&
        isBlank (s.advanceCols (indentation (firstLine (text.drop s.pos)))).peek)) =
      ((firstLine (text.drop s.pos)).drop base).head?.any isBlank := by
  have isEnd := firstLine_length text s.pos
  have reach := lineEnd_le inside
  rcases Nat.lt_or_eq_of_le deep with extra | same
  · rw [drop_spaces deep, decide_eq_true (Nat.sub_pos_of_lt extra), Bool.true_or,
      ← Nat.succ_pred_eq_of_pos (Nat.sub_pos_of_lt extra), List.replicate_succ]
    rfl
  · rw [← same]
    have short : base < (firstLine (text.drop s.pos)).length := by
      rw [ne_eq, List.drop_eq_nil_iff, Nat.not_le] at some'
      exact some'
    have line : (s.advanceCols base).Reads text := reads.advanceCols (by omega)
    have isByte : (s.advanceCols base).peek = (firstLine (text.drop s.pos)).getD base 0 :=
      line.peek_eq.trans (byteAt_line short)
    have open' : (s.advanceCols base).atEnd = false := by
      rw [Bool.eq_false_iff, ne_eq, line.atEnd_iff, Nat.not_le]
      exact (by omega : s.pos + base < text.length)
    have plain := firstLine_plain _ (List.getElem_mem short)
    rw [Nat.sub_self, open', isByte, List.getD_eq_getElem _ _ short, plain,
      List.drop_eq_getElem_cons short, List.head?_cons, Option.any_some]
    rfl

/-- A line of the content is copied without its indentation. -/
theorem copyBlock_line {endPos : Nat} (fuel : Nat) (out : Bytes) (recorded : List BlockLine)
    (reads : s.Reads text) (inside : s.pos < text.length) (within : nextLine text s.pos ≤ endPos)
    (known : endPos ≤ text.length)
    (content : isContentLine base (firstLine (text.drop s.pos)) = true) :
    ∃ q, Scanner.copyBlock base endPos (fuel + 1) s out recorded =
        Scanner.copyBlock base endPos fuel q
          (out ++ literalText base [firstLine (text.drop s.pos)])
          (recorded ++ [.of ((firstLine (text.drop s.pos)).drop base)]) ∧
      q.Reads text ∧ q.pos = nextLine text s.pos := by
  have later := lt_nextLine inside
  have isEnd := firstLine_length text s.pos
  have reach := lineEnd_le (Nat.le_of_lt inside)
  have isLine : (decide (endPos ≤ s.pos + indentation (firstLine (text.drop s.pos))) ||
      decide (s.pos + indentation (firstLine (text.drop s.pos)) < text.length) &&
        isBreak (byteAt text (s.pos + indentation (firstLine (text.drop s.pos))))) =
      isEmptyLine (firstLine (text.drop s.pos)) := by
    rw [Bool.eq_iff_iff, isEmptyLine_iff (Nat.le_of_lt inside), Bool.or_eq_true, Bool.and_eq_true,
      decide_eq_true_eq, decide_eq_true_eq]
    constructor
    · rintro (past | ⟨_, isBr⟩)
      · apply (isEmptyLine_iff (Nat.le_of_lt inside)).mp
        by_contra notEmpty
        have short := (indentation_lt (Bool.eq_false_iff.mpr notEmpty)).1
        have next := lineEnd_le_nextLine text s.pos
        omega
      · exact .inr isBr
    · rintro (outside | isBr)
      · exact .inl (Nat.le_trans known outside)
      · exact .inr ⟨lt_length_of_isBreak isBr, isBr⟩
  have isEmpty := isContentLine_drop content
  rw [literalText, List.flatMap_singleton, Scanner.copyBlock, if_neg (by omega)]
  dsimp only
  rw [spacesAt_line reads, reads.byte_eq, reads.len, isLine, ← isEmpty]
  by_cases bare : ((firstLine (text.drop s.pos)).drop base).isEmpty = true
  · rw [if_pos bare, List.isEmpty_iff.mp bare, List.nil_append]
    rw [bare, Bool.true_eq, Bool.and_eq_true] at isEmpty
    rw [indentation_empty isEmpty.1]
    have line := Scanner.Reads.advanceCols (n := (firstLine (text.drop s.pos)).length) reads
        (by omega)
    exact ⟨_, rfl, crossBreak_line line isEnd.symm⟩
  · have deep : base ≤ indentation (firstLine (text.drop s.pos)) := by
      rw [isEmpty] at bare
      rw [isContentLine] at content
      cases isSpaces : isEmptyLine (firstLine (text.drop s.pos)) with
      | true =>
          rw [isSpaces, Bool.true_and, decide_eq_true_eq] at bare
          exact Nat.le_of_not_le bare
      | false =>
          rw [isSpaces, Bool.false_or, Bool.and_eq_true, decide_eq_true_eq] at content
          exact content.2
    have shallow : (!isEmptyLine (firstLine (text.drop s.pos)) &&
        decide (indentation (firstLine (text.drop s.pos)) < base)) = false := by
      rw [decide_eq_false (Nat.not_lt.mpr deep), Bool.and_false]
    have short := indentation_le (firstLine (text.drop s.pos))
    have line := Scanner.Reads.advanceCols (n := indentation (firstLine (text.drop s.pos))) reads
      (by omega)
    have isRest : (s.advanceCols (indentation (firstLine (text.drop s.pos)))).rest =
        (firstLine (text.drop s.pos)).drop (indentation (firstLine (text.drop s.pos))) ++
          text.drop (lineEnd text s.pos) := by
      rw [line.rest_eq]
      exact drop_line short
    have size : scanToBreak (s.advanceCols (indentation (firstLine (text.drop s.pos)))).rest =
        ((firstLine (text.drop s.pos)).drop
          (indentation (firstLine (text.drop s.pos)))).length := by
      rw [line.rest_eq]
      exact scanToBreak_line short
    have starts := startsBlank_line reads (Nat.le_of_lt inside) deep
      (fun none => bare (List.isEmpty_iff.mpr none))
    rw [if_neg bare, shallow, if_neg Bool.false_ne_true, advanceCols_twice deep, starts,
      size, isRest,
      List.take_left, ← drop_spaces deep, ← Bool.eq_false_iff.mpr bare, ← List.append_assoc]
    have isStop : s.pos + indentation (firstLine (text.drop s.pos)) +
        ((firstLine (text.drop s.pos)).drop (indentation (firstLine (text.drop s.pos)))).length =
          lineEnd text s.pos := by
      rw [List.length_drop]
      omega
    exact ⟨_, rfl, crossBreak_line (line.advanceCols (isStop.symm ▸ reach)) isStop⟩

/-- Copying consumes the content, and nothing else. -/
theorem copyBlock_lines {fuel : Nat} (out : Bytes) (recorded : List BlockLine)
    (reads : s.Reads text)
    (leads : LinesTo text pos lines stop) (here : s.pos = pos)
    (content : ∀ line ∈ lines, isContentLine base line = true) (enough : lines.length < fuel) :
    ∃ q, Scanner.copyBlock base stop fuel s out recorded =
        (q, out ++ literalText base lines, recorded ++ lines.map fun line => .of (line.drop base)) ∧
      q.Reads text ∧ q.pos = stop := by
  induction leads generalizing s fuel out recorded with
  | @done pos =>
      refine ⟨s, ?_, reads, here⟩
      obtain ⟨fuel, rfl⟩ := Nat.exists_eq_succ_of_ne_zero (Nat.ne_of_gt enough)
      rw [Scanner.copyBlock, if_pos (Nat.le_of_eq here.symm), literalText, List.flatMap_nil,
        List.map_nil, List.append_nil, List.append_nil]
  | @line pos stop lines below rest ih =>
      subst here
      obtain ⟨fuel, rfl⟩ := Nat.exists_eq_succ_of_ne_zero (Nat.ne_of_gt (Nat.zero_lt_of_lt enough))
      have reach := rest.length_le (nextLine_le (Nat.le_of_lt below))
      obtain ⟨q, round, reads', isNext⟩ := copyBlock_line fuel out recorded reads below
        (by omega) reach.2 (content _ List.mem_cons_self)
      obtain ⟨q', copied, reads'', isStop⟩ := ih _ _ reads' isNext
        (fun line member => content line (List.mem_cons_of_mem _ member))
        (Nat.lt_of_succ_lt_succ enough)
      refine ⟨q', ?_, reads'', isStop⟩
      rw [round, copied]
      simp only [literalText, List.flatMap_cons, List.flatMap_nil, List.append_nil, List.map_cons,
        List.append_assoc, List.singleton_append]

end

end Oyl
