import Oyl.Tokens.BlockText

/-!
# The buffers of a block scalar

The copying pass fills a buffer that the measuring pass has sized, and records its lines in
a table that is sized by counting breaks.  Folding and chomping make nothing longer.
-/

namespace Oyl

/-- The loop that counts the lines before `endPos`. -/
def countLines (s : Scanner) (endPos : Nat) : Nat → Nat → Nat
  | 0, _ => 0
  | fuel + 1, pos =>
      if endPos ≤ pos then 0
      else
        let pos := pos + scanToBreak ((s.buf.drop pos).take (endPos - pos))
        let pos := if pos < endPos && s.byte pos == cr then pos + 1 else pos
        let pos := if pos < endPos && s.byte pos == lf then pos + 1 else pos
        countLines s endPos fuel pos + 1

/-- `lines_cap`; the lines are counted in an `int`, which wraps around. -/
def linesCap (s : Scanner) (endPos : Nat) : Int :=
  asInt (countLines s endPos (s.remaining + 1) s.pos + 1)

/-- The lines of a block scalar with `base` spaces of indentation. -/
def blockLines (base : Nat) (bytes : Bytes) : List Bytes :=
  (textLines bytes).takeWhile (isContentLine base)

/-- What the passes write stays inside of what was allocated for it. -/
structure BuffersFit (s : Scanner) (style : ScalarStyle) (base endPos needed : Nat) : Prop where
  copied : ∃ q out lines, s.copyBlock base endPos (s.remaining + 1) [] [] = (q, out, lines) ∧
    q.pos = endPos ∧ out.length ≤ needed ∧
    (style = .folded → (lines.length : Int) ≤ linesCap s endPos) ∧
    (foldLines lines.length lines).length ≤ out.length ∧
    ∀ chomp, (chompBlock chomp out).length < needed + 1 ∧
      (chompBlock chomp (foldLines lines.length lines)).length < out.length + 1
  indents : ∀ pos, asInt (s.spacesAt pos) = s.spacesAt pos

section

variable {text : Bytes} {s : Scanner} {lines : List Bytes} {pos stop base : Nat}

/-- A line before `endPos` is counted once. -/
theorem countLines_line {endPos : Nat} (reads : s.Reads text) (fuel : Nat)
    (inside : pos < text.length)
    (within : nextLine text pos ≤ endPos) :
    countLines s endPos (fuel + 1) pos = countLines s endPos fuel (nextLine text pos) + 1 := by
  have later := lt_nextLine inside
  have isEnd := firstLine_length text pos
  have reach := lineEnd_le_nextLine text pos
  have isRun : scanToBreak ((s.buf.drop pos).take (endPos - pos)) =
      (firstLine (text.drop pos)).length := by
    have halts : Halts (fun c => !isBreak c)
        ((text.drop (lineEnd text pos)).take (endPos - pos -
          (firstLine (text.drop pos)).length)) := by
      intro c isHead
      have ends := lineEnd_head text pos
      rw [List.head?_take] at isHead
      split at isHead
      · cases isHead
      · rw [Option.mem_def.mp isHead, Option.all_some] at ends
        dsimp only
        rw [ends]
        rfl
    rw [reads.buf]
    conv_lhs => rw [firstLine_append, List.take_append, List.take_of_length_le (by omega)]
    exact runLength_run (fun c member => by rw [firstLine_plain c member]; rfl) halts
  have crossed : countLines s endPos fuel (nextLine text pos) =
      countLines s endPos fuel
        (let pos := lineEnd text pos
         let pos := if pos < endPos && s.byte pos == cr then pos + 1 else pos
         if pos < endPos && s.byte pos == lf then pos + 1 else pos) := by
    dsimp only
    congr 1
    rw [reads.byte_eq, reads.byte_eq]
    rcases lineEnd_stops text pos with outside | isBr
    · rw [byteAt_outside outside, nextLine_end outside]
      have apart : ¬(0 : UInt8) = cr ∧ ¬(0 : UInt8) = lf := by decide
      simp [apart, byteAt_outside outside]
    · rw [nextLine_break isBr] at within ⊢
      have more := lt_breakStop isBr
      have open' : lineEnd text pos < endPos := by omega
      by_cases isCr : byteAt text (lineEnd text pos) = cr
      · rw [breakStop, isCr] at within ⊢
        by_cases followed : byteAt text (lineEnd text pos + 1) = lf
        · simp [followed] at within
          simp [open', followed, Nat.lt_of_succ_le within]
        · simp [open', followed]
      · have isLf : byteAt text (lineEnd text pos) = lf := by
          rw [isBreak, Bool.or_eq_true, beq_iff_eq, beq_iff_eq] at isBr
          exact isBr.resolve_right isCr
        rw [breakStop]
        have apart : ¬lf = cr := by decide
        simp [isLf, open', apart]
  rw [countLines, if_neg (by omega), crossed, isEnd, ← isRun]

theorem countLines_lines {fuel : Nat} (reads : s.Reads text) (leads : LinesTo text pos lines stop)
    (inside : pos ≤ text.length) (enough : lines.length < fuel) :
    countLines s stop fuel pos = lines.length := by
  induction leads generalizing fuel with
  | @done pos =>
      obtain ⟨fuel, rfl⟩ := Nat.exists_eq_succ_of_ne_zero (Nat.ne_of_gt enough)
      rw [countLines, if_pos (Nat.le_refl _)]
      rfl
  | @line pos stop lines below rest ih =>
      obtain ⟨fuel, rfl⟩ := Nat.exists_eq_succ_of_ne_zero (Nat.ne_of_gt (Nat.zero_lt_of_lt enough))
      have within := nextLine_le inside
      rw [countLines_line reads fuel below (Nat.le_trans (Nat.le_add_right _ _)
        (rest.length_le within).1), ih within (Nat.lt_of_succ_lt_succ enough)]
      rfl

/-! ### Folding and chomping -/

theorem foldedBreak_length (line : Bytes) (after : List Bytes) :
    (foldedBreak line after).length ≤ 1 := by
  rw [foldedBreak]
  split
  · split
    · exact Nat.zero_le 1
    · exact Nat.le_refl 1
  · exact Nat.le_refl 1

theorem foldedText_length (content : List Bytes) :
    (foldedText content).length ≤ (content.flatMap (· ++ [lf])).length := by
  induction content with
  | nil => exact Nat.le_refl 0
  | cons line after ih =>
      have short := foldedBreak_length line after
      rw [foldedText, List.flatMap_cons, List.length_append, List.length_append, List.length_append,
        List.length_append, List.length_singleton]
      omega

theorem foldedText_ends {content : List Bytes} (some' : content ≠ []) :
    ∃ before, foldedText content = before ++ [lf] := by
  induction content with
  | nil => exact absurd rfl some'
  | cons line after ih =>
      rw [foldedText]
      cases after with
      | nil =>
          refine ⟨line, ?_⟩
          rw [foldedBreak, List.find?_nil, Option.any_none, Bool.and_false, foldedText,
            List.append_nil]
          rfl
      | cons next after =>
          obtain ⟨before, isText⟩ := ih (List.cons_ne_nil next after)
          rw [isText, ← List.append_assoc]
          exact ⟨_, rfl⟩

/-- A text of lines ends in a line feed, if there is any. -/
theorem blockText_ends (style : ScalarStyle) (content : List Bytes) :
    blockText style content = [] ∨ ∃ before, blockText style content = before ++ [lf] := by
  rcases List.eq_nil_or_concat content with rfl | ⟨init, line, isInit⟩
  · left
    rw [blockText]
    split <;> rfl
  · right
    rw [blockText]
    split
    · exact foldedText_ends (by rw [isInit, List.concat_eq_append]; simp)
    · rw [isInit, List.concat_eq_append, List.flatMap_append, List.flatMap_singleton,
        ← List.append_assoc]
      exact ⟨_, rfl⟩

theorem chompBlock_length (chomp : Chomp) {out : Bytes}
    (ends : out = [] ∨ ∃ before, out = before ++ [lf]) :
    (chompBlock chomp out).length ≤ out.length := by
  have chomped := chompBlock_chomped chomp out
  generalize chompBlock chomp out = value at chomped
  cases chomped with
  | strip breaks => exact (List.sublist_append_left _ _).length_le
  | @clip body breaks some' unbroken =>
      cases breaks with
      | zero =>
          rw [List.replicate_zero, List.append_nil] at ends
          rcases ends with none | ⟨before, isOut⟩
          · exact absurd none some'
          · rw [Unbroken, isOut, List.getLast?_concat] at unbroken
            exact absurd rfl unbroken
      | succ breaks =>
          rw [List.length_append, List.length_append, List.length_replicate, List.length_singleton]
          omega
  | clipBreaks breaks => exact Nat.zero_le _
  | keep => exact Nat.le_refl _

end

/-- The counter holds a number of lines if it does not wrap around. -/
theorem le_asInt_succ_iff (n : Nat) : (n : Int) ≤ asInt (n + 1) ↔ (n : Int) < intMax := by
  constructor
  · intro within
    have most := asInt_le_intMax (n + 1)
    by_contra large
    obtain rfl : n = 2147483647 := by
      unfold intMax at large most
      omega
    exact absurd within (by decide)
  · intro small
    rw [asInt_of_le (by omega)]
    omega

/-- The lines of a block scalar fit into their buffers, in any state of the scanner, if and only
if an `int` can count them. -/
theorem blockScalar_fits (text : Bytes) (s : Scanner) (style : ScalarStyle)
    (base endPos needed : Nat) (reads : s.Reads text)
    (spaces : ∀ pos, (s.spacesAt pos : Int) ≤ intMax)
    (measured : s.measureBlock base (s.remaining + 1) s.pos 0 = some (endPos, needed)) :
    BuffersFit s style base endPos needed ↔
      (style = .folded → ((blockLines base (text.drop s.pos)).length : Int) < intMax) := by
  obtain ⟨stop, leads, ends⟩ := exists_linesTo (isContentLine base) reads.inside
  have content : ∀ line ∈ blockLines base (text.drop s.pos),
      isContentLine base line = true := fun line member => List.mem_takeWhile_imp member
  rw [← blockLines] at leads
  generalize blockLines base (text.drop s.pos) = lines at leads content
  have within := leads.length_le reads.inside
  have enough : lines.length < s.remaining + 1 := by
    rw [Scanner.remaining, reads.len]
    omega
  rw [measureBlock_lines reads 0 reads.inside leads content ends enough] at measured
  split at measured
  · cases measured
  cases measured
  obtain ⟨q, copied, _, isStop⟩ := copyBlock_lines [] [] reads leads rfl content enough
  have counted : linesCap s endPos = asInt (lines.length + 1) := by
    rw [linesCap, countLines_lines reads leads reads.inside enough]
  have recorded : ((lines.map fun line => BlockLine.of (line.drop base)).length : Int) ≤
      linesCap s endPos ↔ (lines.length : Int) < intMax := by
    rw [counted, List.length_map]
    exact le_asInt_succ_iff lines.length
  have folds : foldLines (lines.map fun line => BlockLine.of (line.drop base)).length
      (lines.map fun line => BlockLine.of (line.drop base)) =
        foldedText (lines.map (·.drop base)) := by
    have folds := foldLines_eq lines.length (lines.map (·.drop base)) (by rw [List.length_map])
    rw [List.map_map] at folds
    rw [List.length_map]
    exact folds
  have literal : literalText base lines = blockText .literal (lines.map (·.drop base)) := by
    rw [blockText, literalText, List.flatMap_map]
    rfl
  have folded : foldedText (lines.map (·.drop base)) = blockText .folded
      (lines.map (·.drop base)) :=
    rfl
  have shorter := foldedText_length (lines.map (·.drop base))
  rw [List.flatMap_map] at shorter
  constructor
  · intro fits isFolded
    obtain ⟨q', out, lines', copied', _, _, room, _⟩ := fits.copied
    cases copied.symm.trans copied'
    exact recorded.mp (room isFolded)
  · intro few
    refine ⟨⟨q, _, _, copied, isStop, ?_, fun isFolded => recorded.mpr (few isFolded), ?_, ?_⟩,
      fun pos => asInt_of_le (spaces pos)⟩
    · rw [List.nil_append, Nat.zero_add]
    · rw [List.nil_append, List.nil_append, folds]
      exact shorter
    · intro chomp
      rw [List.nil_append, List.nil_append, folds, Nat.zero_add, Nat.lt_succ_iff, Nat.lt_succ_iff]
      constructor
      · rw [literal]
        exact chompBlock_length chomp (blockText_ends _ _)
      · refine Nat.le_trans ?_ shorter
        rw [folded]
        exact chompBlock_length chomp (blockText_ends _ _)

theorem spacesAt_le_intMax {text : Bytes} {s : Scanner} (reads : s.Reads text)
    (short : (text.length : Int) ≤ intMax) (pos : Nat) : (s.spacesAt pos : Int) ≤ intMax := by
  have run := runLength_le (· == space) (s.buf.drop pos)
  rw [reads.buf, List.length_drop] at run
  rw [Scanner.spacesAt, reads.buf]
  omega

/-- A last line of spaces that no break ends. -/
theorem blockScalar_fits_unended :
    BuffersFit (Scanner.new [space, 0x61, lf, space, space, space]) .folded 1 6 5 :=
  have reads := (Scanner.new_between [space, 0x61, lf, space, space, space]).reads
  (blockScalar_fits [space, 0x61, lf, space, space, space] _ .folded 1 6 5 reads
    (spacesAt_le_intMax reads (by decide)) rfl).mpr fun _ => by decide

/-! ### More lines than an `int` can count -/

/-- A folded scalar of `n` empty lines. -/
def emptyLines (n : Nat) : Bytes := greater :: lf :: List.replicate n lf

/-- The scanner past the header of the scalar. -/
def pastHeader (n : Nat) : Scanner := { Scanner.new (emptyLines n) with pos := 2, line := 2 }

section

variable {n : Nat}

theorem emptyLines_firstLine (pos : Nat) : firstLine ((emptyLines n).drop (pos + 2)) = [] := by
  rw [emptyLines, List.drop_succ_cons, List.drop_succ_cons, List.drop_replicate]
  cases n - pos <;> rfl

theorem emptyLines_lines : blockLines 1 ((emptyLines n).drop 2) = List.replicate n [] := by
  change (textLines (List.replicate n lf)).takeWhile (isContentLine 1) = _
  induction n with
  | zero => rfl
  | succ n ih =>
      rw [List.replicate_succ, List.replicate_succ, ← ih]
      rfl

theorem pastHeader_reads : (pastHeader n).Reads (emptyLines n) := by
  refine ⟨rfl, rfl, ?_⟩
  change 2 ≤ (emptyLines n).length
  rw [emptyLines, List.length_cons, List.length_cons]
  omega

theorem emptyLines_noSpace (pos : Nat) : byteAt (emptyLines n) pos ≠ space := by
  rw [byteAt, List.getD_eq_getElem?_getD]
  rcases pos with _ | _ | pos
  · exact (by decide : greater ≠ space)
  · exact (by decide : lf ≠ space)
  · rw [emptyLines, List.getElem?_cons_succ, List.getElem?_cons_succ, List.getElem?_replicate]
    split <;> decide

theorem pastHeader_spaces (pos : Nat) : ((pastHeader n).spacesAt pos : Int) ≤ intMax := by
  have none : (pastHeader n).spacesAt pos = 0 := by
    by_cases inside : pos < (emptyLines n).length
    · change runLength (· == space) ((emptyLines n).drop pos) = 0
      rw [drop_eq_cons inside, runLength, if_neg]
      simpa using emptyLines_noSpace pos
    · change runLength (· == space) ((emptyLines n).drop pos) = 0
      rw [List.drop_eq_nil_of_le (Nat.not_lt.mp inside)]
      rfl
  rw [none]
  decide

/-- The passes over the scalar: the size of the table, and how many lines go into it. -/
theorem pastHeader_passes : ∃ endPos needed q out lines,
    (pastHeader n).measureBlock 1 ((pastHeader n).remaining + 1) 2 0 = some (endPos, needed) ∧
      linesCap (pastHeader n) endPos = asInt (n + 1) ∧
      (pastHeader n).copyBlock 1 endPos ((pastHeader n).remaining + 1) [] [] = (q, out, lines) ∧
      lines.length = n := by
  have reads := pastHeader_reads (n := n)
  obtain ⟨stop, leads, ends⟩ := exists_linesTo (isContentLine 1) reads.inside
  have count : blockLines 1 ((emptyLines n).drop 2) = List.replicate n [] := emptyLines_lines
  change LinesTo (emptyLines n) 2 (blockLines 1 ((emptyLines n).drop 2)) stop at leads
  rw [count] at leads
  have content : ∀ line ∈ List.replicate n ([] : Bytes), isContentLine 1 line = true := by
    intro line member
    rw [List.eq_of_mem_replicate member]
    rfl
  have within := leads.length_le reads.inside
  have enough : (List.replicate n ([] : Bytes)).length < (pastHeader n).remaining + 1 := by
    rw [Scanner.remaining, reads.len]
    exact Nat.lt_succ_of_le (Nat.le_sub_of_add_le' (Nat.le_trans within.1 within.2))
  have measured := measureBlock_lines reads 0 reads.inside leads content ends enough
  have notTab : isTabLine 1 (firstLine ((emptyLines n).drop stop)) = false := by
    obtain ⟨pos, rfl⟩ := Nat.exists_eq_add_of_le' (Nat.le_trans (Nat.le_add_right 2 _) within.1)
    rw [emptyLines_firstLine]
    rfl
  rw [notTab, if_neg Bool.false_ne_true] at measured
  obtain ⟨q, copied, _⟩ := copyBlock_lines [] [] reads leads rfl content enough
  refine ⟨stop, _, q, _, _, measured, ?_, copied, ?_⟩
  · have counted := countLines_lines reads leads reads.inside enough
    rw [List.length_replicate] at counted
    exact congrArg (fun lines => asInt (lines + 1)) counted
  · rw [List.nil_append, List.length_map, List.length_replicate]

end

/-- With `2 ^ 32` lines the table of the lines has room for one of them. -/
theorem blockScalar_overflows : ∃ endPos needed,
    (∀ pos, ((pastHeader 4294967296).spacesAt pos : Int) ≤ intMax) ∧
    (pastHeader 4294967296).measureBlock 1 ((pastHeader 4294967296).remaining + 1) 2 0 =
      some (endPos, needed) ∧
    linesCap (pastHeader 4294967296) endPos = 1 ∧
    ¬BuffersFit (pastHeader 4294967296) .folded 1 endPos needed := by
  obtain ⟨endPos, needed, q, out, lines, measured, cap, copied, many⟩ :=
    pastHeader_passes (n := 4294967296)
  have one : linesCap (pastHeader 4294967296) endPos = 1 := cap
  refine ⟨endPos, needed, pastHeader_spaces, measured, one, fun fits => ?_⟩
  obtain ⟨_, _, _, copied', _, _, room, _⟩ := fits.copied
  cases copied.symm.trans copied'
  have room := room rfl
  rw [one, many] at room
  exact absurd room (by decide)

end Oyl
