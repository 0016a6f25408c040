import Oyl.Tokens.Cursor

/-!
# The lines of a text

A text is a list of lines, each without its break.  From a position in the text the
scanner goes to the next line past a break, or to the end of the text.
-/

namespace Oyl

/-- The lines of a text.  A line feed, a carriage return or both end a line, and so does
the end of the text. -/
def textLines : Bytes → List Bytes
  | [] => []
  | c :: rest =>
      if c == lf then [] :: textLines rest
      else if c == cr then
        if rest.head? == some lf then textLines rest else [] :: textLines rest
      else
        match textLines rest with
        | [] => [[c]]
        | line :: lines => (c :: line) :: lines

/-- The text up to its first break. -/
def firstLine (bytes : Bytes) : Bytes := bytes.take (scanToBreak bytes)

/-- Where the line of a position ends. -/
def lineEnd (text : Bytes) (pos : Nat) : Nat := pos + scanToBreak (text.drop pos)

/-- Where the line after that of a position starts. -/
def nextLine (text : Bytes) (pos : Nat) : Nat :=
  let stop := lineEnd text pos
  if isBreak (byteAt text stop) then breakStop text stop else stop

/-- The lines from one position to another. -/
inductive LinesTo (text : Bytes) : Nat → List Bytes → Nat → Prop
  | done {pos : Nat} : LinesTo text pos [] pos
  | line {pos stop : Nat} {lines : List Bytes} : pos < text.length →
      LinesTo text (nextLine text pos) lines stop →
      LinesTo text pos (firstLine (text.drop pos) :: lines) stop

section

variable {text bytes run rest line : Bytes} {lines : List Bytes} {pos stop : Nat}

theorem textLines_append (plain : ∀ c ∈ run, isBreak c = false)
    (isRest : textLines rest = line :: lines) :
    textLines (run ++ rest) = (run ++ line) :: lines := by
  induction run with
  | nil => exact isRest
  | cons c run ih =>
      have notBreak := plain c List.mem_cons_self
      rw [isBreak, Bool.or_eq_false_iff] at notBreak
      rw [List.cons_append, textLines, notBreak.1, notBreak.2,
        ih fun d member => plain d (List.mem_cons_of_mem _ member)]
      rfl

theorem textLines_unended (plain : ∀ c ∈ run, isBreak c = false) (some' : run ≠ []) :
    textLines run = [run] := by
  induction run with
  | nil => exact absurd rfl some'
  | cons c run ih =>
      have notBreak := plain c List.mem_cons_self
      rw [isBreak, Bool.or_eq_false_iff] at notBreak
      rw [textLines, notBreak.1, notBreak.2]
      cases run with
      | nil => rfl
      | cons d run =>
          rw [ih (fun e member => plain e (List.mem_cons_of_mem _ member)) (List.cons_ne_nil d run)]
          rfl

theorem textLines_lf (bytes : Bytes) : textLines (lf :: bytes) = [] :: textLines bytes := by
  rw [textLines, if_pos (beq_self_eq_true _)]

/-- A break at a position ends an empty line. -/
theorem textLines_break (isBr : isBreak (byteAt text pos) = true) :
    textLines (text.drop pos) = [] :: textLines (text.drop (breakStop text pos)) := by
  have inside := lt_length_of_isBreak isBr
  rw [drop_eq_cons inside, breakStop]
  rw [isBreak, Bool.or_eq_true, beq_iff_eq, beq_iff_eq] at isBr
  rcases isBr with isLf | isCr
  · rw [isLf, textLines_lf]
    rfl
  · rw [isCr, textLines, beq_self_eq_true cr, if_neg (by decide), if_pos rfl, Bool.true_and]
    by_cases more : pos + 1 < text.length
    · rw [drop_eq_cons more, List.head?_cons]
      by_cases followed : byteAt text (pos + 1) = lf
      · rw [followed, textLines_lf, if_pos (beq_self_eq_true _), if_pos (beq_self_eq_true _)]
      · rw [if_neg (by simpa using followed), if_neg (by simpa using followed),
          ← drop_eq_cons more]
    · have alone : (if byteAt text (pos + 1) == lf then pos + 2 else pos + 1) = pos + 1 := by
        rw [byteAt_outside (Nat.not_lt.mp more)]
        rfl
      rw [alone, List.drop_eq_nil_of_le (Nat.not_lt.mp more)]
      rfl

theorem firstLine_plain : ∀ c ∈ firstLine bytes, isBreak c = false := by
  induction bytes with
  | nil => intro c member; cases member
  | cons d bytes ih =>
      intro c member
      rw [firstLine, scanToBreak, runLength] at member
      split at member
      · rename_i plain
        rw [List.take_succ_cons] at member
        rcases List.mem_cons.mp member with rfl | member
        · simpa using plain
        · exact ih c member
      · cases member

theorem lineEnd_le (inside : pos ≤ text.length) : lineEnd text pos ≤ text.length := by
  have short := runLength_le (fun c => !isBreak c) (text.drop pos)
  rw [List.length_drop] at short
  rw [lineEnd, scanToBreak]
  omega

theorem firstLine_length (text : Bytes) (pos : Nat) :
    lineEnd text pos = pos + (firstLine (text.drop pos)).length := by
  rw [lineEnd, firstLine, List.length_take, scanToBreak, Nat.min_eq_left (runLength_le _ _)]

theorem firstLine_append (text : Bytes) (pos : Nat) :
    text.drop pos = firstLine (text.drop pos) ++ text.drop (lineEnd text pos) := by
  rw [lineEnd, firstLine, ← List.drop_drop, List.take_append_drop]

/-- A line ends at a break or at the end of the text. -/
theorem lineEnd_stops (text : Bytes) (pos : Nat) :
    text.length ≤ lineEnd text pos ∨ isBreak (byteAt text (lineEnd text pos)) = true := by
  by_cases inside : lineEnd text pos < text.length
  · right
    have stop := runLength_next (fun c => !isBreak c) (text.drop pos)
      (by rw [lineEnd, scanToBreak] at inside; rw [List.length_drop]; omega)
    rw [getD_drop, Bool.not_eq_false'] at stop
    exact stop
  · exact .inl (Nat.not_lt.mp inside)

theorem nextLine_break (isBr : isBreak (byteAt text (lineEnd text pos)) = true) :
    nextLine text pos = breakStop text (lineEnd text pos) := by
  rw [nextLine, if_pos isBr]

theorem nextLine_end (outside : text.length ≤ lineEnd text pos) :
    nextLine text pos = lineEnd text pos := by
  rw [nextLine, byteAt_outside outside]
  rfl

theorem nextLine_le (inside : pos ≤ text.length) : nextLine text pos ≤ text.length := by
  rcases lineEnd_stops text pos with outside | isBr
  · rw [nextLine_end outside]
    exact lineEnd_le inside
  · rw [nextLine_break isBr]
    exact breakStop_le isBr

theorem lt_nextLine (inside : pos < text.length) : pos < nextLine text pos := by
  have later : pos ≤ lineEnd text pos := Nat.le_add_right _ _
  rcases lineEnd_stops text pos with outside | isBr
  · rw [nextLine_end outside]
    omega
  · rw [nextLine_break isBr]
    have more := lt_breakStop isBr
    omega

theorem lineEnd_le_nextLine (text : Bytes) (pos : Nat) : lineEnd text pos ≤ nextLine text pos := by
  rcases lineEnd_stops text pos with outside | isBr
  · exact Nat.le_of_eq (nextLine_end outside).symm
  · rw [nextLine_break isBr]
    exact Nat.le_of_lt (lt_breakStop isBr)

/-- The lines from a position on are its line and those from the next line on. -/
theorem textLines_drop (inside : pos < text.length) :
    textLines (text.drop pos) =
      firstLine (text.drop pos) :: textLines (text.drop (nextLine text pos)) := by
  conv_lhs => rw [firstLine_append]
  rcases lineEnd_stops text pos with outside | isBr
  · have isWhole : text.drop pos = firstLine (text.drop pos) := by
      conv_lhs => rw [firstLine_append, List.drop_eq_nil_of_le outside, List.append_nil]
    have some' : firstLine (text.drop pos) ≠ [] := by
      rw [← isWhole, ne_eq, List.drop_eq_nil_iff]
      exact Nat.not_le.mpr inside
    rw [nextLine_end outside, List.drop_eq_nil_of_le outside, List.append_nil,
      textLines_unended firstLine_plain some']
    rfl
  · rw [nextLine_break isBr, textLines_append firstLine_plain (textLines_break isBr),
      List.append_nil]

/-- The lines from the next line on. -/
theorem textLines_next (isRest : text.drop pos = rest) :
    textLines (text.drop (nextLine text pos)) = (textLines rest).tail := by
  rw [← isRest]
  by_cases inside : pos < text.length
  · rw [textLines_drop inside, List.tail_cons]
  · have later : text.length ≤ nextLine text pos :=
      Nat.le_trans (Nat.not_lt.mp inside) (Nat.le_trans (Nat.le_add_right _ _)
        (lineEnd_le_nextLine _ _))
    rw [List.drop_eq_nil_of_le later, List.drop_eq_nil_of_le (Nat.not_lt.mp inside)]
    rfl

/-- The lines up to a position come first. -/
theorem LinesTo.append (leads : LinesTo text pos lines stop) :
    textLines (text.drop pos) = lines ++ textLines (text.drop stop) := by
  induction leads with
  | done => rfl
  | line inside _ ih => rw [textLines_drop inside, ih, List.cons_append]

theorem LinesTo.length_le (leads : LinesTo text pos lines stop) (inside : pos ≤ text.length) :
    pos + lines.length ≤ stop ∧ stop ≤ text.length := by
  induction leads with
  | done => exact ⟨Nat.le_refl _, inside⟩
  | line below _ ih =>
      have within := ih (nextLine_le (Nat.le_of_lt below))
      have later := lt_nextLine below
      rw [List.length_cons]
      omega

/-- The lines that a test goes over lead to the first one that fails it. -/
theorem exists_linesTo (keep : Bytes → Bool) (inside : pos ≤ text.length) :
    ∃ stop, LinesTo text pos ((textLines (text.drop pos)).takeWhile keep) stop ∧
      (stop < text.length → keep (firstLine (text.drop stop)) = false) := by
  induction size : text.length - pos using Nat.strongRecOn generalizing pos with
  | _ n ih =>
      by_cases below : pos < text.length
      · rw [textLines_drop below]
        cases kept : keep (firstLine (text.drop pos)) with
        | true =>
            obtain ⟨stop, leads, ends⟩ := ih (text.length - nextLine text pos)
              (by have later := lt_nextLine below; omega)
              (nextLine_le inside) rfl
            rw [List.takeWhile_cons_of_pos kept]
            exact ⟨stop, .line below leads, ends⟩
        | false =>
            rw [List.takeWhile_cons_of_neg (by rw [kept]; exact Bool.false_ne_true)]
            exact ⟨pos, .done, fun _ => kept⟩
      · rw [List.drop_eq_nil_of_le (Nat.not_lt.mp below)]
        exact ⟨pos, .done, fun inside' => absurd inside' below⟩

end

end Oyl
