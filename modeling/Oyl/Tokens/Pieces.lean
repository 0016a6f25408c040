import Oyl.Logic.Folding
import Oyl.Tokens.Escapes

/-!
# The pieces of a scalar's text

How the text that the scanner passes in a scalar is cut into contents, blanks and
line breaks.
-/

namespace Oyl

open StateError Folding

/-- The bytes of a text between two offsets. -/
def textSlice (text : Bytes) (first last : Nat) : Bytes := (text.drop first).take (last - first)

/-- The unit at the front of a text: a break, a blank or another byte.  CRLF is one break. -/
def lineUnit : Bytes → Piece UInt8 × Nat
  | [] => (.solid [], 0)
  | c :: rest =>
      if c == cr && rest.head? == some lf then (.newline, 1)
      else if isBreak c then (.newline, 0)
      else (element isBlank c, 0)

/-- What a text reads as when its lines are folded. -/
def foldText (pieces : List (Piece UInt8)) : Bytes := fold space lf pieces

/-- Breaks and blanks are units as in any text, and other bytes start contents. -/
structure ReadsLines (unit : Bytes → Piece UInt8 × Nat) : Prop where
  gap : ∀ c rest, isBlankOrBreak c = true → unit (c :: rest) = lineUnit (c :: rest)
  content : ∀ c rest pieces, isBlankOrBreak c = false →
    Starts ((unit (c :: rest)).1 :: pieces)

/-- The units of a text between two offsets, whatever follows. -/
structure Yields (unit : Bytes → Piece UInt8 × Nat) (text : Bytes) (p q : Nat)
    (pieces : List (Piece UInt8)) : Prop where
  ordered : p ≤ q
  cut : ∀ last, q ≤ last → last ≤ text.length →
    units unit 0 (textSlice text p last) = pieces ++ units unit 0 (textSlice text q last)

section

variable {text : Bytes} {unit : Bytes → Piece UInt8 × Nat} {p q r : Nat}

theorem textSlice_self : textSlice text p p = [] := by
  rw [textSlice, Nat.sub_self, List.take_zero]

theorem textSlice_cons {last : Nat} (below : p < last) (within : last ≤ text.length) :
    textSlice text p last = byteAt text p :: textSlice text (p + 1) last := by
  have more : last - p = (last - (p + 1)) + 1 := by omega
  rw [textSlice, drop_eq_cons (Nat.lt_of_lt_of_le below within), more, List.take_succ_cons]
  rfl

theorem textSlice_concat {n : Nat} (within : p + n < text.length) :
    textSlice text p (p + (n + 1)) = textSlice text p (p + n) ++ [byteAt text (p + n)] := by
  have below : n < (text.drop p).length := by
    rw [List.length_drop]
    omega
  rw [textSlice, textSlice, Nat.add_sub_cancel_left, Nat.add_sub_cancel_left,
    List.take_succ_eq_append_getElem below, List.getElem_drop, byteAt,
    List.getD_eq_getElem?_getD, List.getElem?_eq_getElem within]
  rfl

theorem mem_textSlice {c : UInt8} (member : c ∈ textSlice text p q) :
    ∃ o, p ≤ o ∧ o < q ∧ c = byteAt text o := by
  obtain ⟨i, below, rfl⟩ := List.mem_iff_getElem.mp member
  rw [textSlice, List.length_take, List.length_drop] at below
  refine ⟨p + i, Nat.le_add_right _ _, by omega, ?_⟩
  simp only [textSlice, List.getElem_take, List.getElem_drop, byteAt]
  rw [List.getD_eq_getElem?_getD, List.getElem?_eq_getElem (by omega), Option.getD_some]

/-- What is read from the cursor on. -/
theorem Scanner.Reads.take_eq {s : Scanner} (reads : s.Reads text) (n : Nat) :
    s.rest.take n = textSlice text s.pos (s.pos + n) := by
  rw [textSlice, Nat.add_sub_cancel_left, reads.rest_eq]

theorem textSlice_drop {last : Nat} (n : Nat) :
    (textSlice text p last).drop n = textSlice text (p + n) last := by
  rw [textSlice, textSlice, List.drop_take, List.drop_drop, Nat.sub_sub]

theorem textSlice_head {last : Nat} (within : last ≤ text.length) :
    (textSlice text p last).head? = if p < last then some (byteAt text p) else none := by
  split
  · rename_i below
    rw [textSlice_cons below within]
    rfl
  · rename_i past
    rw [textSlice, Nat.sub_eq_zero_of_le (Nat.not_lt.mp past), List.take_zero]
    rfl

theorem lineUnit_plain {c : UInt8} {rest : Bytes} (plain : isBreak c = false) :
    lineUnit (c :: rest) = (element isBlank c, 0) := by
  have notCr : (c == cr) = false := (Bool.or_eq_false_iff.mp plain).2
  rw [lineUnit, notCr, plain]
  rfl

theorem lineUnit_starts {c : UInt8} {rest : Bytes} (pieces : List (Piece UInt8))
    (content : isBlankOrBreak c = false) : Starts ((lineUnit (c :: rest)).1 :: pieces) := by
  obtain ⟨notBlank, notBreak⟩ := Bool.or_eq_false_iff.mp content
  rw [lineUnit_plain notBreak, element, notBlank]
  exact .inr (.inl ⟨_, _, rfl⟩)

/-- Units of two texts, unless a CRLF is cut. -/
theorem lineUnits_append {first second : Bytes} (skip : Nat) (within : skip ≤ first.length)
    (whole : first.getLast? = some cr → second.head? ≠ some lf) :
    units lineUnit skip (first ++ second) =
      units lineUnit skip first ++ units lineUnit 0 second := by
  induction first generalizing skip with
  | nil =>
      obtain rfl : skip = 0 := Nat.le_zero.mp within
      rfl
  | cons c first ih =>
      have whole' : first.getLast? = some cr → second.head? ≠ some lf := by
        intro isCr
        apply whole
        rw [List.getLast?_cons, isCr]
        rfl
      cases skip with
      | succ skip => exact ih skip (Nat.le_of_succ_le_succ within) whole'
      | zero =>
          have same : lineUnit (c :: (first ++ second)) = lineUnit (c :: first) := by
            cases first with
            | cons d first => rfl
            | nil =>
                by_cases isCr : c = cr
                · have notLf : (second.head? == some lf) = false :=
                    beq_false_of_ne (whole (by rw [isCr]; rfl))
                  rw [List.nil_append, lineUnit, lineUnit, notLf]
                  rfl
                · rw [lineUnit, lineUnit, beq_false_of_ne isCr]
                  rfl
          have short : (lineUnit (c :: first)).2 ≤ first.length := by
            rw [lineUnit]
            split
            · rename_i both
              cases first with
              | nil => simp at both
              | cons => exact Nat.succ_le_succ (Nat.zero_le _)
            · split <;> exact Nat.zero_le _
          rw [List.cons_append, units, units, same, ih _ short whole']
          rfl

namespace Yields

theorem refl : Yields unit text p p [] := ⟨Nat.le_refl _, fun _ _ _ => rfl⟩

theorem trans {first second : List (Piece UInt8)} (before : Yields unit text p q first)
    (after : Yields unit text q r second) : Yields unit text p r (first ++ second) where
  ordered := Nat.le_trans before.ordered after.ordered
  cut last past within := by
    rw [before.cut last (Nat.le_trans after.ordered past) within, after.cut last past within,
      List.append_assoc]

/-- All the units up to an offset. -/
theorem units_eq {pieces : List (Piece UInt8)} (yields : Yields unit text p q pieces)
    (within : q ≤ text.length) : units unit 0 (textSlice text p q) = pieces := by
  rw [yields.cut q (Nat.le_refl _) within, textSlice_self, units, List.append_nil]

/-- One unit. -/
theorem single {piece : Piece UInt8} (more : Nat) (reaches : p + 1 + more = q)
    (isUnit : ∀ last, q ≤ last → last ≤ text.length →
      unit (byteAt text p :: textSlice text (p + 1) last) = (piece, more)) :
    Yields unit text p q [piece] where
  ordered := by omega
  cut last past within := by
    rw [textSlice_cons (by omega) within, units_cons (isUnit last past within), textSlice_drop,
      reaches]
    rfl

/-- A line break. -/
theorem newline (lines : ReadsLines unit) (isBr : isBreak (byteAt text p) = true) :
    Yields unit text p (breakStop text p) [.newline] := by
  have gap : isBlankOrBreak (byteAt text p) = true := by rw [isBlankOrBreak, isBr, Bool.or_true]
  have isStop := breakStop_cases isBr
  by_cases both : byteAt text p = cr ∧ byteAt text (p + 1) = lf
  · have stop : breakStop text p = p + 2 := by simp [breakStop, both.1, both.2]
    refine Yields.single 1 stop.symm fun last past within => ?_
    have below : p + 1 < last := by omega
    rw [lines.gap _ _ gap, lineUnit, both.1, textSlice_head within, if_pos below, both.2]
    rfl
  · have stop : breakStop text p = p + 1 := by
      rw [breakStop, if_neg (by simpa using both)]
    refine Yields.single 0 stop.symm fun last past within => ?_
    rw [lines.gap _ _ gap, lineUnit, if_neg, if_pos isBr]
    rw [textSlice_head within]
    simp only [Bool.and_eq_true, beq_iff_eq, not_and]
    intro isCr
    split
    · exact fun isLf => both ⟨isCr, Option.some.inj isLf⟩
    · intro isLf
      cases isLf

/-- Bytes that are units of their own. -/
theorem elements {n : Nat} (piece : UInt8 → Piece UInt8)
    (plain : ∀ i < n, ∀ rest, unit (byteAt text (p + i) :: rest) =
      (piece (byteAt text (p + i)), 0)) (within : p + n ≤ text.length) :
    Yields unit text p (p + n) ((textSlice text p (p + n)).map piece) := by
  induction n generalizing p with
  | zero =>
      rw [Nat.add_zero, textSlice_self]
      exact .refl
  | succ n ih =>
      have first : Yields unit text p (p + 1) [piece (byteAt text p)] :=
        Yields.single 0 rfl fun _ _ _ => plain 0 (Nat.succ_pos n) _
      have shift : p + (n + 1) = p + 1 + n := by omega
      rw [shift] at within ⊢
      rw [textSlice_cons (by omega) within]
      refine first.trans (ih (fun i below => ?_) within)
      have again := plain (i + 1) (Nat.succ_lt_succ below)
      rwa [show p + (i + 1) = p + 1 + i by omega] at again

/-- The blanks at the cursor. -/
theorem blanks (lines : ReadsLines unit) {s : Scanner} (reads : s.Reads text) :
    Yields unit text s.pos (s.pos + skipBlanks s.rest)
      ((textSlice text s.pos (s.pos + skipBlanks s.rest)).map Piece.blank) := by
  refine elements Piece.blank (fun i below rest => ?_)
    (skipBlanks_moves reads : Moves text anyLine noEscape _ _).reads.inside
  have blank := blanks_bytes reads (Nat.le_add_right _ i) (Nat.add_lt_add_left below _)
  rw [lines.gap _ _ (by rw [isBlankOrBreak, blank]; rfl), lineUnit_plain (isBreak_of_isBlank blank),
    element, if_pos blank]

end Yields

/-! ### Line breaks inside a scalar -/

/-- The cursor is at the end of the text, or at a byte that is no blank and no break. -/
def Scanner.AtContent (s : Scanner) : Prop := s.atEnd = true ∨ isBlankOrBreak s.peek = false

/-- The breaks from the cursor on, with the blanks after each. -/
theorem skipBreakLines_yields (lines : ReadsLines unit) {fuel : Nat} (count : Nat)
    {s : Scanner}    (reads : s.Reads text) (enough : s.remaining ≤ fuel)
    (start : s.atEnd = true ∨ isBreak s.peek = true) :
    ∃ n pieces, (s.skipBreakLines fuel count).2 = count + n ∧
      Yields unit text s.pos (s.skipBreakLines fuel count).1.pos pieces ∧ Lines n pieces ∧
      (s.skipBreakLines fuel count).1.AtContent ∧ (s.atEnd = false → 0 < n) := by
  have stay {count : Nat} {s : Scanner} (ended : s.atEnd = true) :
      ∃ n pieces, count = count + n ∧ Yields unit text s.pos s.pos pieces ∧ Lines n pieces ∧
        s.AtContent ∧ (s.atEnd = false → 0 < n) := by
    refine ⟨0, [], rfl, .refl, .none, .inl ended, fun open' => ?_⟩
    rw [ended] at open'
    cases open'
  induction fuel generalizing s count with
  | zero =>
      apply stay
      rw [reads.atEnd_iff]
      rw [Scanner.remaining, reads.len] at enough
      omega
  | succ fuel ih =>
      rw [Scanner.skipBreakLines]
      split
      · rename_i stops
        apply stay
        rcases start with ended | isBr
        · exact ended
        · simpa [isBr] using stops
      rename_i isBr
      simp only [Bool.or_eq_true, Bool.not_eq_true', not_or, Bool.not_eq_false,
        Bool.not_eq_true] at isBr
      have isBr' := isBr.2
      rw [reads.peek_eq] at isBr'
      have crossed : Moves text anyLine noEscape s s.skipBreak := .skipBreak reads isBr.2 trivial
      have landing : s.skipBreak.pos =
          breakStop text s.pos := by rw [Moves.skipBreak_eq reads isBr']
      have blanks : Moves text anyLine noEscape s.skipBreak
          (s.skipBreak.advanceCols (skipBlanks s.skipBreak.rest)) := skipBlanks_moves crossed.reads
      have stop := crossed.reads.run_stop isBlank
      obtain ⟨row, line⟩ : ∃ row : Bytes, Yields unit text s.pos
          (s.skipBreak.advanceCols (skipBlanks s.skipBreak.rest)).pos
          (.newline :: row.map Piece.blank) :=
        ⟨_, (landing ▸ Yields.newline lines isBr').trans (.blanks lines crossed.reads)⟩
      have further : s.pos < s.skipBreak.pos := by
        rw [landing]
        rcases breakStop_cases isBr' with ⟨one, _⟩ | ⟨two, _⟩ <;> omega
      have later := blanks.pos_le
      change (s.skipBreak.advanceCols (skipBlanks s.skipBreak.rest)).atEnd = true ∨
        isBlank (s.skipBreak.advanceCols (skipBlanks s.skipBreak.rest)).peek = false at stop
      dsimp only
      generalize s.skipBreak.advanceCols (skipBlanks s.skipBreak.rest) = next at *
      split
      · rename_i content
        simp only [Bool.and_eq_true, Bool.not_eq_true'] at content
        refine ⟨1, _, rfl, line, ?_, .inr ?_, fun _ => Nat.one_pos⟩
        · have one : Lines 1 (.newline :: (row.map Piece.blank ++ [])) := .line row .none
          rwa [List.append_nil] at one
        · rw [isBlankOrBreak, content.2, Bool.or_false]
          exact stop.resolve_left (by rw [content.1]; exact Bool.false_ne_true)
      · rename_i more
        have start' : next.atEnd = true ∨ isBreak next.peek = true := by
          cases ended : next.atEnd with
          | true => exact .inl rfl
          | false => simpa [ended] using more
        have enough' : next.remaining ≤ fuel := by
          have inside := lt_length_of_isBreak isBr'
          rw [Scanner.remaining, reads.len] at enough
          rw [Scanner.remaining, blanks.reads.len]
          omega
        obtain ⟨n, pieces, total, rest, isLines, content, _⟩ :=
          ih (count + 1) blanks.reads enough' start'
        refine ⟨n + 1, _, by omega, line.trans rest, .line row isLines, content,
          fun _ => Nat.succ_pos n⟩

/-- Nothing that starts at content is dropped. -/
theorem Scanner.AtContent.starts (lines : ReadsLines unit) {s : Scanner} (reads : s.Reads text)
    (content : s.AtContent) {last : Nat} (within : last ≤ text.length) :
    Starts (units unit 0 (textSlice text s.pos last)) := by
  by_cases below : s.pos < last
  · rcases content with ended | notGap
    · rw [reads.atEnd_iff] at ended
      omega
    · rw [reads.peek_eq] at notGap
      rw [textSlice_cons below within, units]
      exact lines.content _ _ _ notGap
  · left
    rw [textSlice, Nat.sub_eq_zero_of_le (Nat.not_lt.mp below), List.take_zero, units]

theorem foldBreaks_eq (count : Nat) : foldBreaks (count + 1) =
    (Gap.breaks count).text space lf := by
  cases count <;> rfl

/-- Folding of the breaks before content. -/
theorem readOn_lines {count : Nat} {breaks pieces : List (Piece UInt8)}
    (isLines : Lines count breaks)
    (some : 0 < count) (starts : Starts pieces) (out : Bytes) :
    readOn space lf isBlank out (breaks ++ pieces) =
      readOn space lf isBlank (trimBlanks out ++ foldBreaks count) pieces := by
  obtain ⟨count, rfl⟩ := Nat.exists_eq_succ_of_ne_zero (Nat.ne_of_gt some)
  rw [readOn, isLines.foldGap_eq, foldGap_starts isBlank _ starts, Nat.succ_eq_add_one,
    foldBreaks_eq, Gap.newlines, Gap.newline, Gap.newlines_breaks, Nat.zero_add]
  rfl

/-- The lines that `quotedBreak` crosses. -/
theorem quotedBreak_lines {closer : UInt8} {marker : String} {count : Nat} {s s' : Scanner}
    (ok : quotedBreak closer marker s = .ok count s') :
    s.skipBreakLines s.remaining 0 = (s', count) := by
  rw [quotedBreak, get_bind_eq] at ok
  generalize s.skipBreakLines s.remaining 0 = found at ok
  obtain ⟨next, breakCount⟩ := found
  dsimp only at ok
  obtain ⟨_, q, stored, rest⟩ := bind_eq_ok ok
  cases stored
  split at rest
  · obtain ⟨_, _, failed, _⟩ := bind_eq_ok rest
    exact (scanError_ok failed).elim
  split at rest
  · obtain ⟨_, _, failed, _⟩ := bind_eq_ok rest
    exact (scanError_ok failed).elim
  · cases rest
    rfl

theorem notEnd_of_isBreak {s : Scanner} (reads : s.Reads text) (isBr : isBreak s.peek = true) :
    s.atEnd = false := by
  rw [reads.peek_eq] at isBr
  exact Bool.eq_false_iff.mpr fun ended =>
    Nat.not_le.mpr (lt_length_of_isBreak isBr) (reads.atEnd_iff.mp ended)

/-- The lines after a break, up to content or the end of the text. -/
structure Crosses (unit : Bytes → Piece UInt8 × Nat) (text : Bytes) (s s' : Scanner)
    (count : Nat) : Prop where
  reads : s'.Reads text
  content : s'.AtContent
  further : s.pos < s'.pos
  some : 0 < count
  yields : ∃ pieces, Yields unit text s.pos s'.pos pieces ∧ Lines count pieces

theorem crosses_of_skip (lines : ReadsLines unit) {count : Nat} {s s' : Scanner}
    (reads : s.Reads text) (isBr : isBreak s.peek = true)
    (skipped : s.skipBreakLines s.remaining 0 = (s', count)) : Crosses unit text s s' count := by
  have notEnd := notEnd_of_isBreak reads isBr
  obtain ⟨n, pieces, total, yields, isLines, content, some⟩ :=
    skipBreakLines_yields lines 0 reads (Nat.le_refl s.remaining) (.inr isBr)
  have moved := (skipBreakLines_loop noEscape s.remaining reads 0)
  rw [skipped] at total yields content moved
  dsimp only at total yields content moved
  rw [Nat.zero_add] at total
  subst total
  refine ⟨moved.reads, content, Nat.lt_of_le_of_ne moved.pos_le fun same => ?_, some notEnd,
    pieces, yields, isLines⟩
  rw [Scanner.AtContent, moved.reads.atEnd_iff, moved.reads.peek_eq, ← same, ← reads.peek_eq,
    ← reads.atEnd_iff, notEnd, isBlankOrBreak, isBr, Bool.or_true] at content
  rcases content with ended | plain
  · cases ended
  · cases plain

/-- Folding across breaks. -/
theorem Crosses.readOn_eq (lines : ReadsLines unit) {count last : Nat} {s s' : Scanner}
    (crosses : Crosses unit text s s' count) (past : s'.pos ≤ last) (within : last ≤ text.length)
    (out : Bytes) :
    readOn space lf isBlank out (units unit 0 (textSlice text s.pos last)) =
      readOn space lf isBlank (trimBlanks out ++ foldBreaks count)
        (units unit 0 (textSlice text s'.pos last)) := by
  obtain ⟨pieces, yields, isLines⟩ := crosses.yields
  rw [yields.cut last past within]
  exact readOn_lines isLines crosses.some (crosses.content.starts lines crosses.reads within) out

end

end Oyl
