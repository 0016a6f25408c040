import Oyl.Logic.Lines
import Oyl.Scanner.Token
import Mathlib.Logic.Relation

/-!
# How the scanner's position moves

The scanner's mark moves over a text byte by byte and from line to line.  Every
scanning function follows such a path, and what holds of the marks on a path
follows from its single moves.
-/

namespace Oyl

/-- The byte of a text at an offset, NUL past its end. -/
def byteAt (text : Bytes) (offset : Nat) : UInt8 := text.getD offset 0

/-- Does a line break of the text end at an offset? -/
def breakEnds (text : Bytes) (offset : Nat) : Bool :=
  byteAt text offset == lf ||
    (byteAt text offset == cr && byteAt text (offset + 1) != lf)

/-- The offset past the line break at an offset. -/
def breakStop (text : Bytes) (offset : Nat) : Nat :=
  if byteAt text offset == cr && byteAt text (offset + 1) == lf then offset + 2 else offset + 1

/-- A carriage return that is no part of a CRLF. -/
def loneCr (text : Bytes) (offset : Nat) : Bool :=
  byteAt text offset == cr && byteAt text (offset + 1) != lf

/-- `---` or `...` at an offset, then a blank, a break or the end of the text. -/
def markerAt (text : Bytes) (offset : Nat) : Bool :=
  let c := byteAt text offset
  (c == dash || c == dot) && byteAt text (offset + 1) == c && byteAt text (offset + 2) == c &&
    (text.length == offset + 3 || isBlankOrBreak (byteAt text (offset + 3)))

/-- The mark past a line break. -/
def Mark.cross (text : Bytes) (m : Mark) : Mark := ⟨breakStop text m.offset, m.line + 1, 1⟩

/-- The mark past the line break of an escaped break, where a lone carriage
return is not counted. -/
def Mark.escape (text : Bytes) (m : Mark) : Mark :=
  if loneCr text m.offset then ⟨m.offset + 1, m.line, m.col + 1⟩ else m.cross text

/-- One move over a text.  `lands` holds where lines may be entered, `escapes`
where breaks are escaped. -/
inductive Move (text : Bytes) (lands escapes : Nat → Prop) : Mark → Mark → Prop
  | byte {m : Mark} : m.offset < text.length → isBreak (byteAt text m.offset) = false →
      Move text lands escapes m ⟨m.offset + 1, m.line, m.col + 1⟩
  | cross {m : Mark} : isBreak (byteAt text m.offset) = true → lands (breakStop text m.offset) →
      Move text lands escapes m (m.cross text)
  | escape {m : Mark} : isBreak (byteAt text m.offset) = true → escapes m.offset →
      Move text lands escapes m (m.escape text)

def Path (text : Bytes) (lands escapes : Nat → Prop) : Mark → Mark → Prop :=
  Relation.ReflTransGen (Move text lands escapes)

/-- No break is escaped. -/
def noEscape (_ : Nat) : Prop := False

/-- The mark agrees with the text: its line and its column are those of its offset. -/
structure Mark.Accurate (text : Bytes) (begins : Nat) (m : Mark) : Prop where
  begun : begins ≤ m.offset
  line : m.line = Lines.line (breakEnds text) begins m.offset
  col : m.col = Lines.column (breakEnds text) begins m.offset

/-- The mark is at column 1 if its offset starts a line. -/
def Mark.Opens (text : Bytes) (begins : Nat) (m : Mark) : Prop :=
  Lines.Starts (breakEnds text) begins m.offset → m.col = 1

section

variable {text : Bytes}

theorem breakEnds_of_not_isBreak {offset : Nat} (plain : isBreak (byteAt text offset) = false) :
    breakEnds text offset = false := by
  simp only [isBreak, Bool.or_eq_false_iff] at plain
  simp only [breakEnds, plain.1, plain.2, Bool.false_and, Bool.or_false]

theorem lt_length_of_isBreak {offset : Nat} (isBr : isBreak (byteAt text offset) = true) :
    offset < text.length := by
  by_contra outside
  rw [byteAt, List.getD_eq_getElem?_getD, List.getElem?_eq_none (by omega)] at isBr
  cases isBr

/-- A break ends one byte before the offset past it, and nowhere before. -/
theorem breakStop_cases {offset : Nat} (isBr : isBreak (byteAt text offset) = true) :
    breakStop text offset = offset + 1 ∧ breakEnds text offset = true ∨
      breakStop text offset = offset + 2 ∧ breakEnds text offset = false ∧
        breakEnds text (offset + 1) = true ∧ loneCr text offset = false := by
  simp only [isBreak, Bool.or_eq_true, beq_iff_eq] at isBr
  rcases isBr with isLf | isCr
  · left
    simp only [breakStop, breakEnds, isLf]
    exact ⟨rfl, rfl⟩
  · by_cases followed : byteAt text (offset + 1) = lf
    · right
      simp only [breakStop, breakEnds, loneCr, isCr, followed]
      exact ⟨rfl, rfl, rfl, rfl⟩
    · left
      simp [breakStop, breakEnds, isCr, followed]

theorem lt_breakStop {offset : Nat} (isBr : isBreak (byteAt text offset) = true) :
    offset < breakStop text offset := by
  rcases breakStop_cases isBr with ⟨one, _⟩ | ⟨two, _⟩ <;> omega

theorem breakStop_le {offset : Nat} (isBr : isBreak (byteAt text offset) = true) :
    breakStop text offset ≤ text.length := by
  have inside := lt_length_of_isBreak isBr
  rcases breakStop_cases isBr with ⟨stop, _⟩ | ⟨stop, _, isEnd, _⟩
  · omega
  · have more : isBreak (byteAt text (offset + 1)) = true := by
      cases isBreak' : isBreak (byteAt text (offset + 1)) with
      | true => rfl
      | false =>
          rw [breakEnds_of_not_isBreak isBreak'] at isEnd
          cases isEnd
    have := lt_length_of_isBreak more
    omega

theorem Mark.escape_offset {m : Mark} (isBr : isBreak (byteAt text m.offset) = true) :
    (m.escape text).offset = breakStop text m.offset := by
  unfold Mark.escape
  split
  · rename_i lone
    rcases breakStop_cases isBr with ⟨stop, _⟩ | ⟨_, _, _, both⟩
    · exact stop.symm
    · rw [lone] at both
      cases both
  · rfl

/-- What lies between the ends of a break is no start of a line. -/
theorem starts_of_break {begins offset o : Nat} (inside : begins ≤ offset)
    (isBr : isBreak (byteAt text offset) = true) (later : offset < o)
    (within : o ≤ breakStop text offset) (starts : Lines.Starts (breakEnds text) begins o) :
    o = breakStop text offset := by
  rcases breakStop_cases isBr with ⟨stop, _⟩ | ⟨stop, notEnd, _, _⟩
  · omega
  · by_contra between
    have here : o = offset + 1 := by omega
    subst here
    rw [Lines.starts_succ inside, notEnd] at starts
    cases starts

end

/-! ### Moves -/

section

variable {text : Bytes} {lands escapes : Nat → Prop} {m m' : Mark}

theorem Move.forward (move : Move text lands escapes m m') : m.offset < m'.offset := by
  have past {m : Mark} (isBr : isBreak (byteAt text m.offset) = true) :
      m.offset < breakStop text m.offset := by
    rcases breakStop_cases isBr with ⟨stop, _⟩ | ⟨stop, _⟩ <;> omega
  cases move with
  | byte => exact Nat.lt_succ_self _
  | cross isBr => exact past isBr
  | escape isBr => exact Mark.escape_offset isBr ▸ past isBr

theorem Move.inside (move : Move text lands escapes m m') : m'.offset ≤ text.length := by
  cases move with
  | byte inside => exact inside
  | cross isBr => exact breakStop_le isBr
  | escape isBr => exact Mark.escape_offset isBr ▸ breakStop_le isBr

theorem Mark.Accurate.cross {begins : Nat} (accurate : m.Accurate text begins)
    (isBr : isBreak (byteAt text m.offset) = true) : (m.cross text).Accurate text begins := by
  obtain ⟨begun, line, col⟩ := accurate
  rcases breakStop_cases isBr with ⟨stop, isEnd⟩ | ⟨stop, notEnd, isEnd, _⟩ <;>
    simp only [Mark.cross, stop]
  · refine ⟨by dsimp only; omega, ?_, ?_⟩ <;> dsimp only
    · rw [Lines.line_cross begun isEnd, line]
    · rw [Lines.column_cross begun isEnd]
  · have begun' : begins ≤ m.offset + 1 := by omega
    refine ⟨by dsimp only; omega, ?_, ?_⟩ <;> dsimp only
    · rw [Lines.line_cross begun' isEnd, Lines.line_over begun notEnd, line]
    · rw [Lines.column_cross begun' isEnd]

/-- A move keeps the mark accurate unless a lone carriage return is escaped. -/
theorem Move.accurate {begins : Nat} (move : Move text lands escapes m m')
    (counted : ∀ o, escapes o → loneCr text o = false) (accurate : m.Accurate text begins) :
    m'.Accurate text begins := by
  cases move with
  | byte inside plain =>
      obtain ⟨begun, line, col⟩ := accurate
      have notEnd := breakEnds_of_not_isBreak plain
      refine ⟨Nat.le_succ_of_le begun, ?_, ?_⟩ <;> dsimp only
      · rw [Lines.line_over begun notEnd, line]
      · rw [Lines.column_over begun notEnd, col]
  | cross isBr => exact accurate.cross isBr
  | escape isBr escaped =>
      rw [Mark.escape, counted _ escaped]
      exact accurate.cross isBr

/-- The lines that a move enters. -/
theorem Move.enters {begins o : Nat} (move : Move text lands escapes m m')
    (begun : begins ≤ m.offset) (later : m.offset < o) (within : o ≤ m'.offset)
    (starts : Lines.Starts (breakEnds text) begins o) :
    lands o ∨ ∃ e, escapes e ∧ isBreak (byteAt text e) = true ∧ o = breakStop text e := by
  cases move with
  | byte _ plain =>
      dsimp only at within
      have here : o = m.offset + 1 := by omega
      subst here
      rw [Lines.starts_succ begun, breakEnds_of_not_isBreak plain] at starts
      cases starts
  | cross isBr landed =>
      left
      rw [starts_of_break begun isBr later within starts]
      exact landed
  | escape isBr escaped =>
      right
      rw [Mark.escape_offset isBr] at within
      exact ⟨m.offset, escaped, isBr, starts_of_break begun isBr later within starts⟩

/-- Without escaped breaks a line is entered at column 1. -/
theorem Move.opens {begins : Nat} (move : Move text lands noEscape m m')
    (begun : begins ≤ m.offset) : m'.Opens text begins := by
  cases move with
  | byte _ plain =>
      intro starts
      rw [Lines.starts_succ begun, breakEnds_of_not_isBreak plain] at starts
      cases starts
  | cross => exact fun _ => rfl
  | escape _ escaped => exact escaped.elim

/-- On one line the column counts the bytes. -/
theorem Move.column (move : Move text lands escapes m m') :
    m.line < m'.line ∨ m'.line = m.line ∧ m'.col + m.offset = m.col + m'.offset := by
  cases move with
  | byte =>
      right
      exact ⟨rfl, by dsimp only; omega⟩
  | cross => exact .inl (Nat.lt_succ_self _)
  | escape isBr =>
      unfold Mark.escape
      split
      · right
        exact ⟨rfl, by dsimp only; omega⟩
      · exact .inl (Nat.lt_succ_self _)

theorem Move.mono {lands' escapes' : Nat → Prop} (move : Move text lands escapes m m')
    (landing : ∀ o, lands o → lands' o) (escaping : ∀ o, escapes o → escapes' o) :
    Move text lands' escapes' m m' := by
  cases move with
  | byte inside plain => exact .byte inside plain
  | cross isBr landed => exact .cross isBr (landing _ landed)
  | escape isBr escaped => exact .escape isBr (escaping _ escaped)

/-! ### Paths -/

theorem Path.offset_le (path : Path text lands escapes m m') : m.offset ≤ m'.offset := by
  induction path with
  | refl => exact Nat.le_refl _
  | tail _ move ih => exact Nat.le_trans ih (Nat.le_of_lt move.forward)

theorem Path.inside (path : Path text lands escapes m m') (inside : m.offset ≤ text.length) :
    m'.offset ≤ text.length := by
  cases path with
  | refl => exact inside
  | tail _ move => exact move.inside

theorem Path.accurate {begins : Nat} (path : Path text lands escapes m m')
    (counted : ∀ o, escapes o → loneCr text o = false) (accurate : m.Accurate text begins) :
    m'.Accurate text begins := by
  induction path with
  | refl => exact accurate
  | tail _ move ih => exact move.accurate counted ih

/-- The lines that a path enters. -/
theorem Path.enters {begins o : Nat} (path : Path text lands escapes m m')
    (begun : begins ≤ m.offset) (later : m.offset < o) (within : o ≤ m'.offset)
    (starts : Lines.Starts (breakEnds text) begins o) :
    lands o ∨ ∃ e, escapes e ∧ isBreak (byteAt text e) = true ∧ o = breakStop text e := by
  induction path with
  | refl => omega
  | @tail q q' before move ih =>
      by_cases early : o ≤ q.offset
      · exact ih early
      · exact move.enters (Nat.le_trans begun (Path.offset_le before)) (by omega) within starts

theorem Path.opens {begins : Nat} (path : Path text lands noEscape m m')
    (begun : begins ≤ m.offset) (opens : m.Opens text begins) : m'.Opens text begins := by
  cases path with
  | refl => exact opens
  | tail before move => exact move.opens (Nat.le_trans begun (Path.offset_le before))

theorem Path.column (path : Path text lands escapes m m') :
    m.line < m'.line ∨ m'.line = m.line ∧ m'.col + m.offset = m.col + m'.offset := by
  induction path with
  | refl => exact .inr ⟨rfl, rfl⟩
  | tail _ move ih =>
      have next := move.column
      omega

/-- No column is past the offset. -/
theorem Path.col_le (path : Path text lands escapes m m') (within : m.col ≤ m.offset + 1) :
    m'.col ≤ m'.offset + 1 := by
  induction path with
  | refl => exact within
  | tail _ move ih =>
      cases move with
      | byte _ _ => exact Nat.succ_le_succ ih
      | cross _ _ => exact Nat.le_add_left 1 _
      | escape _ _ =>
          rw [Mark.escape]
          split
          · exact Nat.succ_le_succ ih
          · exact Nat.le_add_left 1 _

theorem Path.mono {lands' escapes' : Nat → Prop} (path : Path text lands escapes m m')
    (landing : ∀ o, lands o → lands' o) (escaping : ∀ o, escapes o → escapes' o) :
    Path text lands' escapes' m m' := by
  induction path with
  | refl => exact .refl
  | tail _ move ih => exact .tail ih (move.mono landing escaping)

end

end Oyl
