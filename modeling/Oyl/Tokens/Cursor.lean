import Oyl.Tokens.Moves
import Oyl.Logic.StateError

/-!
# The cursor helpers

Each helper that moves the scanner's cursor follows a path over the text.
-/

namespace Oyl

open StateError

/-- The scanner reads a text. -/
structure Scanner.Reads (text : Bytes) (s : Scanner) : Prop where
  buf : s.buf = text
  len : s.len = text.length
  inside : s.pos ≤ text.length

/-- What reading a token leaves alone. -/
def Scanner.settings (s : Scanner) : Nat × List Token × Bool × Bool :=
  (s.begins, s.pending, s.streamStarted, s.streamEnded)

/-- The scanner's position follows a path over the text. -/
structure Moves (text : Bytes) (lands escapes : Nat → Prop) (s s' : Scanner) : Prop where
  reads : s'.Reads text
  settings : s'.settings = s.settings
  path : Path text lands escapes s.mark s'.mark

/-- No document marker is at an offset. -/
def unmarked (text : Bytes) (offset : Nat) : Prop := markerAt text offset = false

/-- Any line may be entered. -/
def anyLine (_ : Nat) : Prop := True

theorem unmarked_of_byte {text : Bytes} {offset : Nat} (notDash : byteAt text offset ≠ dash)
    (notDot : byteAt text offset ≠ dot) : unmarked text offset := by
  simp [unmarked, markerAt, notDash, notDot]

theorem unmarked_of_blankOrBreak {text : Bytes} {offset : Nat}
    (gap : isBlankOrBreak (byteAt text offset) = true) : unmarked text offset := by
  apply unmarked_of_byte <;> intro same <;> rw [same] at gap <;> cases gap

theorem byteAt_outside {text : Bytes} {offset : Nat} (outside : text.length ≤ offset) :
    byteAt text offset = 0 := by
  rw [byteAt, List.getD_eq_getElem?_getD, List.getElem?_eq_none outside]
  rfl

theorem unmarked_outside {text : Bytes} {offset : Nat} (outside : text.length ≤ offset) :
    unmarked text offset := by
  apply unmarked_of_byte <;> rw [byteAt_outside outside] <;> decide

/-! ### Runs -/

theorem runLength_le (p : UInt8 → Bool) (bytes : Bytes) : runLength p bytes ≤ bytes.length := by
  induction bytes with
  | nil => exact Nat.le_refl _
  | cons c rest ih =>
      rw [runLength]
      split
      · exact Nat.succ_le_succ ih
      · exact Nat.zero_le _

theorem runLength_all (p : UInt8 → Bool) (bytes : Bytes) {i : Nat}
    (within : i < runLength p bytes) : p (bytes.getD i 0) = true := by
  induction bytes generalizing i with
  | nil => cases within
  | cons c rest ih =>
      rw [runLength] at within
      split at within
      · cases i with
        | zero => assumption
        | succ i => exact ih (Nat.lt_of_succ_lt_succ within)
      · cases within

/-- The byte after a run does not belong to it. -/
theorem runLength_next (p : UInt8 → Bool) (bytes : Bytes)
    (inside : runLength p bytes < bytes.length) :
    p (bytes.getD (runLength p bytes) 0) = false := by
  induction bytes with
  | nil => cases inside
  | cons c rest ih =>
      rw [runLength] at inside ⊢
      split
      · rename_i isRun
        rw [if_pos isRun] at inside
        exact ih (Nat.lt_of_succ_lt_succ inside)
      · rename_i notRun
        simpa using notRun

/-- A list that starts with no element of a class. -/
def Halts (p : UInt8 → Bool) (rest : Bytes) : Prop := ∀ c ∈ rest.head?, p c = false

/-- The longest run at the front of a list. -/
theorem exists_run (p : UInt8 → Bool) (bytes : Bytes) :
    ∃ run rest, bytes = run ++ rest ∧ (∀ c ∈ run, p c = true) ∧ Halts p rest := by
  induction bytes with
  | nil => exact ⟨[], [], rfl, by simp, by simp [Halts]⟩
  | cons c bytes ih =>
      obtain ⟨run, rest, rfl, all, halts⟩ := ih
      cases isRun : p c with
      | true =>
          refine ⟨c :: run, rest, rfl, ?_, halts⟩
          intro d member
          rcases List.mem_cons.mp member with rfl | member
          · exact isRun
          · exact all d member
      | false =>
          refine ⟨[], c :: (run ++ rest), rfl, by simp, ?_⟩
          intro d isHead
          cases isHead
          exact isRun

theorem runLength_run {p : UInt8 → Bool} {run rest : Bytes} (all : ∀ c ∈ run, p c = true)
    (halts : Halts p rest) : runLength p (run ++ rest) = run.length := by
  induction run with
  | nil =>
      cases rest with
      | nil => rfl
      | cons c rest =>
          rw [List.nil_append, runLength, halts c rfl]
          rfl
  | cons c run ih =>
      rw [List.cons_append, runLength, if_pos (all c List.mem_cons_self),
        ih fun d member => all d (List.mem_cons_of_mem _ member)]
      rfl

theorem runLength_whole {p : UInt8 → Bool} {run : Bytes} (all : ∀ c ∈ run, p c = true) :
    runLength p run = run.length := by
  have halts : Halts p [] := fun _ impossible => by cases impossible
  have whole := runLength_run all halts
  rwa [List.append_nil] at whole

theorem drop_run {p : UInt8 → Bool} {run rest : Bytes} (all : ∀ c ∈ run, p c = true)
    (halts : Halts p rest) : (run ++ rest).drop (runLength p (run ++ rest)) = rest := by
  rw [runLength_run all halts, List.drop_left]

theorem getD_drop (text : Bytes) (first i : Nat) :
    (text.drop first).getD i 0 = byteAt text (first + i) := by
  simp [byteAt]

theorem drop_eq_cons {text : Bytes} {offset : Nat} (inside : offset < text.length) :
    text.drop offset = byteAt text offset :: text.drop (offset + 1) := by
  rw [List.drop_eq_getElem_cons inside, byteAt, List.getD_eq_getElem?_getD,
    List.getElem?_eq_getElem inside]
  rfl

theorem Scanner.rest_advanceCols (s : Scanner) (n : Nat) :
    (s.advanceCols n).rest = s.rest.drop n := by
  rw [rest, rest, Scanner.advanceCols, List.drop_drop]

namespace Scanner.Reads

variable {text : Bytes} {s s' : Scanner} (reads : s.Reads text)

include reads

theorem byte_eq (i : Nat) : s.byte i = byteAt text i := by
  rw [byte, reads.buf, byteAt]

theorem peekAt_eq (n : Nat) : s.peekAt n = byteAt text (s.pos + n) := by
  rw [peekAt, reads.byte_eq, reads.len]
  split
  · rfl
  · exact (byteAt_outside (by omega)).symm

theorem peek_eq : s.peek = byteAt text s.pos := reads.peekAt_eq 0

theorem rest_eq : s.rest = text.drop s.pos := by rw [rest, reads.buf]

theorem atEnd_iff : s.atEnd = true ↔ text.length ≤ s.pos := by
  simp [atEnd, reads.len]

theorem isDocIndicatorAt_eq (pos : Nat) : s.isDocIndicatorAt pos = markerAt text pos := by
  rw [isDocIndicatorAt, reads.len, reads.byte_eq, reads.byte_eq, reads.byte_eq, reads.byte_eq,
    markerAt]
  split
  · rename_i short
    -- the third byte is past the end
    have outside : byteAt text (pos + 2) = 0 := byteAt_outside (by omega)
    rw [outside]
    by_cases isDash : byteAt text pos = dash
    · simp [isDash, show ¬ (0 : UInt8) = dash by decide]
    by_cases isDot : byteAt text pos = dot
    · simp [isDot, show ¬ (0 : UInt8) = dot by decide]
    · simp [isDash, isDot]
  · rw [Bool.beq_comm (a := pos + 3)]

theorem of_same (buf : s'.buf = s.buf) (len : s'.len = s.len) (inside : s'.pos ≤ text.length) :
    s'.Reads text :=
  ⟨buf.trans reads.buf, len.trans reads.len, inside⟩

theorem advanceCols {n : Nat} (within : s.pos + n ≤ text.length) : (s.advanceCols n).Reads text :=
  reads.of_same rfl rfl within

theorem run_within (p : UInt8 → Bool) : s.pos + runLength p s.rest ≤ text.length := by
  have short := runLength_le p s.rest
  have inside := reads.inside
  rw [reads.rest_eq, List.length_drop] at short
  rw [reads.rest_eq]
  omega

/-- A run ends at the end of the text, or before a byte that does not belong to it. -/
theorem run_stop (p : UInt8 → Bool) :
    (s.advanceCols (runLength p s.rest)).atEnd = true ∨
      p (s.advanceCols (runLength p s.rest)).peek = false := by
  have read := reads.advanceCols (reads.run_within p)
  by_cases ended : (s.advanceCols (runLength p s.rest)).atEnd = true
  · exact .inl ended
  · right
    rw [read.atEnd_iff] at ended
    have inside : s.pos + runLength p s.rest < text.length := Nat.not_le.mp ended
    have next := runLength_next p s.rest (by
      rw [reads.rest_eq, List.length_drop]
      rw [reads.rest_eq] at inside
      omega)
    rw [read.peek_eq, ← next, reads.rest_eq, getD_drop]
    rfl

end Scanner.Reads

theorem drop_cons {text : Bytes} {pos : Nat} {c : UInt8} {more : Bytes}
    (isRest : text.drop pos = c :: more) :
    pos + 1 ≤ text.length ∧ byteAt text pos = c ∧ text.drop (pos + 1) = more := by
  have inside : pos < text.length := by
    by_contra outside
    rw [List.drop_eq_nil_of_le (Nat.not_lt.mp outside)] at isRest
    cases isRest
  rw [drop_eq_cons inside] at isRest
  exact ⟨inside, (List.cons.inj isRest).1, (List.cons.inj isRest).2⟩

theorem peek_of_rest {text : Bytes} {s : Scanner} {c : UInt8} {more : Bytes} (reads : s.Reads text)
    (isRest : s.rest = c :: more) :
    s.pos < text.length ∧ s.peek = c ∧ text.drop (s.pos + 1) = more := by
  rw [reads.rest_eq] at isRest
  obtain ⟨inside, isByte, isMore⟩ := drop_cons isRest
  exact ⟨inside, reads.peek_eq.trans isByte, isMore⟩

/-! ### Moves of the cursor -/

namespace Moves

variable {text : Bytes} {lands escapes : Nat → Prop} {s s' t : Scanner}

theorem refl (reads : s.Reads text) : Moves text lands escapes s s := ⟨reads, rfl, .refl⟩

theorem trans (first : Moves text lands escapes s t) (second : Moves text lands escapes t s') :
    Moves text lands escapes s s' :=
  ⟨second.reads, second.settings.trans first.settings,
    Relation.ReflTransGen.trans first.path second.path⟩

/-- Fields other than the text and the position change. -/
theorem keep (reads : s.Reads text) (buf : s'.buf = s.buf) (len : s'.len = s.len)
    (settings : s'.settings = s.settings) (mark : s'.mark = s.mark) :
    Moves text lands escapes s s' :=
  ⟨reads.of_same buf len (Nat.le_trans (Nat.le_of_eq (congrArg Mark.offset mark)) reads.inside),
    settings, mark ▸ .refl⟩

theorem mono {lands' escapes' : Nat → Prop} (moves : Moves text lands escapes s s')
    (landing : ∀ o, lands o → lands' o) (escaping : ∀ o, escapes o → escapes' o) :
    Moves text lands' escapes' s s' :=
  ⟨moves.reads, moves.settings, moves.path.mono landing escaping⟩

theorem begins (moves : Moves text lands escapes s s') : s'.begins = s.begins :=
  congrArg Prod.fst moves.settings

theorem pos_le (moves : Moves text lands escapes s s') : s.pos ≤ s'.pos := moves.path.offset_le

theorem byte (reads : s.Reads text) (inside : s.pos < text.length)
    (plain : isBreak (byteAt text s.pos) = false) :
    Moves text lands escapes s { s with pos := s.pos + 1, col := s.col + 1 } :=
  ⟨reads.of_same rfl rfl inside, rfl, .single (.byte inside plain)⟩

theorem advanceCols {n : Nat} (reads : s.Reads text)
    (plain : ∀ i < n, isBreak (byteAt text (s.pos + i)) = false)
    (within : s.pos + n ≤ text.length) : Moves text lands escapes s (s.advanceCols n) := by
  induction n with
  | zero => exact keep reads rfl rfl rfl rfl
  | succ n ih =>
      have before := ih (fun i below => plain i (Nat.lt_succ_of_lt below)) (by omega)
      have last : Moves text lands escapes (s.advanceCols n)
          { s.advanceCols n with
            pos := (s.advanceCols n).pos + 1, col := (s.advanceCols n).col + 1 } :=
        byte before.reads (by simp only [Scanner.advanceCols]; omega)
          (plain n (Nat.lt_succ_self n))
      exact before.trans last

/-- The cursor passes a run of bytes that are no breaks. -/
theorem run {p : UInt8 → Bool} (reads : s.Reads text)
    (plain : ∀ c, p c = true → isBreak c = false) :
    Moves text lands escapes s (s.advanceCols (runLength p s.rest)) := by
  apply advanceCols reads
  · intro i below
    apply plain
    rw [← getD_drop, ← reads.rest_eq]
    exact runLength_all p s.rest below
  · exact reads.run_within p

theorem advance (reads : s.Reads text) (plain : isBreak s.peek = false) :
    Moves text lands escapes s (s.advance 1) := by
  rw [reads.peek_eq] at plain
  simp only [Scanner.advance]
  split
  · rename_i inside
    rw [reads.len] at inside
    split
    · rename_i isLf
      rw [reads.byte_eq] at isLf
      rw [beq_iff_eq.mp isLf] at plain
      cases plain
    · exact byte reads inside plain
  · exact refl reads

theorem advance_succ (s : Scanner) (n : Nat) : s.advance (n + 1) = (s.advance 1).advance n := by
  by_cases inside : s.pos < s.len
  · simp only [Scanner.advance, if_pos inside]
    split <;> rfl
  · have stuck (n : Nat) : s.advance n = s := by
      cases n with
      | zero => rfl
      | succ n => rw [Scanner.advance, if_neg inside]
    rw [stuck, stuck, stuck]

theorem advance_pos (reads : s.Reads text) (inside : s.pos < text.length) :
    (s.advance 1).pos = s.pos + 1 := by
  simp only [Scanner.advance, reads.len, if_pos inside]
  split <;> rfl

/-- A byte that is no break moves the column. -/
theorem advance_plain (reads : s.Reads text) (inside : s.atEnd = false)
    (plain : isBreak s.peek = false) : s.advance 1 = s.advanceCols 1 := by
  have within : s.pos < s.len := by simpa [Scanner.atEnd] using inside
  have notLf : (s.byte s.pos == lf) = false := by
    rw [reads.byte_eq, ← reads.peek_eq]
    exact (Bool.or_eq_false_iff.mp plain).1
  rw [Scanner.advance, if_pos within, notLf]
  rfl

/-- The cursor advances over bytes that are no breaks. -/
theorem advanceBy {n : Nat} (reads : s.Reads text)
    (plain : ∀ i < n, isBreak (byteAt text (s.pos + i)) = false) :
    Moves text lands escapes s (s.advance n) := by
  induction n generalizing s with
  | zero => exact refl reads
  | succ n ih =>
      rw [advance_succ]
      have first : Moves text lands escapes s (s.advance 1) :=
        advance reads (by rw [reads.peek_eq]; exact plain 0 (Nat.succ_pos n))
      refine first.trans (ih first.reads fun i below => ?_)
      by_cases inside : s.pos < text.length
      · rw [advance_pos reads inside, Nat.add_assoc, Nat.add_comm 1]
        exact plain (i + 1) (Nat.succ_lt_succ below)
      · rw [byteAt_outside (by have := first.pos_le; omega)]
        rfl

/-- `skip_break` at a break. -/
theorem skipBreak_eq (reads : s.Reads text) (isBr : isBreak (byteAt text s.pos) = true) :
    s.skipBreak = { s with pos := breakStop text s.pos, line := s.line + 1, col := 1 } := by
  have inside := lt_length_of_isBreak isBr
  rw [Scanner.skipBreak, reads.len, if_neg (Nat.not_le.mpr inside), reads.byte_eq,
    reads.byte_eq, breakStop]
  simp only [isBreak, Bool.or_eq_true, beq_iff_eq] at isBr
  rcases isBr with isLf | isCr
  · rw [isLf]
    rfl
  · rw [isCr]
    by_cases followed : byteAt text (s.pos + 1) = lf
    · have inside' : s.pos + 1 < text.length := by
        apply lt_length_of_isBreak
        rw [followed]
        rfl
      rw [followed, decide_eq_true inside']
      rfl
    · rw [beq_false_of_ne followed, Bool.and_false, Bool.and_false]
      rfl

theorem skipBreak (reads : s.Reads text) (isBr : isBreak s.peek = true)
    (landed : lands (breakStop text s.pos)) : Moves text lands escapes s s.skipBreak := by
  rw [reads.peek_eq] at isBr
  rw [skipBreak_eq reads isBr]
  have move : Move text lands escapes s.mark (s.mark.cross text) := .cross isBr landed
  exact ⟨reads.of_same rfl rfl (breakStop_le isBr), rfl, .single move⟩

end Moves

/-! ### Lines inside a scalar -/

section

variable {text : Bytes} {lands escapes : Nat → Prop} {s : Scanner}

theorem isBreak_of_isBlank {c : UInt8} (blank : isBlank c = true) : isBreak c = false := by
  simp only [isBlank, Bool.or_eq_true, beq_iff_eq] at blank
  rcases blank with rfl | rfl <;> rfl

theorem skipBlanks_moves (reads : s.Reads text) :
    Moves text lands escapes s (s.advanceCols (skipBlanks s.rest)) :=
  .run reads fun _ blank => isBreak_of_isBlank blank

variable (escapes) in
theorem skipBreakLines_loop (fuel : Nat) (reads : s.Reads text) (count : Nat) :
    Moves text
      (fun o => unmarked text o ∨ o = (s.skipBreakLines fuel count).1.pos ∧
        (s.skipBreakLines fuel count).1.col = 1)
      escapes s (s.skipBreakLines fuel count).1 := by
  induction fuel generalizing s count with
  | zero => exact .refl reads
  | succ fuel ih =>
      rw [Scanner.skipBreakLines]
      split
      · exact .refl reads
      rename_i isBr
      simp only [Bool.or_eq_true, Bool.not_eq_true', not_or, Bool.not_eq_false] at isBr
      have crossed : Moves text anyLine escapes s s.skipBreak :=
        .skipBreak reads isBr.2 trivial
      have landing : s.skipBreak.pos = breakStop text s.pos ∧ s.skipBreak.col = 1 := by
        rw [Moves.skipBreak_eq reads (reads.peek_eq ▸ isBr.2)]
        exact ⟨rfl, rfl⟩
      have cross {lands : Nat → Prop} (landed : lands s.skipBreak.pos) :
          Moves text lands escapes s s.skipBreak :=
        .skipBreak reads isBr.2 (landing.1 ▸ landed)
      dsimp only
      generalize s.skipBreak = start at crossed landing cross
      have blanks {lands : Nat → Prop} : Moves text lands escapes start
          (start.advanceCols (skipBlanks start.rest)) := skipBlanks_moves crossed.reads
      have reads' : (start.advanceCols (skipBlanks start.rest)).Reads text :=
        (blanks : Moves text anyLine escapes _ _).reads
      have fresh : skipBlanks start.rest = 0 ∨ unmarked text start.pos := by
        by_cases none : skipBlanks start.rest = 0
        · exact .inl none
        · right
          have first := runLength_all isBlank start.rest (Nat.pos_of_ne_zero none)
          rw [crossed.reads.rest_eq, getD_drop] at first
          exact unmarked_of_blankOrBreak (Bool.or_eq_true_iff.mpr (.inl first))
      have isStart (none : skipBlanks start.rest = 0) :
          start.advanceCols (skipBlanks start.rest) = start := by
        rw [none]
        rfl
      split
      · -- the line has content
        refine (cross ?_).trans blanks
        rcases fresh with none | ready
        · right
          rw [isStart none]
          exact ⟨rfl, landing.2⟩
        · exact .inl ready
      · rename_i blankLine
        refine (cross ?_).trans (blanks.trans (ih reads' (count + 1)))
        left
        rcases fresh with none | ready
        · rw [isStart none] at blankLine
          simp only [Bool.and_eq_true, Bool.not_eq_true', not_and, Bool.not_eq_false] at blankLine
          by_cases ended : start.atEnd = true
          · exact unmarked_outside (crossed.reads.atEnd_iff.mp ended)
          · have isBr' := blankLine (Bool.eq_false_iff.mpr ended)
            rw [crossed.reads.peek_eq] at isBr'
            exact unmarked_of_blankOrBreak (Bool.or_eq_true_iff.mpr (.inr isBr'))
        · exact ready

/-- Breaks are crossed to a line that is no document marker. -/
theorem skipBreakLines_moves {fuel : Nat} {count : Nat} (reads : s.Reads text)
    (clear : (s.skipBreakLines fuel count).1.col = 1 →
      unmarked text (s.skipBreakLines fuel count).1.pos) :
    Moves text (unmarked text) escapes s (s.skipBreakLines fuel count).1 := by
  refine (skipBreakLines_loop escapes fuel reads count).mono (fun o landed => ?_) fun _ => id
  rcases landed with ready | ⟨rfl, atStart⟩
  · exact ready
  · exact clear atStart

end

end Oyl
