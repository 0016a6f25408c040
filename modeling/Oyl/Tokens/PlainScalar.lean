import Oyl.Tokens.Dispatch
import Oyl.Tokens.Pieces

/-!
# Plain scalars

A plain scalar extends over bytes, blanks and lines that it may go on to.  Its value is
the text it extends over with its lines folded, up to the last byte of content.
-/

namespace Oyl

open StateError Folding

namespace Scanner

/-- May the byte at the cursor be part of a plain scalar? -/
def plainByte (s : Scanner) : Bool :=
  let c := s.peek
  let next := s.peekAt 1
  if s.atEnd || isBreak c then false
  else if c == colon then
    !isBlankOrBreak next && next != 0 && !(s.flowLevel > 0 && isFlow next)
  else if c == hash then !isBlank (s.byte (s.pos - 1))
  else !(s.flowLevel > 0 && isFlow c)

/-- The lines from a break to the line that a plain scalar goes on to. -/
structure GoesOn (s next : Scanner) (count : Nat) : Prop where
  isBreak : isBreak s.peek = true
  skipped : s.skipBreakLines s.remaining 0 = (next, count)
  inside : next.atEnd = false
  goesOn : next.plainLineEnds = false

/-- A step over the text of a plain scalar. -/
inductive PlainStep (s : Scanner) : Scanner → Prop
  | byte : s.plainByte = true → PlainStep s (s.advanceCols 1)
  | lines {next : Scanner} {count : Nat} : s.GoesOn next count → PlainStep s next

abbrev PlainPath : Scanner → Scanner → Prop := Relation.ReflTransGen PlainStep

/-- In a flow collection the scalar goes on over two or more breaks to a flow indicator, or
to a `:` before one. -/
def Dangles (s : Scanner) : Prop :=
  ∃ t next count, s.PlainPath t ∧ t.GoesOn next count ∧ 2 ≤ count ∧ next.flowLevel > 0 ∧
    (isFlow next.peek = true ∨ next.peek = colon ∧ isFlow (next.peekAt 1) = true)

end Scanner

/-- A round of the loop of `scan_plain_scalar`, after its run of plain bytes. -/
def plainRound (again : Bytes → ScanM Bytes) (out : Bytes) : ScanM Bytes := do
  let s ← get
  if s.atEnd then return out
  let c := s.peek
  if c == colon then
    let next := s.peekAt 1
    if !isBlankOrBreak next && next != 0 &&
        !(s.flowLevel > 0 && isFlow next) then
      set (s.advance 1)
      again (out ++ [colon])
    else return out
  else if c == hash then
    if out.getLast?.any isBlank then return trimBlanks out
    else if out.isEmpty then return out
    else
      set (s.advance 1)
      again (out ++ [hash])
  else if s.flowLevel > 0 && isFlow c then return out
  else if isBlank c then
    let blanks := skipBlanks s.rest
    let next := s.advanceCols blanks
    set next
    if next.atEnd then return out
    if isBreak next.peek then again out
    else again (out ++ s.rest.take blanks)
  else if isBreak c then
    let (next, breakCount) := s.skipBreakLines s.remaining 0
    if next.atEnd || next.plainLineEnds then return out
    set next
    again (trimBlanks out ++ foldBreaks breakCount)
  else if isControl c then scanError "control character in plain scalar"
  else
    set (s.advance 1)
    again (out ++ [c])

theorem plainLoop_succ (fuel : Nat) (out : Bytes) :
    plainLoop (fuel + 1) out = (do
      let s ← get
      set (s.advanceCols (plainRun s.rest))
      plainRound (plainLoop fuel) (out ++ s.rest.take (plainRun s.rest))) := rfl

/-- The text that a plain token spans, up to the last byte that is no blank and no break. -/
def plainBody (text : Bytes) (tok : Token) : Bytes :=
  (textSlice text tok.start.offset tok.stop.offset).rdropWhile isBlankOrBreak

/-- A plain token reads as its text with the lines folded, and has no blank or break at
either end. -/
structure PlainText (text : Bytes) (tok : Token) : Prop where
  value : tok.value = foldText (units lineUnit 0 (plainBody text tok))
  first : ∀ c ∈ tok.value.head?, isBlankOrBreak c = false
  last : ∀ c ∈ tok.value.getLast?, isBlankOrBreak c = false

/-- What the loop of `scan_plain_scalar` does from a state on. -/
structure PlainRead (text : Bytes) (out : Bytes) (s : Scanner) (value : Bytes) (s' : Scanner) :
    Prop where
  reads : s'.Reads text
  path : s.PlainPath s'
  ended : ∀ q, ¬s'.PlainStep q
  later : s.pos ≤ s'.pos
  value : trimBlanks value =
    trimBlanks (readOn space lf isBlank out (units lineUnit 0 (textSlice text s.pos s'.pos)))

/-- At a `#`, the value so far ends as the text before the cursor. -/
def Tracks (text : Bytes) (out : Bytes) (s : Scanner) : Prop :=
  s.peek = hash → out ≠ [] ∧ out.getLast?.any isBlank = isBlank (byteAt text (s.pos - 1))

section

variable {text : Bytes} {s s' : Scanner} {out value : Bytes}

theorem lineUnit_lines : ReadsLines lineUnit where
  gap _ _ _ := rfl
  content _ _ pieces content := by
    obtain ⟨notBlank, notBreak⟩ := Bool.or_eq_false_iff.mp content
    rw [lineUnit_plain notBreak, element, notBlank]
    exact .inr (.inl ⟨_, _, rfl⟩)

theorem Scanner.plainByte_inside (plain : s.plainByte = true) :
    s.atEnd = false ∧ isBreak s.peek = false := by
  rw [Scanner.plainByte] at plain
  split at plain
  · cases plain
  · rename_i inside
    simpa using inside

theorem Scanner.plainStep_ended (notPlain : s.plainByte = false) (notBreak : isBreak s.peek = false)
    (q : Scanner) : ¬s.PlainStep q := by
  intro step
  cases step with
  | byte plain =>
      rw [notPlain] at plain
      cases plain
  | lines goesOn =>
      have isBr := goesOn.isBreak
      rw [notBreak] at isBr
      cases isBr

theorem textSlice_one {p : Nat} (inside : p < text.length) :
    textSlice text p (p + 1) = [byteAt text p] := by
  rw [textSlice_cons (Nat.lt_succ_self p) inside, textSlice_self]

theorem trimBlanks_append {blanks : Bytes} (blank : ∀ c ∈ blanks, isBlank c = true) :
    trimBlanks (out ++ blanks) = trimBlanks out := by
  have all : ∀ c ∈ blanks.reverse, isBlank c = true := fun c member =>
    blank c (List.mem_reverse.mp member)
  rw [trimBlanks, List.reverse_append, List.dropWhile_append_of_pos all, trimBlanks]

theorem trimBlanks_trimBlanks : trimBlanks (trimBlanks out) = trimBlanks out :=
  List.rdropWhile_idempotent _ _

theorem Tracks.past {n : Nat} (some : 0 < n) (within : s.pos + n ≤ text.length) :
    Tracks text (out ++ textSlice text s.pos (s.pos + n)) (s.advanceCols n) := by
  intro _
  obtain ⟨n, rfl⟩ := Nat.exists_eq_succ_of_ne_zero (Nat.ne_of_gt some)
  rw [Nat.succ_eq_add_one, textSlice_concat within, ← List.append_assoc]
  refine ⟨List.append_ne_nil_of_right_ne_nil _ (List.cons_ne_nil _ _), ?_⟩
  rw [List.getLast?_concat]
  rfl

theorem Tracks.append {n : Nat} (tracks : Tracks text out s) (within : s.pos + n ≤ text.length) :
    Tracks text (out ++ textSlice text s.pos (s.pos + n)) (s.advanceCols n) := by
  rcases Nat.eq_zero_or_pos n with rfl | some
  · rw [Nat.add_zero, textSlice_self, List.append_nil]
    exact tracks
  · exact .past some within

theorem lineUnit_break {c : UInt8} {rest : Bytes} (isBr : isBreak c = true) :
    (lineUnit (c :: rest)).1 = .newline := by
  rw [lineUnit]
  split
  · rfl
  · rfl

namespace PlainRead

/-- The loop stops at the cursor. -/
theorem stop (reads : s.Reads text) (ended : ∀ q, ¬s.PlainStep q)
    (trimmed : trimBlanks value = trimBlanks out) : PlainRead text out s value s where
  reads := reads
  path := .refl
  ended := ended
  later := Nat.le_refl _
  value := by rw [textSlice_self, units, readOn_nil, trimmed]

/-- The loop passes bytes of the scalar. -/
theorem bytes {n : Nat} (reads : s.Reads text) (within : s.pos + n ≤ text.length)
    (plain : ∀ i < n, (s.advanceCols i).plainByte = true)
    (rest : PlainRead text (out ++ textSlice text s.pos (s.pos + n)) (s.advanceCols n) value s') :
    PlainRead text out s value s' := by
  have path : s.PlainPath (s.advanceCols n) := by
    clear rest within
    induction n with
    | zero => exact .refl
    | succ n ih =>
        refine .tail (ih fun i below => plain i (Nat.lt_succ_of_lt below)) ?_
        exact .byte (plain n (Nat.lt_succ_self n))
  have notBreak (i : Nat) (below : i < n) : isBreak (byteAt text (s.pos + i)) = false := by
    have read := reads.advanceCols (n := i) (by omega)
    have isPlain := (Scanner.plainByte_inside (plain i below)).2
    rwa [read.peek_eq] at isPlain
  have passed : Yields lineUnit text s.pos (s.pos + n) _ :=
    .elements (element isBlank) (fun i below rest => lineUnit_plain (notBreak i below)) within
  refine ⟨rest.reads, path.trans rest.path, rest.ended,
    Nat.le_trans (Nat.le_add_right _ _) rest.later, ?_⟩
  rw [rest.value, passed.cut s'.pos rest.later rest.reads.inside, readOn_elements]
  rfl

/-- One byte of the scalar. -/
theorem one (reads : s.Reads text) (plain : s.plainByte = true)
    (rest : PlainRead text (out ++ [byteAt text s.pos]) (s.advanceCols 1) value s') :
    PlainRead text out s value s' := by
  have inside : s.pos < text.length := by
    by_contra outside
    have ended := reads.atEnd_iff.mpr (Nat.not_lt.mp outside)
    rw [(Scanner.plainByte_inside plain).1] at ended
    cases ended
  refine bytes (n := 1) reads inside (fun i below => ?_) ?_
  · obtain rfl : i = 0 := by omega
    exact plain
  · rw [textSlice_one inside]
    exact rest

/-- Blanks before a break are dropped. -/
theorem drop {blanks : Bytes} (blank : ∀ c ∈ blanks, isBlank c = true)
    (isBr : isBreak s.peek = true)
    (reads : s.Reads text) (rest : PlainRead text out s value s') :
    PlainRead text (out ++ blanks) s value s' := by
  refine ⟨rest.reads, rest.path, rest.ended, rest.later, ?_⟩
  rw [rest.value]
  have trimmed : (out ++ blanks).rdropWhile isBlank = out.rdropWhile isBlank :=
    trimBlanks_append blank
  rcases Nat.lt_or_eq_of_le rest.later with further | here
  · rw [textSlice_cons further rest.reads.inside, units, lineUnit_break (reads.peek_eq ▸ isBr),
      readOn_newline, readOn_newline, trimmed]
  · rw [here, textSlice_self, units, readOn_nil, readOn_nil, trimBlanks_append blank]

/-- The loop goes on to another line. -/
theorem lines {next : Scanner} {count : Nat} (reads : s.Reads text) (goesOn : s.GoesOn next count)
    (rest : PlainRead text (trimBlanks out ++ foldBreaks count) next value s') :
    PlainRead text out s value s' := by
  have crosses := crosses_of_skip lineUnit_lines reads goesOn.isBreak goesOn.skipped
  refine ⟨rest.reads, .head (.lines goesOn) rest.path, rest.ended,
    Nat.le_trans (Nat.le_of_lt crosses.further) rest.later, ?_⟩
  rw [rest.value, crosses.readOn_eq lineUnit_lines rest.later rest.reads.inside]

end PlainRead

theorem isBreak_of_isFlow {c : UInt8} (flow : isFlow c = true) : isBreak c = false := by
  simp only [isFlow, Bool.or_eq_true, beq_iff_eq] at flow
  rcases flow with (((rfl | rfl) | rfl) | rfl) | rfl <;> rfl

/-- A byte that is no indicator is part of a plain scalar. -/
theorem plainByte_of_byte (reads : s.Reads text) (notNul : byteAt text s.pos ≠ 0)
    (notBreak : isBreak (byteAt text s.pos) = false)
    (notColon : (byteAt text s.pos == colon) = false)
    (notHash : (byteAt text s.pos == hash) = false) (notFlow : isFlow (byteAt text s.pos) = false) :
    s.plainByte = true := by
  have inside : s.atEnd = false :=
    Bool.eq_false_iff.mpr fun ended => notNul (byteAt_outside (reads.atEnd_iff.mp ended))
  rw [Scanner.plainByte, inside, reads.peek_eq, notBreak, notHash, notColon, notFlow,
    Bool.and_false]
  rfl

/-- Blanks inside a line are part of a plain scalar. -/
theorem blank_plainByte (reads : s.Reads text) (blank : isBlank (byteAt text s.pos) = true) :
    s.plainByte = true := by
  apply plainByte_of_byte reads
  case notBreak => exact isBreak_of_isBlank blank
  all_goals
    simp only [isBlank, Bool.or_eq_true, beq_iff_eq] at blank
    rcases blank with same | same <;> rw [same] <;> decide

/-- The bytes of a run are part of a plain scalar. -/
theorem run_plainByte (reads : s.Reads text)
    (plain : (!endsPlainRun (byteAt text s.pos)) = true) : s.plainByte = true := by
  have notBreak := isBreak_of_endsPlainRun plain
  simp only [endsPlainRun, Bool.not_eq_true', Bool.or_eq_false_iff] at plain
  obtain ⟨⟨⟨⟨low, notHash⟩, notColon⟩, notFlow⟩, _⟩ := plain
  refine plainByte_of_byte reads (fun isNul => ?_) notBreak notColon notHash notFlow
  rw [isNul] at low
  cases low

/-- A round of the loop. -/
theorem plainRound_reads {again : Bytes → ScanM Bytes}
    (continues : ∀ {q : Scanner} {out : Bytes}, q.Reads text → s.pos < q.pos → Tracks text out q →
      again out q = .ok value s' → PlainRead text out q value s')
    (reads : s.Reads text) (tracks : Tracks text out s)
    (ok : plainRound again out s = .ok value s') : PlainRead text out s value s' := by
  have stop (ended : ∀ q, ¬s.PlainStep q) {out' : Bytes}
      (trimmed : trimBlanks out' = trimBlanks out)
      (ok : (pure out' : ScanM Bytes) s = .ok value s') : PlainRead text out s value s' := by
    cases ok
    exact .stop reads ended trimmed
  have one {c : UInt8} (isByte : s.peek = c) (plain : s.plainByte = true)
      (ok : (do set (s.advance 1); again (out ++ [c])) s = .ok value s') :
      PlainRead text out s value s' := by
    obtain ⟨inside, notBreak⟩ := Scanner.plainByte_inside plain
    obtain ⟨_, q, stored, rest⟩ := bind_eq_ok ok
    cases stored
    rw [Moves.advance_plain reads inside notBreak] at rest
    have within : s.pos + 1 ≤ text.length := by
      by_contra outside
      rw [reads.atEnd_iff.mpr (by omega)] at inside
      cases inside
    rw [← isByte, reads.peek_eq] at rest
    exact .one reads plain
      (continues (reads.advanceCols within) (Nat.lt_succ_self _)
        (textSlice_one within ▸ Tracks.past Nat.one_pos within) rest)
  rw [plainRound, get_bind_eq] at ok
  split at ok
  · rename_i ended
    refine stop (Scanner.plainStep_ended ?_ ?_) rfl ok
    · rw [Scanner.plainByte, ended]
      rfl
    · rw [reads.peek_eq, byteAt_outside (reads.atEnd_iff.mp ended)]
      rfl
  rename_i open'
  rw [Bool.not_eq_true] at open'
  dsimp only at ok
  split at ok
  · rename_i isColon
    rw [beq_iff_eq] at isColon
    have byteIs : s.plainByte = (!isBlankOrBreak (s.peekAt 1) && s.peekAt 1 != 0 &&
        !(s.flowLevel > 0 && isFlow (s.peekAt 1))) := by
      rw [Scanner.plainByte, open', isColon]
      rfl
    split at ok
    · rename_i goesOn
      exact one isColon (byteIs.trans goesOn) ok
    · rename_i stops
      refine stop (Scanner.plainStep_ended ?_ (by rw [isColon]; rfl)) rfl ok
      rw [byteIs]
      exact Bool.eq_false_iff.mpr stops
  rename_i notColon
  split at ok
  · rename_i isHash
    rw [beq_iff_eq] at isHash
    obtain ⟨some, last⟩ := tracks isHash
    have byteIs : s.plainByte = !out.getLast?.any isBlank := by
      rw [Scanner.plainByte, open', isHash, last, reads.byte_eq]
      rfl
    split at ok
    · rename_i blank
      refine stop (Scanner.plainStep_ended ?_ (by rw [isHash]; rfl)) trimBlanks_trimBlanks ok
      rw [byteIs, blank]
      rfl
    rename_i notBlank
    split at ok
    · rename_i empty
      exact absurd (List.isEmpty_iff.mp empty) some
    · refine one isHash ?_ ok
      rw [byteIs, Bool.eq_false_iff.mpr notBlank]
      rfl
  rename_i notHash
  have byteIs (notBreak : isBreak s.peek = false) :
      s.plainByte = !(s.flowLevel > 0 && isFlow s.peek) := by
    rw [Scanner.plainByte, open', notBreak, if_neg (by simp), if_neg notColon, if_neg notHash]
  split at ok
  · rename_i isFl
    have notBreak : isBreak s.peek = false :=
      isBreak_of_isFlow (Bool.and_eq_true_iff.mp isFl).2
    refine stop (Scanner.plainStep_ended ?_ notBreak) rfl ok
    rw [byteIs notBreak, isFl]
    rfl
  rename_i notFlow
  split at ok
  · rename_i blank
    have notBreak := isBreak_of_isBlank blank
    have within : s.pos + skipBlanks s.rest ≤ text.length :=
      (skipBlanks_moves reads : Moves text anyLine noEscape s _).reads.inside
    have moved := reads.advanceCols within
    refine .bytes (n := skipBlanks s.rest) reads within (fun i below => ?_) ?_
    · exact blank_plainByte (reads.advanceCols (by omega))
        (blanks_bytes reads (Nat.le_add_right _ i) (Nat.add_lt_add_left below _))
    have allBlank : ∀ c ∈ textSlice text s.pos (s.pos + skipBlanks s.rest), isBlank c = true := by
      intro c member
      obtain ⟨o, later, before, rfl⟩ := mem_textSlice member
      exact blanks_bytes reads later before
    have some : 0 < skipBlanks s.rest := by
      have inside : s.pos < text.length := by
        rw [← Nat.not_le, ← reads.atEnd_iff, open']
        exact Bool.false_ne_true
      rw [reads.peek_eq] at blank
      rw [skipBlanks, reads.rest_eq, drop_eq_cons inside, runLength, blank]
      exact Nat.succ_pos _
    obtain ⟨_, q, stored, rest⟩ := bind_eq_ok ok
    have isNext : q = s.advanceCols (skipBlanks s.rest) := by
      cases stored
      rfl
    rw [← isNext] at rest moved ⊢
    have further : s.pos < q.pos := isNext ▸ Nat.lt_add_of_pos_right some
    split at rest
    · rename_i ended
      cases rest
      refine .stop moved (Scanner.plainStep_ended ?_ ?_) (trimBlanks_append allBlank).symm
      · rw [Scanner.plainByte, ended]
        rfl
      · rw [moved.peek_eq, byteAt_outside (moved.atEnd_iff.mp ended)]
        rfl
    split at rest
    · rename_i isBr
      have tracks' : Tracks text out q := by
        intro isHash
        rw [isHash] at isBr
        cases isBr
      exact .drop allBlank isBr moved (continues moved further tracks' rest)
    · rw [reads.take_eq] at rest
      refine continues moved further ?_ rest
      exact isNext ▸ Tracks.past some within
  split at ok
  · rename_i isBr
    cases found : s.skipBreakLines s.remaining 0 with
    | mk next count =>
        rw [found] at ok
        dsimp only at ok
        split at ok
        · rename_i stops
          refine stop (fun q step => ?_) rfl ok
          cases step with
          | byte plain =>
              have notBreak := (Scanner.plainByte_inside plain).2
              rw [isBr] at notBreak
              cases notBreak
          | lines goesOn =>
              have same := goesOn.skipped.symm.trans found
              cases same
              rw [goesOn.inside, goesOn.goesOn] at stops
              cases stops
        · rename_i goesOn
          simp only [Bool.or_eq_true, not_or, Bool.not_eq_true] at goesOn
          have onward : s.GoesOn next count := ⟨isBr, found, goesOn.1, goesOn.2⟩
          have crosses := crosses_of_skip lineUnit_lines reads isBr found
          obtain ⟨_, q, stored, rest⟩ := bind_eq_ok ok
          cases stored
          refine .lines reads onward (continues crosses.reads crosses.further ?_ rest)
          intro isHash
          have ends : next.plainLineEnds = true := by
            rw [Scanner.plainLineEnds, isHash]
            simp
          rw [goesOn.2] at ends
          cases ends
  rename_i notBreak
  split at ok
  · exact (scanError_ok ok).elim
  · have notBreak' := Bool.eq_false_iff.mpr notBreak
    refine one rfl ?_ ok
    rw [byteIs notBreak', Bool.eq_false_iff.mpr notFlow]
    rfl

/-- The loop of `scan_plain_scalar`. -/
theorem plainLoop_reads {fuel : Nat} (reads : s.Reads text) (enough : s.remaining < fuel)
    (tracks : Tracks text out s) (ok : plainLoop fuel out s = .ok value s') :
    PlainRead text out s value s' := by
  induction fuel generalizing s out with
  | zero => exact absurd enough (Nat.not_lt_zero _)
  | succ fuel ih =>
      have within : s.pos + plainRun s.rest ≤ text.length :=
        (plainRun_moves reads : Moves text anyLine noEscape s _).reads.inside
      refine .bytes (n := plainRun s.rest) reads within (fun i below => ?_) ?_
      · have plain := runLength_all _ s.rest below
        rw [reads.rest_eq, getD_drop] at plain
        exact run_plainByte (reads.advanceCols (by omega)) plain
      rw [plainLoop_succ, get_bind_eq] at ok
      obtain ⟨_, q, stored, rest⟩ := bind_eq_ok ok
      have isNext : q = s.advanceCols (plainRun s.rest) := by
        cases stored
        rfl
      rw [reads.take_eq] at rest
      rw [← isNext]
      refine plainRound_reads (fun reads' further tracks' ok => ih reads' ?_ tracks' ok)
        (isNext ▸ reads.advanceCols within) ?_ rest
      · have start : s.pos ≤ q.pos := isNext ▸ Nat.le_add_right _ _
        have inside := reads'.inside
        rw [Scanner.remaining, reads.len] at enough
        rw [Scanner.remaining, reads'.len]
        omega
      · exact isNext ▸ tracks.append within

/-! ### The gap after the scalar -/

/-- The blanks and breaks before an offset, from an offset on. -/
def contentGap (text : Bytes) (first last : Nat) : Bytes :=
  (textSlice text first last).rtakeWhile isBlankOrBreak

/-- The number of line breaks in a text. -/
def breaksIn (bytes : Bytes) : Nat := (units lineUnit 0 bytes).count .newline

/-- Before the cursor are blanks, or the lines over which it came. -/
def GapAt (text : Bytes) (s t : Scanner) : Prop :=
  (∀ c ∈ contentGap text s.pos t.pos, isBlank c = true) ∨
    isBlankOrBreak t.peek = false ∧
      ∃ u count, s.PlainPath u ∧ u.GoesOn t count ∧ breaksIn (contentGap text s.pos t.pos) = count

theorem GapAt.blank {t : Scanner} (gap : GapAt text s t) (isGap : isBlankOrBreak t.peek = true) :
    ∀ c ∈ contentGap text s.pos t.pos, isBlank c = true := by
  rcases gap with blank | ⟨content, _⟩
  · exact blank
  · rw [isGap] at content
    cases content

theorem units_blanks {blanks : Bytes} (blank : ∀ c ∈ blanks, isBlank c = true) :
    units lineUnit 0 blanks = blanks.map Piece.blank := by
  induction blanks with
  | nil => rfl
  | cons c rest ih =>
      have isBl := blank c List.mem_cons_self
      rw [units, lineUnit_plain (isBreak_of_isBlank isBl), element, if_pos isBl,
        ih fun d member => blank d (List.mem_cons_of_mem _ member)]
      rfl

theorem breaksIn_blanks {blanks : Bytes} (blank : ∀ c ∈ blanks, isBlank c = true) :
    breaksIn blanks = 0 := by
  rw [breaksIn, units_blanks blank, List.count_eq_zero]
  intro member
  obtain ⟨x, _, same⟩ := List.mem_map.mp member
  cases same

theorem rtakeWhile_append {p : UInt8 → Bool} {first second : Bytes}
    (all : ∀ c ∈ second, p c = true) :
    (first ++ second).rtakeWhile p = first.rtakeWhile p ++ second := by
  have all' : ∀ c ∈ second.reverse, p c = true := fun c member =>
    all c (List.mem_reverse.mp member)
  rw [List.rtakeWhile, List.reverse_append, List.takeWhile_append_of_pos all', List.reverse_append,
    List.reverse_reverse, List.rtakeWhile]

theorem textSlice_append {p q r : Nat} (before : p ≤ q) (after : q ≤ r) :
    textSlice text p r = textSlice text p q ++ textSlice text q r := by
  obtain ⟨n, rfl⟩ := Nat.exists_eq_add_of_le before
  have cut : r - p = n + (r - (p + n)) := by omega
  rw [textSlice, textSlice, textSlice, Nat.add_sub_cancel_left, cut, List.take_add, List.drop_drop]

/-- The lines that lead to a line are the breaks before it. -/
theorem breaksIn_lines {t next : Scanner} {count : Nat} (reads : t.Reads text)
    (before : s.pos ≤ t.pos) (gap : GapAt text s t) (goesOn : t.GoesOn next count) :
    breaksIn (contentGap text s.pos next.pos) = count := by
  have crosses := crosses_of_skip lineUnit_lines reads goesOn.isBreak goesOn.skipped
  obtain ⟨pieces, yields, isLines⟩ := crosses.yields
  have blank := gap.blank (by rw [isBlankOrBreak, goesOn.isBreak, Bool.or_true])
  have all : ∀ c ∈ textSlice text t.pos next.pos, isBlankOrBreak c = true := by
    intro c member
    obtain ⟨o, later, early, rfl⟩ := mem_textSlice member
    apply skipBreakLines_bytes t.remaining reads 0 later
    rw [goesOn.skipped]
    exact early
  rw [contentGap, textSlice_append before (Nat.le_of_lt crosses.further), rtakeWhile_append all,
    breaksIn, lineUnits_append 0 (Nat.zero_le _), List.count_append,
    yields.units_eq crosses.reads.inside, isLines.count_eq]
  · have none := breaksIn_blanks blank
    rw [breaksIn, contentGap] at none
    rw [none, Nat.zero_add]
  · intro isCr
    have isBl := blank cr (List.mem_of_getLast? isCr)
    cases isBl

theorem Scanner.PlainStep.reads {t : Scanner} (step : s.PlainStep t) (reads : s.Reads text) :
    t.Reads text ∧ s.pos < t.pos := by
  cases step with
  | byte plain =>
      refine ⟨reads.advanceCols ?_, Nat.lt_succ_self _⟩
      have inside := (Scanner.plainByte_inside plain).1
      by_contra outside
      rw [reads.atEnd_iff.mpr (by omega)] at inside
      cases inside
  | lines goesOn =>
      have crosses := crosses_of_skip lineUnit_lines reads goesOn.isBreak goesOn.skipped
      exact ⟨crosses.reads, crosses.further⟩

/-- What a path of a plain scalar leaves before the cursor. -/
theorem plainPath_gap {t : Scanner} (reads : s.Reads text) (path : s.PlainPath t) :
    t.Reads text ∧ s.pos ≤ t.pos ∧ GapAt text s t := by
  induction path with
  | refl =>
      refine ⟨reads, Nat.le_refl _, .inl fun c member => ?_⟩
      rw [contentGap, textSlice_self] at member
      cases member
  | @tail t next path step ih =>
      obtain ⟨readsT, before, gap⟩ := ih
      obtain ⟨readsNext, further⟩ := step.reads readsT
      refine ⟨readsNext, by omega, ?_⟩
      cases step with
      | lines goesOn =>
          have crosses := crosses_of_skip lineUnit_lines readsT goesOn.isBreak goesOn.skipped
          have content := crosses.content.resolve_left
              (by rw [goesOn.inside]; exact Bool.false_ne_true)
          exact .inr ⟨content, t, _, path, goesOn, breaksIn_lines readsT before gap goesOn⟩
      | byte plain =>
          left
          have notBreak := (Scanner.plainByte_inside plain).2
          have whole : contentGap text s.pos (t.advanceCols 1).pos =
              (textSlice text s.pos t.pos ++ [byteAt text t.pos]).rtakeWhile isBlankOrBreak := by
            have inside : t.pos < text.length := readsNext.inside
            rw [contentGap, ← textSlice_one inside,
              textSlice_append before (show t.pos ≤ (t.advanceCols 1).pos from Nat.le_succ _)]
            rfl
          rw [whole]
          cases isBl : isBlank t.peek with
          | true =>
              have isGap : isBlankOrBreak t.peek = true := by rw [isBlankOrBreak, isBl]; rfl
              intro c member
              rw [List.rtakeWhile_concat_pos _ _ _ (by rw [← readsT.peek_eq, isGap])] at member
              rcases List.mem_append.mp member with early | last
              · exact gap.blank isGap c early
              · rw [List.mem_singleton.mp last, ← readsT.peek_eq, isBl]
          | false =>
              have content : ¬isBlankOrBreak (byteAt text t.pos) = true := by
                rw [← readsT.peek_eq, isBlankOrBreak, isBl, notBreak]
                exact Bool.false_ne_true
              intro c member
              rw [List.rtakeWhile_concat_neg _ _ _ content] at member
              cases member

/-! ### The value -/

theorem trimBlanks_content {c : UInt8} (content : isBlank c = false) :
    trimBlanks (out ++ [c]) = out ++ [c] :=
  List.rdropWhile_concat_neg _ _ _ (by rw [content]; exact Bool.false_ne_true)

/-- Text that ends in content, and what is read of it. -/
theorem foldText_content (first : Bytes) {c : UInt8} (content : isBlankOrBreak c = false) :
    (∃ start, foldText (units lineUnit 0 (first ++ [c])) = start ++ [c]) ∧
      ∀ gap, foldText (units lineUnit 0 (first ++ [c] ++ gap)) =
        foldText (units lineUnit 0 (first ++ [c])) ++ foldText (units lineUnit 0 gap) := by
  obtain ⟨notBlank, notBreak⟩ := Bool.or_eq_false_iff.mp content
  have last : units lineUnit 0 (first ++ [c]) = units lineUnit 0 first ++ [.solid [c]] := by
    rw [lineUnits_append 0 (Nat.zero_le _), units, lineUnit_plain notBreak, element, notBlank]
    · rfl
    · intro _ isLf
      cases isLf
      cases notBreak
  refine ⟨?_, fun gap => ?_⟩
  · rw [last]
    exact foldGap_last _ _ _
  · rw [lineUnits_append 0 (Nat.zero_le _), last, List.append_assoc]
    · exact foldGap_content _ _ _ _
    · intro isCr
      rw [List.getLast?_concat] at isCr
      cases isCr
      cases notBreak

theorem units_isGap {gap : Bytes} (isGap : ∀ c ∈ gap, isBlankOrBreak c = true) (skip : Nat) :
    IsGap (units lineUnit skip gap) := by
  induction gap generalizing skip with
  | nil =>
      intro piece member
      cases member
  | cons c rest ih =>
      have rest' := ih fun d member => isGap d (List.mem_cons_of_mem _ member)
      cases skip with
      | succ skip => exact rest' skip
      | zero =>
          intro piece member
          rw [units] at member
          rcases List.mem_cons.mp member with rfl | later
          · have here := isGap c List.mem_cons_self
            rw [isBlankOrBreak, Bool.or_eq_true] at here
            rcases here with blank | isBr
            · right
              rw [lineUnit_plain (isBreak_of_isBlank blank), element, if_pos blank]
              exact ⟨c, rfl⟩
            · exact .inl (lineUnit_break isBr)
          · exact rest' _ piece later

/-- What the gap after the scalar adds to its value. -/
theorem trimBlanks_gap {first gap : Bytes} {c : UInt8} (content : isBlankOrBreak c = false)
    (isGap : ∀ c ∈ gap, isBlankOrBreak c = true)
    (some : breaksIn gap = 0 → ∀ c ∈ gap, isBlank c = true) :
    trimBlanks (foldText (units lineUnit 0 (first ++ [c] ++ gap))) =
      foldText (units lineUnit 0 (first ++ [c])) ++ List.replicate (breaksIn gap - 1) lf := by
  obtain ⟨⟨start, last⟩, whole⟩ := foldText_content first content
  have notBlank := (Bool.or_eq_false_iff.mp content).1
  rw [whole, last]
  cases breaks : breaksIn gap with
  | zero =>
      have blank := some breaks
      rw [units_blanks blank]
      refine (congrArg (fun bytes => trimBlanks (start ++ [c] ++ bytes))
        (foldGap_held [] gap)).trans ?_
      rw [List.nil_append, trimBlanks_append blank, trimBlanks_content notBlank]
      exact (List.append_nil _).symm
  | succ more =>
      have isFold : foldText (units lineUnit 0 gap) = (Gap.breaks more).text space lf :=
        (units_isGap isGap 0).foldGap_blanks [] breaks
      rw [isFold]
      cases more with
      | zero =>
          have blank : ∀ c ∈ [space], isBlank c = true := by simp [isBlank]
          exact (trimBlanks_append blank).trans ((trimBlanks_content notBlank).trans
            (List.append_nil _).symm)
      | succ more =>
          rw [Gap.text, Nat.add_sub_cancel, List.replicate_succ', ← List.append_assoc,
            trimBlanks_content (by decide)]

/-! ### The scalar -/

theorem Scanner.plainStep_unique : Relator.RightUnique Scanner.PlainStep := by
  intro s a b first second
  cases first with
  | byte plain =>
      cases second with
      | byte => rfl
      | lines goesOn =>
          have notBreak := (Scanner.plainByte_inside plain).2
          rw [goesOn.isBreak] at notBreak
          cases notBreak
  | lines goesOn =>
      cases second with
      | byte plain =>
          have notBreak := (Scanner.plainByte_inside plain).2
          rw [goesOn.isBreak] at notBreak
          cases notBreak
      | lines goesOn' =>
          have same := goesOn.skipped.symm.trans goesOn'.skipped
          cases same
          rfl

/-- Paths that cannot go on end in the same state. -/
theorem Scanner.plainPath_end {a b : Scanner} (first : s.PlainPath a) (second : s.PlainPath b)
    (endA : ∀ q, ¬a.PlainStep q) (endB : ∀ q, ¬b.PlainStep q) : a = b := by
  rcases Relation.ReflTransGen.total_of_right_unique Scanner.plainStep_unique first second with
    onward | back
  · rcases onward.cases_head with same | ⟨q, step, _⟩
    · exact same
    · exact absurd step (endA q)
  · rcases back.cases_head with same | ⟨q, step, _⟩
    · exact same.symm
    · exact absurd step (endB q)

/-- Where the lines of a plain scalar lead to when it cannot go on. -/
theorem Scanner.GoesOn.flow {t next : Scanner} {count : Nat} (goesOn : t.GoesOn next count)
    (content : isBlankOrBreak next.peek = false) (ended : ∀ q, ¬next.PlainStep q) :
    next.flowLevel > 0 ∧
      (isFlow next.peek = true ∨ next.peek = colon ∧ isFlow (next.peekAt 1) = true) := by
  have stops : next.plainByte = false := Bool.eq_false_iff.mpr fun plain => ended _ (.byte plain)
  have line := goesOn.goesOn
  simp only [Scanner.plainLineEnds, Bool.or_eq_false_iff] at line
  obtain ⟨⟨⟨⟨_, notValue⟩, notHash⟩, _⟩, _⟩ := line
  have notBreak := (Bool.or_eq_false_iff.mp content).2
  rw [Scanner.plainByte, goesOn.inside, notBreak, if_neg (by simp), notHash] at stops
  split at stops
  · rename_i isColon
    rw [isColon, Bool.true_and, Bool.or_eq_false_iff] at notValue
    simp only [notValue.1, notValue.2, bne, Bool.not_false, Bool.true_and, Bool.not_eq_false',
      Bool.and_eq_true, decide_eq_true_eq] at stops
    exact ⟨stops.1, .inr ⟨beq_iff_eq.mp isColon, stops.2⟩⟩
  · simp only [Bool.false_eq_true, if_false, Bool.not_eq_false', Bool.and_eq_true,
      decide_eq_true_eq] at stops
    exact ⟨stops.1, .inl stops.2⟩

/-- A plain scalar cannot go on at a flow indicator. -/
theorem Scanner.flow_ended (inFlow : s.flowLevel > 0)
    (flow : isFlow s.peek = true ∨ s.peek = colon ∧ isFlow (s.peekAt 1) = true) (q : Scanner) :
    ¬s.PlainStep q := by
  rcases flow with flow | ⟨isColon, flow⟩
  · refine Scanner.plainStep_ended ?_ (isBreak_of_isFlow flow) q
    have notColon : (s.peek == colon) = false := by
      apply beq_false_of_ne
      intro same
      rw [same] at flow
      cases flow
    have notHash : (s.peek == hash) = false := by
      apply beq_false_of_ne
      intro same
      rw [same] at flow
      cases flow
    rw [Scanner.plainByte, notColon, notHash, flow, decide_eq_true inFlow]
    split <;> rfl
  · refine Scanner.plainStep_ended ?_ (by rw [isColon]; rfl) q
    rw [Scanner.plainByte, isColon, flow, decide_eq_true inFlow, Bool.and_self, Bool.not_true,
      Bool.and_false]
    split <;> rfl

/-- A plain token, with the path over its text. -/
theorem scanPlainScalar_read {tok : Token} (atToken : s.AtToken text)
    (ok : scanPlainScalar s = .ok tok s') :
    ∃ out q, PlainRead text [] s out q ∧ tok.start.offset = s.pos ∧ tok.stop.offset = q.pos ∧
      tok.value = trimBlanks out := by
  rw [scanPlainScalar, get_bind_eq, get_bind_eq] at ok
  obtain ⟨out, q, looped, rest⟩ := bind_eq_ok ok
  have tracks : Tracks text [] s := fun isHash => absurd isHash atToken.notHash
  have read := plainLoop_reads atToken.reads (Nat.lt_succ_self _) tracks looped
  cases rest
  exact ⟨out, q, read, rfl, rfl, rfl⟩

/-- The value of a plain token and the breaks after its text. -/
theorem scanPlainScalar_value {tok : Token} (atToken : s.AtToken text)
    (ok : scanPlainScalar s = .ok tok s') :
    ∃ q, s.PlainPath q ∧ (∀ next, ¬q.PlainStep next) ∧
      tok.value = foldText (units lineUnit 0 (plainBody text tok)) ++
        List.replicate (breaksIn (contentGap text s.pos q.pos) - 1) lf ∧
      (∀ c ∈ (plainBody text tok).head?, isBlankOrBreak c = false) ∧
      ∀ c ∈ (plainBody text tok).getLast?, isBlankOrBreak c = false := by
  obtain ⟨out, q, read, isStart, isStop, isValue⟩ := scanPlainScalar_read atToken ok
  have gapAt := (plainPath_gap atToken.reads read.path).2.2
  have isBody : plainBody text tok = (textSlice text s.pos q.pos).rdropWhile isBlankOrBreak := by
    rw [plainBody, isStart, isStop]
  have whole : plainBody text tok ++ contentGap text s.pos q.pos = textSlice text s.pos q.pos := by
    rw [isBody]
    exact List.rdropWhile_append_rtakeWhile
  have isGap : ∀ c ∈ contentGap text s.pos q.pos, isBlankOrBreak c = true :=
    fun c member => List.mem_rtakeWhile_imp member
  have noBreak (none : breaksIn (contentGap text s.pos q.pos) = 0) :
      ∀ c ∈ contentGap text s.pos q.pos, isBlank c = true := by
    rcases gapAt with blank | ⟨_, u, count, path, goesOn, isCount⟩
    · exact blank
    · have readsU := (plainPath_gap atToken.reads path).1
      have some := (crosses_of_skip lineUnit_lines readsU goesOn.isBreak goesOn.skipped).some
      omega
  have value := read.value
  rw [readOn_empty, ← isValue] at value
  have first : ∀ c ∈ (textSlice text s.pos q.pos).head?, isBlankOrBreak c = false := by
    intro c isFirst
    rw [textSlice_head read.reads.inside] at isFirst
    split at isFirst
    · cases isFirst
      rw [← atToken.reads.peek_eq]
      exact atToken.notGap
    · cases isFirst
  refine ⟨q, read.path, read.ended, ?_, ?_, ?_⟩
  · rcases List.eq_nil_or_concat (plainBody text tok) with empty | ⟨start, c, isBody'⟩
    · -- no content at all: the token is empty
      have none : textSlice text s.pos q.pos = [] := by
        cases slice : textSlice text s.pos q.pos with
        | nil => rfl
        | cons c rest =>
            rw [isBody, List.rdropWhile_eq_nil_iff, slice] at empty
            have content := first c (by rw [slice]; rfl)
            rw [empty c List.mem_cons_self] at content
            cases content
      rw [none] at value
      rw [value, empty, contentGap, none]
      rfl
    · have content : isBlankOrBreak c = false := by
        have notLast := List.rdropWhile_last_not isBlankOrBreak (textSlice text s.pos q.pos)
        rw [← isBody, isBody'] at notLast
        simpa using notLast (by simp)
      rw [← whole, isBody', List.concat_eq_append] at value
      rw [value, isBody', List.concat_eq_append]
      exact trimBlanks_gap content isGap noBreak
  · intro c isFirst
    apply first
    rw [← whole]
    cases body : plainBody text tok with
    | nil =>
        rw [body] at isFirst
        cases isFirst
    | cons d rest =>
        rw [body] at isFirst
        exact isFirst
  · intro c isLast
    rw [isBody] at isLast
    have some := List.ne_nil_of_mem (List.mem_of_getLast? isLast)
    have notLast := List.rdropWhile_last_not isBlankOrBreak (textSlice text s.pos q.pos) some
    rw [List.getLast?_eq_some_getLast some] at isLast
    cases isLast
    simpa using notLast

/-- A plain scalar reads as its text exactly when it does not dangle. -/
theorem scanPlainScalar_text {tok : Token} (atToken : s.AtToken text)
    (ok : scanPlainScalar s = .ok tok s') : PlainText text tok ↔ ¬s.Dangles := by
  obtain ⟨q, path, ended, isValue, first, last⟩ := scanPlainScalar_value atToken ok
  have dangles : s.Dangles ↔ 2 ≤ breaksIn (contentGap text s.pos q.pos) := by
    constructor
    · rintro ⟨t, next, count, before, goesOn, two, inFlow, flow⟩
      have same := Scanner.plainPath_end (before.tail (.lines goesOn)) path
        (Scanner.flow_ended inFlow flow) ended
      subst same
      obtain ⟨readsT, later, gapT⟩ := plainPath_gap atToken.reads before
      rw [breaksIn_lines readsT later gapT goesOn]
      exact two
    · intro two
      rcases (plainPath_gap atToken.reads path).2.2 with blank | ⟨content, u, count, before,
          goesOn, isCount⟩
      · rw [breaksIn_blanks blank] at two
        omega
      · obtain ⟨inFlow, flow⟩ := goesOn.flow content ended
        exact ⟨u, q, count, before, goesOn, isCount ▸ two, inFlow, flow⟩
  rw [dangles, Nat.not_le]
  constructor
  · intro reads
    have same := reads.value.symm.trans isValue
    have none := congrArg List.length same
    rw [List.length_append, List.length_replicate] at none
    omega
  · intro few
    rw [show breaksIn (contentGap text s.pos q.pos) - 1 = 0 by omega, List.replicate_zero,
      List.append_nil] at isValue
    refine ⟨isValue, fun c isFirst => ?_, fun c isLast => ?_⟩
    · cases body : plainBody text tok with
      | nil =>
          rw [isValue, body] at isFirst
          cases isFirst
      | cons d rest =>
          rw [body] at first
          have content := first d rfl
          obtain ⟨notBlank, notBreak⟩ := Bool.or_eq_false_iff.mp content
          rw [isValue, body, units, lineUnit_plain notBreak, element, notBlank] at isFirst
          cases isFirst
          exact content
    · rcases List.eq_nil_or_concat (plainBody text tok) with empty | ⟨start, d, body⟩
      · rw [isValue, empty] at isLast
        cases isLast
      · rw [body, List.concat_eq_append] at last
        have content := last d (by simp)
        obtain ⟨⟨front, isEnd⟩, _⟩ := foldText_content start content
        rw [isValue, body, List.concat_eq_append, isEnd, List.getLast?_concat] at isLast
        cases isLast
        exact content

/-- A plain token of a run reads as its text exactly when it does not dangle. -/
theorem scanToken_plain {tok : Token} {toks : List Token}
    (run : Scanned text (fun _ => True) toks s) (ok : scanToken s = .ok tok s')
    (isScalar : tok.type = .scalar) (isPlain : tok.scalarStyle = .plain) :
    PlainText text tok ↔ ¬s.nextScalar.Dangles := by
  obtain ⟨atToken, read⟩ := scanToken_scalar run.between isScalar ok
  cases read with
  | plain _ ok => exact scanPlainScalar_text atToken ok
  | single other =>
      rw [isPlain] at other
      cases other
  | double other =>
      rw [isPlain] at other
      cases other
  | block other =>
      rw [isPlain] at other
      rcases other with other | other <;> cases other

end

/-- `a` and, on the next line, `b`. -/
def foldedPlain : Bytes := [0x61, lf, 0x62, lf]

theorem scanToken_plain_foldedPlain :
    ∃ toks s tok s', Scanned foldedPlain (fun _ => True) toks s ∧ scanToken s = .ok tok s' ∧
      tok.value = [0x61, space, 0x62] ∧ (PlainText foldedPlain tok ↔ ¬s.nextScalar.Dangles) := by
  obtain ⟨toks, s, run, tok, member, type, style, value⟩ := exists_scanned foldedPlain
    (fun _ => True) 2 (fun toks => ∃ tok ∈ toks, tok.type = .scalar ∧ tok.scalarStyle = .plain ∧
      tok.value = [0x61, space, 0x62]) (by decide +kernel)
  obtain ⟨before, q, q', earlier, ok⟩ := run.step tok member
  exact ⟨before, q, tok, q', earlier, ok, value, scanToken_plain earlier ok type style⟩

/-- `[a`, an empty line, `]`. -/
def danglingPlain : Bytes := [lbracket, 0x61, lf, lf, rbracket]

/-- The line feed after the text stays in the value. -/
theorem scanToken_plain_danglingPlain :
    ∃ toks s, Scanned danglingPlain (fun _ => True) toks s ∧
      ∃ tok ∈ toks, tok.type = .scalar ∧ tok.scalarStyle = .plain ∧ tok.value = [0x61, lf] ∧
        ¬PlainText danglingPlain tok := by
  obtain ⟨toks, s, run, tok, member, type, style, value, differs⟩ := exists_scanned danglingPlain
    (fun _ => True) 3 (fun toks => ∃ tok ∈ toks, tok.type = .scalar ∧ tok.scalarStyle = .plain ∧
      tok.value = [0x61, lf] ∧ tok.value ≠ foldText
        (units lineUnit 0 (plainBody danglingPlain tok)))
    (by decide +kernel)
  exact ⟨toks, s, run, tok, member, type, style, value, fun reads => differs reads.value⟩

end Oyl
