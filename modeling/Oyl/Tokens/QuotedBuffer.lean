import Oyl.Tokens.JoinedLines

/-!
# The buffer of a double-quoted scalar

The pass that sizes the buffer counts pairs and bytes; what is decoded so far and the
count for what is left never exceed it.
-/

namespace Oyl

open StateError

/-- The pass before the decoding loop: bytes one by one, a backslash with the byte after it
as one, or two where their escape is two bytes long. -/
def preScan (maxLen : Nat) : Nat → Bytes → Nat
  | 0, _ => maxLen
  | fuel + 1, bytes =>
      let n := findAny4 dquote backslash dquote dquote bytes
      match bytes.drop n with
      | [] => maxLen + n
      | c :: more =>
          if c == dquote then maxLen + n
          else
            let wide := more.head? == some 0x4E || more.head? == some 0x5F
            preScan (maxLen + n + if wide then 2 else 1) fuel (more.drop 1)

/-- `max_len`: the buffer has room for one byte more. -/
def doubleQuotedMaxLen (bytes : Bytes) : Nat := preScan 0 (bytes.length + 1) bytes

/-- The count of the pass from a position on. -/
def decodedBound : Bytes → Nat
  | [] => 0
  | [c] => if c == dquote then 0 else 1
  | c :: d :: rest =>
      if c == dquote then 0
      else if c == backslash then decodedBound rest + if d == 0x4E || d == 0x5F then 2 else 1
      else decodedBound (d :: rest) + 1

section

variable {text : Bytes} {s s' q : Scanner} {out out' : Bytes} {contentEnd contentEnd' p : Nat}

/-! ### The pass -/

theorem decodedBound_plain {c : UInt8} (rest : Bytes) (notQuote : c ≠ dquote)
    (notEscape : c ≠ backslash) : decodedBound (c :: rest) = decodedBound rest + 1 := by
  cases rest with
  | nil =>
      rw [decodedBound.eq_2, beq_false_of_ne notQuote, if_neg Bool.false_ne_true]
      rfl
  | cons d rest =>
      rw [decodedBound, beq_false_of_ne notQuote, beq_false_of_ne notEscape,
        if_neg Bool.false_ne_true, if_neg Bool.false_ne_true]

theorem decodedBound_run {run : Bytes} (rest : Bytes)
    (plain : ∀ c ∈ run, c ≠ dquote ∧ c ≠ backslash) :
    decodedBound (run ++ rest) = decodedBound rest + run.length := by
  induction run with
  | nil => rfl
  | cons c run ih =>
      obtain ⟨notQuote, notEscape⟩ := plain c List.mem_cons_self
      rw [List.cons_append, decodedBound_plain _ notQuote notEscape,
        ih fun d member => plain d (List.mem_cons_of_mem _ member), List.length_cons, Nat.add_assoc]

theorem preScan_eq (maxLen fuel : Nat) (bytes : Bytes) (enough : bytes.length < fuel) :
    preScan maxLen fuel bytes = maxLen + decodedBound bytes := by
  induction fuel generalizing maxLen bytes with
  | zero => exact absurd enough (Nat.not_lt_zero _)
  | succ fuel ih =>
      obtain ⟨run, rest, rfl, all, halts⟩ :=
        exists_run (fun x => !(x == dquote || x == backslash || x == dquote || x == dquote)) bytes
      have plain : ∀ c ∈ run, c ≠ dquote ∧ c ≠ backslash := by
        intro c member
        have ordinary := all c member
        simp only [Bool.not_eq_true', Bool.or_eq_false_iff, beq_eq_false_iff_ne] at ordinary
        exact ordinary.1.1
      rw [preScan, findAny4, runLength_run all halts, List.drop_left, decodedBound_run rest plain]
      cases rest with
      | nil =>
          change maxLen + run.length = maxLen + (0 + run.length)
          rw [Nat.zero_add]
      | cons c more =>
          have isStop := halts c rfl
          dsimp only
          by_cases isQuote : c = dquote
          · subst isQuote
            rw [if_pos (beq_self_eq_true _)]
            cases more <;> simp [decodedBound]
          · have isEscape : c = backslash := by
              simp only [Bool.not_eq_false', Bool.or_eq_true, beq_iff_eq] at isStop
              tauto
            subst isEscape
            rw [if_neg (by decide), ih]
            · cases more with
              | nil =>
                  change maxLen + run.length + 1 + 0 = maxLen + (1 + run.length)
                  omega
              | cons d more =>
                  have notQuote : (backslash == dquote) = false := by decide
                  rw [decodedBound, notQuote, if_neg Bool.false_ne_true,
                    if_pos (beq_self_eq_true _)]
                  change maxLen + run.length + (if d == 0x4E || d == 0x5F then 2 else 1) +
                    decodedBound more = _
                  omega
            · rw [List.length_append, List.length_cons] at enough
              rw [List.length_drop]
              omega

theorem doubleQuotedMaxLen_eq (bytes : Bytes) : doubleQuotedMaxLen bytes = decodedBound bytes := by
  rw [doubleQuotedMaxLen, preScan_eq 0 _ bytes (Nat.lt_succ_self _), Nat.zero_add]

/-! ### Positions -/

theorem decodedBound_range {n : Nat} (within : p + n ≤ text.length)
    (plain : ∀ i < n, byteAt text (p + i) ≠ dquote ∧ byteAt text (p + i) ≠ backslash) :
    decodedBound (text.drop p) = decodedBound (text.drop (p + n)) + n := by
  have parts : text.drop p = textSlice text p (p + n) ++ text.drop (p + n) := by
    rw [textSlice, Nat.add_sub_cancel_left, ← List.drop_drop, List.take_append_drop]
  have size : (textSlice text p (p + n)).length = n := by
    rw [textSlice, List.length_take, List.length_drop]
    omega
  rw [parts, decodedBound_run, size]
  intro c member
  obtain ⟨o, later, before, isByte⟩ := mem_textSlice member
  obtain ⟨i, rfl⟩ := Nat.exists_eq_add_of_le later
  rw [isByte]
  exact plain i (Nat.lt_of_add_lt_add_left before)

/-- Blanks and breaks are counted one by one. -/
theorem decodedBound_gap {last : Nat} (later : p ≤ last) (within : last ≤ text.length)
    (gap : ∀ o, p ≤ o → o < last → isBlankOrBreak (byteAt text o) = true) :
    decodedBound (text.drop p) = decodedBound (text.drop last) + (last - p) := by
  obtain ⟨n, rfl⟩ := Nat.exists_eq_add_of_le later
  rw [decodedBound_range within, Nat.add_sub_cancel_left]
  intro i below
  have isGap := gap (p + i) (Nat.le_add_right _ _) (Nat.add_lt_add_left below _)
  constructor <;> intro same <;> rw [same] at isGap <;> cases isGap

theorem decodedBound_escape (isEscape : byteAt text p = backslash) (more : p + 1 < text.length) :
    decodedBound (text.drop p) = decodedBound (text.drop (p + 2)) +
      if byteAt text (p + 1) == 0x4E || byteAt text (p + 1) == 0x5F then 2 else 1 := by
  have notQuote : (backslash == dquote) = false := by decide
  rw [drop_eq_cons (Nat.lt_of_succ_lt more), drop_eq_cons more, isEscape, decodedBound, notQuote,
    if_neg Bool.false_ne_true, if_pos (beq_self_eq_true _)]

/-! ### Rounds -/

theorem encodeUtf8_length (cp : Nat) : (encodeUtf8 cp).length ≤ 4 := by
  rw [encodeUtf8]
  split
  · exact (by decide : 1 ≤ 4)
  split
  · exact (by decide : 2 ≤ 4)
  split
  · exact (by decide : 3 ≤ 4)
  · exact Nat.le_refl 4

theorem simpleEscape_length {esc : UInt8} {bytes : Bytes} (found : simpleEscape esc = some bytes) :
    bytes.length ≤ if esc == 0x4E || esc == 0x5F then 2 else 1 := by
  have all : ∀ esc, ∀ found ∈ simpleEscape esc,
      found.length ≤ if esc == 0x4E || esc == 0x5F then 2 else 1 := forall_byte (by decide +kernel)
  exact all esc bytes found

/-- An escape is no longer decoded than it is counted. -/
theorem escapeBytes_length {esc : UInt8} {rest bytes : Bytes} {n : Nat}
    (found : escapeBytes (esc :: rest) = some (bytes, n)) :
    bytes.length + 1 ≤ n + if esc == 0x4E || esc == 0x5F then 2 else 1 := by
  have positive : 1 ≤ if esc == 0x4E || esc == 0x5F then 2 else 1 := by
    split <;> decide
  rw [escapeBytes] at found
  split at found
  · rename_i simple
    cases found
    have short := simpleEscape_length simple
    omega
  split at found
  · obtain ⟨cp, _, same⟩ := Option.map_eq_some_iff.mp found
    cases same
    rw [List.length_singleton]
    omega
  split at found
  · obtain ⟨cp, _, same⟩ := Option.map_eq_some_iff.mp found
    cases same
    have short := encodeUtf8_length cp
    omega
  split at found
  · obtain ⟨cp, _, same⟩ := Option.map_eq_some_iff.mp found
    cases same
    have short := encodeUtf8_length cp
    omega
  · cases found

theorem foldBreaks_length {count : Nat} (some : 0 < count) : (foldBreaks count).length ≤ count := by
  rw [foldBreaks]
  split
  · exact some
  · rw [List.length_replicate]
    exact Nat.sub_le _ _

/-- Every break that is counted is a byte that is passed. -/
theorem skipBreakLines_count (fuel count : Nat) (reads : s.Reads text) :
    (s.skipBreakLines fuel count).2 + s.pos ≤ count + (s.skipBreakLines fuel count).1.pos := by
  induction fuel generalizing s count with
  | zero => exact Nat.le_refl _
  | succ fuel ih =>
      rw [Scanner.skipBreakLines]
      split
      · exact Nat.le_refl _
      · rename_i isBr
        simp only [Bool.or_eq_true, Bool.not_eq_true', not_or, Bool.not_eq_false] at isBr
        have isBr' : isBreak (byteAt text s.pos) = true := reads.peek_eq ▸ isBr.2
        have crossed : Moves text anyLine noEscape s s.skipBreak := .skipBreak reads isBr.2 trivial
        have further : s.pos < s.skipBreak.pos := by
          rw [Moves.skipBreak_eq reads isBr']
          exact lt_breakStop isBr'
        have blanks : Moves text anyLine noEscape s.skipBreak
            (s.skipBreak.advanceCols (skipBlanks s.skipBreak.rest)) :=
          skipBlanks_moves crossed.reads
        have later := blanks.pos_le
        dsimp only
        split
        · change count + 1 + s.pos ≤ count + (s.skipBreak.advanceCols
            (skipBlanks s.skipBreak.rest)).pos
          omega
        · have rest := ih (count + 1) blanks.reads
          omega

/-- What a round adds to the value, it takes from the count. -/
theorem DoubleRound.fits (round : DoubleRound text s out contentEnd q out' contentEnd')
    (reads : s.Reads text) (inside : s.pos < text.length) :
    out'.length + decodedBound (text.drop q.pos) ≤ out.length + decodedBound (text.drop s.pos) := by
  obtain ⟨reads', further⟩ := round.further reads inside
  have within := reads'.inside
  cases round with
  | @escape bytes n isEscape notBreak found =>
      have more : s.pos + 1 < text.length := by
        by_contra outside
        rw [List.drop_eq_nil_of_le (Nat.not_lt.mp outside)] at found
        cases found
      rw [drop_eq_cons more] at found
      have short := escapeBytes_length found
      obtain ⟨digits, rfl, _, hex, _⟩ := escapeBytes_eq_some found
      have far : (s.advanceCols (digits + 1 + 1)).pos = s.pos + 2 + digits := by
        change s.pos + (digits + 1 + 1) = _
        omega
      rw [far] at within ⊢
      have counted : decodedBound (text.drop (s.pos + 2)) =
          decodedBound (text.drop (s.pos + 2 + digits)) + digits := by
        apply decodedBound_range within
        intro i below
        have isDigit : isHex (byteAt text (s.pos + 2 + i)) = true := by
          rw [List.all_eq_true] at hex
          apply hex
          rw [byteAt, List.getD_eq_getElem?_getD, List.getElem?_eq_getElem (by omega),
            Option.getD_some]
          refine List.mem_iff_getElem.mpr ⟨i, by rw [List.length_take, List.length_drop]; omega, ?_⟩
          rw [List.getElem_take, List.getElem_drop]
        exact (isHex_plain isDigit).2
      rw [decodedBound_escape isEscape more, counted, List.length_append]
      omega
  | @joined q isEscape isBr reads'' pos =>
      have stop := lineUnit_breakStop isBr
      rw [joinedLength, List.drop_drop, stop] at pos
      have more := lt_length_of_isBreak isBr
      have past : s.pos + 2 ≤ q.pos := by
        have beyond := lt_breakStop isBr
        omega
      have counted := decodedBound_gap past within fun o later before => by
        rw [isBlankOrBreak, Bool.or_eq_true]
        by_cases early : o < breakStop text (s.pos + 1)
        · exact .inr (breakStop_bytes isBr (by omega) early)
        · left
          obtain ⟨i, rfl⟩ := Nat.exists_eq_add_of_le (Nat.not_lt.mp early)
          have all := runLength_all isBlank (text.drop (breakStop text (s.pos + 1))) (i := i)
            (by rw [skipBlanks] at pos; omega)
          rwa [getD_drop] at all
      rw [decodedBound_escape isEscape more, counted]
      omega
  | @lines q count isBr skipped =>
      have crosses := crosses_of_skip doubleUnit_lines reads (reads.peek_eq ▸ isBr) skipped
      have counted := decodedBound_gap (Nat.le_of_lt further) within fun o later before =>
        skipBreakLines_bytes s.remaining reads 0 later (skipped ▸ before)
      have passed := skipBreakLines_count s.remaining 0 reads
      rw [skipped] at passed
      have short := foldBreaks_length crosses.some
      rw [counted, List.length_append, List.length_take]
      dsimp only at passed
      omega
  | @run run n plain isLength isRun =>
      have counted : decodedBound (text.drop s.pos) = decodedBound (text.drop (s.pos + n)) + n := by
        apply decodedBound_range within
        intro i below
        have ordinary := runLength_all isQuotedPlain s.rest (isLength ▸ below)
        rw [reads.rest_eq, getD_drop] at ordinary
        simp only [isQuotedPlain, Bool.not_eq_true', Bool.or_eq_false_iff, beq_eq_false_iff_ne]
          at ordinary
        exact ⟨ordinary.1.1.1, ordinary.1.1.2⟩
      have size : run.length ≤ n := by
        rw [isRun]
        exact List.length_take_le _ _
      change _ + decodedBound (text.drop (s.pos + n)) ≤ _
      rw [counted, List.length_append]
      omega

/-- The first rounds of the decoding loop. -/
theorem doubleQuotedLoop_fits {rounds : Nat} (reads : s.Reads text)
    (ran : doubleQuotedLoop rounds out contentEnd s = .ok out' s') :
    out'.length ≤ out.length + decodedBound (text.drop s.pos) := by
  induction rounds generalizing s out contentEnd with
  | zero =>
      cases ran
      exact Nat.le_add_right _ _
  | succ rounds ih =>
      rcases doubleQuotedLoop_cases reads ran with ⟨_, rfl, _⟩ | ⟨inside, _, onward⟩
      · exact Nat.le_add_right _ _
      · obtain ⟨q, out₁, contentEnd₁, round, rest⟩ := onward
        have first := round.fits reads inside
        have others := ih (round.further reads inside).1 rest
        omega

/-- At every round the value is at most as long as the pass before the loop counted, in runs
that fail later too, so that the byte after it is in the buffer. -/
theorem doubleQuoted_fits (text : Bytes) (s : Scanner) (reads : s.Reads text)
    (isQuote : s.peek = dquote) (rounds : Nat) (out : Bytes) (s' : Scanner)
    (ran : doubleQuotedLoop rounds [] 0 (s.advance 1) = .ok out s') :
    out.length < doubleQuotedMaxLen (s.advance 1).rest + 1 := by
  have first : Moves text anyLine noEscape s (s.advance 1) :=
    .advance reads (by rw [isQuote]; rfl)
  have fits := doubleQuotedLoop_fits first.reads ran
  rw [List.length_nil, Nat.zero_add, ← first.reads.rest_eq, ← doubleQuotedMaxLen_eq] at fits
  exact Nat.lt_succ_of_le fits

end

/-- The text `"\N \`, whose last escape is cut off: the buffer is full after two rounds. -/
def cutEscape : Bytes := [dquote, backslash, 0x4E, space, backslash]

theorem doubleQuoted_fits_cutEscape :
    [0xC2, 0x85, space].length < doubleQuotedMaxLen ((Scanner.new cutEscape).advance 1).rest + 1 ∧
      ∃ s, doubleQuotedLoop 3 [] 0 ((Scanner.new cutEscape).advance 1) = .error .scan s := by
  obtain ⟨s', ran⟩ : ∃ s', doubleQuotedLoop 2 [] 0 ((Scanner.new cutEscape).advance 1) =
      .ok [0xC2, 0x85, space] s' := ⟨_, rfl⟩
  exact ⟨doubleQuoted_fits cutEscape _ (Scanner.new_between _).reads rfl 2 _ s' ran, _, rfl⟩

end Oyl
