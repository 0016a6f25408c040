import Oyl.Tokens.DoubleQuoted

/-!
# Folding of double-quoted scalars

The lines of a double-quoted scalar are folded, with escapes as content.  An escaped
break should be removed; the scanner reads it as empty content, so that the empty lines
after it are one line feed short.
-/

namespace Oyl

open StateError Folding

/-- A line break at the front of a text, and the blanks after it. -/
def joinedLength (rest : Bytes) : Nat :=
  (lineUnit rest).2 + 1 + skipBlanks (rest.drop ((lineUnit rest).2 + 1))

/-- The unit at the front of a double-quoted text.  An escaped break, with the blanks
after it, is `removed`. -/
def doubleUnit (removed : Piece UInt8) : Bytes → Piece UInt8 × Nat
  | [] => lineUnit []
  | c :: rest =>
      if c == backslash then
        if rest.head?.any isBreak then (removed, joinedLength rest)
        else (escapeBytes rest).elim (.solid [], 0) fun escape => (.solid escape.1, escape.2)
      else lineUnit (c :: rest)

/-- The offset of the first quote that is not escaped. -/
def closingDoubleQuote : Bytes → Option Nat
  | [] => none
  | [c] => if c == dquote then some 0 else none
  | c :: d :: rest =>
      if c == dquote then some 0
      else if c == backslash then (closingDoubleQuote rest).map (· + 2)
      else (closingDoubleQuote (d :: rest)).map (· + 1)

/-- The double quote that closes what follows an offset. -/
def ClosesDouble (text : Bytes) (first last : Nat) : Prop :=
  first ≤ last ∧ closingDoubleQuote (text.drop first) = some (last - first)

/-- What is read after `out`, of which all past `contentEnd` may still be dropped. -/
def readPast (out : Bytes) (contentEnd : Nat) (pieces : List (Piece UInt8)) : Bytes :=
  out.take contentEnd ++ foldGap space lf (.blanks (out.drop contentEnd)) pieces

/-- What one round of the decoding loop reads. -/
inductive DoubleRound (text : Bytes) (s : Scanner) (out : Bytes) (contentEnd : Nat) :
    Scanner → Bytes → Nat → Prop
  | escape {bytes : Bytes} {n : Nat} : byteAt text s.pos = backslash →
      isBreak (byteAt text (s.pos + 1)) = false →
      escapeBytes (text.drop (s.pos + 1)) = some (bytes, n) →
      DoubleRound text s out contentEnd (s.advanceCols (n + 1)) (out ++ bytes)
        (out ++ bytes).length
  | joined {q : Scanner} : byteAt text s.pos = backslash →
      isBreak (byteAt text (s.pos + 1)) = true → q.Reads text →
      q.pos = s.pos + 1 + joinedLength (text.drop (s.pos + 1)) →
      DoubleRound text s out contentEnd q out out.length
  | lines {q : Scanner} {count : Nat} : isBreak (byteAt text s.pos) = true →
      s.skipBreakLines s.remaining 0 = (q, count) →
      DoubleRound text s out contentEnd q (out.take contentEnd ++ foldBreaks count) contentEnd
  | run {run : Bytes} {n : Nat} : isQuotedPlain (byteAt text s.pos) = true →
      n = runLength isQuotedPlain s.rest → run = s.rest.take n →
      DoubleRound text s out contentEnd (s.advanceCols n) (out ++ run)
        (if (trimBlanks run).length > 0 then out.length + (trimBlanks run).length else contentEnd)

section

variable {text : Bytes} {s s' : Scanner} {out value : Bytes} {contentEnd : Nat}

/-! ### Rounds of the loop -/

theorem lineUnit_breakStop {p : Nat} (isBr : isBreak (byteAt text p) = true) :
    p + ((lineUnit (text.drop p)).2 + 1) = breakStop text p := by
  have inside := lt_length_of_isBreak isBr
  have head : (text.drop (p + 1)).head? = some lf ↔ byteAt text (p + 1) = lf := by
    by_cases more : p + 1 < text.length
    · rw [drop_eq_cons more, List.head?_cons, Option.some_inj]
    · have outside := Nat.not_lt.mp more
      rw [List.drop_eq_nil_of_le outside, byteAt_outside outside]
      constructor <;> intro same <;> cases same
  rw [drop_eq_cons inside, lineUnit, breakStop]
  by_cases both : byteAt text p = cr ∧ byteAt text (p + 1) = lf
  · rw [if_pos (by simp [both.1, head.mpr both.2]), if_pos (by simp [both.1, both.2])]
  · rw [if_neg, if_pos isBr, if_neg (by simpa using both)]
    rw [Bool.and_eq_true, beq_iff_eq, beq_iff_eq, head]
    exact both

theorem lineUnit_notJoined (c : UInt8) (rest : Bytes) : (lineUnit (c :: rest)).1 ≠ .joined := by
  rw [lineUnit]
  split
  · exact fun same => by cases same
  split
  · exact fun same => by cases same
  · rw [element]
    split <;> exact fun same => by cases same

/-- An escaped break at the cursor. -/
theorem doubleQuotedLoop_joined {fuel : Nat} (reads : s.Reads text)
    (isEscape : byteAt text s.pos = backslash) (isBr : isBreak (byteAt text (s.pos + 1)) = true)
    (ok : doubleQuotedLoop (fuel + 1) out contentEnd s = .ok value s') :
    ∃ q, q.Reads text ∧ q.pos = s.pos + 1 + joinedLength (text.drop (s.pos + 1)) ∧
      doubleQuotedLoop fuel out out.length q = .ok value s' := by
  have inside := lt_length_of_isBreak isBr
  have one : Moves text anyLine anyLine s (s.advance 1) :=
    .advance reads (by rw [reads.peek_eq, isEscape]; rfl)
  have pos : (s.advance 1).pos = s.pos + 1 := Moves.advance_pos reads (by omega)
  have open' : s.atEnd = false := by
    rw [Bool.eq_false_iff, ne_eq, reads.atEnd_iff]
    omega
  have open1 : (s.advance 1).atEnd = false := by
    rw [Bool.eq_false_iff, ne_eq, one.reads.atEnd_iff, pos]
    omega
  have peeked : (s.advance 1).peek = byteAt text (s.pos + 1) := by
    rw [one.reads.peek_eq, pos]
  rw [doubleQuotedLoop, get_bind_eq, open', reads.peek_eq, isEscape, if_neg (by decide),
    if_pos (beq_self_eq_true backslash)] at ok
  dsimp only at ok
  rw [run_bind, run_set] at ok
  dsimp only at ok
  rw [open1, if_neg Bool.false_ne_true, peeked, run_bind, run_set] at ok
  dsimp only at ok
  have isBr' := isBr
  rw [isBreak] at isBr'
  rw [if_pos isBr'] at ok
  generalize passed :
    (if (byteAt text (s.pos + 1) == cr && ((s.advance 1).advance 1).peek == lf) = true
      then ((s.advance 1).advance 1).advance 1 else (s.advance 1).advance 1) = q at ok
  have crossing : Moves text anyLine anyLine (s.advance 1) q ∧
      q.pos = breakStop text (s.advance 1).pos :=
    escapedBreak_moves one.reads (pos ▸ isBr) trivial (pos ▸ passed.symm)
  obtain ⟨crossed, stop⟩ := crossing
  have blanks : Moves text anyLine anyLine q (q.advanceCols (skipBlanks q.rest)) :=
    skipBlanks_moves crossed.reads
  obtain ⟨_, q', stored, rest⟩ := bind_eq_ok ok
  have isNext : q' = q.advanceCols (skipBlanks q.rest) := by
    cases stored
    rfl
  subst isNext
  split at rest
  · obtain ⟨_, _, failed, _⟩ := bind_eq_ok rest
    exact (scanError_ok failed).elim
  · refine ⟨_, blanks.reads, ?_, rest⟩
    have start : q.pos = s.pos + 1 + ((lineUnit (text.drop (s.pos + 1))).2 + 1) := by
      rw [stop, pos, lineUnit_breakStop isBr]
    rw [joinedLength, List.drop_drop, ← start, ← Nat.add_assoc, ← start, ← crossed.reads.rest_eq]
    rfl

/-- A backslash is not the last byte. -/
theorem doubleQuotedLoop_incomplete {fuel : Nat} (reads : s.Reads text)
    (isEscape : byteAt text s.pos = backslash) (outside : text.length ≤ s.pos + 1) :
    doubleQuotedLoop (fuel + 1) out contentEnd s ≠ .ok value s' := by
  intro ok
  have inside : s.pos < text.length := by
    by_contra ended
    rw [byteAt_outside (Nat.not_lt.mp ended)] at isEscape
    cases isEscape
  have one : Moves text anyLine anyLine s (s.advance 1) :=
    .advance reads (by rw [reads.peek_eq, isEscape]; rfl)
  have open' : s.atEnd = false := by
    rw [Bool.eq_false_iff, ne_eq, reads.atEnd_iff]
    exact Nat.not_le.mpr inside
  have ended : (s.advance 1).atEnd = true := by
    rw [one.reads.atEnd_iff, Moves.advance_pos reads inside]
    exact outside
  rw [doubleQuotedLoop, get_bind_eq, open', reads.peek_eq, isEscape, if_neg (by decide),
    if_pos (beq_self_eq_true backslash)] at ok
  dsimp only at ok
  rw [run_bind, run_set] at ok
  dsimp only at ok
  rw [ended, if_pos rfl] at ok
  cases ok

/-- The loop stops at the closing quote or at the end, or reads on. -/
theorem doubleQuotedLoop_cases {fuel : Nat} (reads : s.Reads text)
    (ok : doubleQuotedLoop (fuel + 1) out contentEnd s = .ok value s') :
    (s' = s ∧ value = out ∧ (s.atEnd = true ∨ s.peek = dquote)) ∨
      s.pos < text.length ∧ byteAt text s.pos ≠ dquote ∧
        ∃ q out' contentEnd', DoubleRound text s out contentEnd q out' contentEnd' ∧
          doubleQuotedLoop fuel out' contentEnd' q = .ok value s' := by
  cases stops : s.atEnd || s.peek == dquote with
  | true =>
      left
      rw [doubleQuotedLoop, get_bind_eq, stops] at ok
      cases ok
      refine ⟨rfl, rfl, ?_⟩
      simpa using stops
  | false =>
      right
      obtain ⟨open', notQuote⟩ := Bool.or_eq_false_iff.mp stops
      have inside : s.pos < text.length := by
        rw [Bool.eq_false_iff, ne_eq, reads.atEnd_iff] at open'
        exact Nat.not_le.mp open'
      rw [beq_eq_false_iff_ne, reads.peek_eq] at notQuote
      refine ⟨inside, notQuote, ?_⟩
      by_cases isEscape : byteAt text s.pos = backslash
      · cases isBr : isBreak (byteAt text (s.pos + 1)) with
        | true =>
            obtain ⟨q, reads', pos, rest⟩ := doubleQuotedLoop_joined reads isEscape isBr ok
            exact ⟨q, _, _, .joined isEscape isBr reads' pos, rest⟩
        | false =>
            have more : s.pos + 1 < text.length := by
              by_contra outside
              exact doubleQuotedLoop_incomplete reads isEscape (Nat.not_lt.mp outside) ok
            have step := doubleQuotedLoop_escape fuel out contentEnd reads more isEscape isBr
            cases found : escapeBytes (text.drop (s.pos + 1)) with
            | none =>
                obtain ⟨q, failed⟩ := step.2 found
                rw [failed] at ok
                cases ok
            | some escape =>
                rcases step.1 escape.1 escape.2 found with next | ⟨_, _, q, failed⟩
                · rw [next] at ok
                  exact ⟨_, _, _, .escape isEscape isBr found, ok⟩
                · rw [failed] at ok
                  cases ok
      · cases isBr : isBreak (byteAt text s.pos) with
        | true =>
            rw [doubleQuotedLoop, get_bind_eq, stops, reads.peek_eq, isBr,
              if_neg Bool.false_ne_true, beq_false_of_ne isEscape, if_neg Bool.false_ne_true,
              if_pos rfl] at ok
            obtain ⟨count, q, crossed, rest⟩ := bind_eq_ok ok
            exact ⟨q, _, _, .lines isBr (quotedBreak_lines crossed), rest⟩
        | false =>
            have plain : isQuotedPlain (byteAt text s.pos) = true := by
              obtain ⟨notLf, notCr⟩ := Bool.or_eq_false_iff.mp isBr
              rw [isQuotedPlain, beq_false_of_ne notQuote, beq_false_of_ne isEscape, notLf, notCr]
              rfl
            rw [doubleQuotedLoop_run fuel out contentEnd open' (reads.peek_eq ▸ plain)] at ok
            exact ⟨_, _, _, .run plain rfl rfl, ok⟩

/-! ### What a round reads -/

theorem runLength_take {p : UInt8 → Bool} {bytes : Bytes} {n : Nat}
    (enough : runLength p bytes ≤ n) : runLength p (bytes.take n) = runLength p bytes := by
  induction bytes generalizing n with
  | nil => rw [List.take_nil]
  | cons c rest ih =>
      rw [runLength] at enough
      cases n with
      | zero =>
          split at enough
          · exact absurd enough (Nat.not_succ_le_zero _)
          · rename_i stops
            rw [List.take_zero, runLength, runLength, if_neg stops]
      | succ n =>
          rw [List.take_succ_cons, runLength, runLength]
          split
          · rename_i goesOn
            rw [if_pos goesOn] at enough
            rw [ih (Nat.le_of_succ_le_succ enough)]
          · rfl

theorem head_drop_run {p : UInt8 → Bool} {bytes : Bytes} {c : UInt8}
    (isHead : (bytes.drop (runLength p bytes)).head? = some c) : p c = false := by
  induction bytes with
  | nil => cases isHead
  | cons d rest ih =>
      rw [runLength] at isHead
      split at isHead
      · exact ih isHead
      · rename_i stops
        cases isHead
        exact Bool.eq_false_iff.mpr stops

theorem skipBlanks_slice {p last : Nat} (past : p + skipBlanks (text.drop p) ≤ last) :
    skipBlanks (textSlice text p last) = skipBlanks (text.drop p) :=
  runLength_take (Nat.le_sub_of_add_le' past)

theorem joinedLength_slice {p last : Nat} (isBr : isBreak (byteAt text p) = true)
    (past : p + joinedLength (text.drop p) ≤ last) (within : last ≤ text.length) :
    joinedLength (textSlice text p last) = joinedLength (text.drop p) := by
  have stop := lineUnit_breakStop isBr
  have inside := lt_length_of_isBreak isBr
  rw [joinedLength] at past
  have same : (lineUnit (textSlice text p last)).2 = (lineUnit (text.drop p)).2 := by
    rw [textSlice_cons (by omega) within, drop_eq_cons inside, lineUnit, lineUnit,
      textSlice_head within]
    by_cases both : byteAt text p = cr ∧ byteAt text (p + 1) = lf
    · have two : breakStop text p = p + 2 := by simp [breakStop, both.1, both.2]
      have reach : p + 1 < last := by omega
      have more : p + 1 < text.length := by omega
      rw [if_pos reach, drop_eq_cons more, both.1, both.2]
      rfl
    · have apart : ∀ o : Option UInt8, (o = none ∨ o = some (byteAt text (p + 1))) →
          (byteAt text p == cr && o == some lf) = false := by
        rintro o (rfl | rfl)
        · exact Bool.and_false _
        · rw [← Bool.not_eq_true, Bool.and_eq_true, beq_iff_eq, beq_iff_eq, Option.some_inj]
          exact both
      rw [apart, apart]
      · by_cases more : p + 1 < text.length
        · exact .inr (by rw [drop_eq_cons more, List.head?_cons])
        · exact .inl (by rw [List.drop_eq_nil_of_le (Nat.not_lt.mp more)]; rfl)
      · split
        · exact .inr rfl
        · exact .inl rfl
  rw [joinedLength, joinedLength, same, textSlice_drop, List.drop_drop, skipBlanks_slice]
  rw [List.drop_drop] at past
  omega

theorem escapeBytes_slice {p n last : Nat} {bytes : Bytes}
    (found : escapeBytes (text.drop p) = some (bytes, n)) (past : p + n ≤ last)
    (within : last ≤ text.length) : escapeBytes (textSlice text p last) = some (bytes, n) := by
  have inside : p < text.length := by
    by_contra outside
    rw [List.drop_eq_nil_of_le (Nat.not_lt.mp outside)] at found
    cases found
  rw [drop_eq_cons inside] at found
  obtain ⟨digits, rfl, _, _, same⟩ := escapeBytes_eq_some found
  rw [textSlice_cons (by omega) within]
  apply same
  rw [textSlice, List.take_take, Nat.min_eq_left (by omega)]

theorem doubleUnit_lines : ReadsLines (doubleUnit (.solid [])) where
  gap c rest gap := by
    have notEscape : (c == backslash) = false := by
      apply beq_false_of_ne
      rintro rfl
      cases gap
    rw [doubleUnit, notEscape]
    rfl
  content c rest pieces content := by
    rw [doubleUnit]
    split
    · split
      · exact .inr (.inl ⟨_, _, rfl⟩)
      · cases escapeBytes rest with
        | none => exact .inr (.inl ⟨_, _, rfl⟩)
        | some escape => exact .inr (.inl ⟨_, _, rfl⟩)
    · exact lineUnit_starts pieces content

/-- What is read in the rounds that are left. -/
theorem readPast_nil : readPast out contentEnd [] = out := List.take_append_drop contentEnd out

theorem readPast_solid (content : Bytes) (pieces : List (Piece UInt8)) :
    readPast out contentEnd (.solid content :: pieces) =
      readPast (out ++ content) (out ++ content).length pieces := by
  rw [readPast, readPast, foldGap, Gap.text, List.take_length, List.drop_length,
    ← List.append_assoc, ← List.append_assoc, List.take_append_drop]

theorem readPast_blank {x : UInt8} (pieces : List (Piece UInt8)) (short : contentEnd ≤ out.length) :
    readPast out contentEnd (.blank x :: pieces) = readPast (out ++ [x]) contentEnd pieces := by
  rw [readPast, readPast, foldGap, Gap.blank, List.take_append_of_le_length short,
    List.drop_append_of_le_length short]

/-- A run of ordinary bytes. -/
theorem readPast_elements (run : Bytes) (pieces : List (Piece UInt8))
    (short : contentEnd ≤ out.length) :
    readPast out contentEnd (run.map (element isBlank) ++ pieces) =
      readPast (out ++ run)
        (if (trimBlanks run).length > 0 then out.length + (trimBlanks run).length else contentEnd)
        pieces := by
  induction run using List.reverseRecOn generalizing pieces with
  | nil => rw [List.map_nil, List.nil_append, List.append_nil]; rfl
  | append_singleton run x ih =>
      rw [List.map_append, List.append_assoc, ih, List.map_singleton, List.singleton_append,
        ← List.append_assoc]
      cases blank : isBlank x with
      | true =>
          have trimmed : trimBlanks (run ++ [x]) = trimBlanks run :=
            List.rdropWhile_concat_pos _ _ _ blank
          rw [element, if_pos blank, trimmed]
          apply readPast_blank
          rw [List.length_append]
          split
          · exact Nat.add_le_add_left (List.rdropWhile_prefix _ _).length_le _
          · exact Nat.le_trans short (Nat.le_add_right _ _)
      | false =>
          have solid : ¬isBlank x = true := by simp [blank]
          have trimmed : trimBlanks (run ++ [x]) = run ++ [x] :=
            List.rdropWhile_concat_neg _ _ _ solid
          rw [element, if_neg solid, readPast_solid, trimmed, if_pos (by simp)]
          simp only [List.length_append, Nat.add_assoc]

/-- Breaks before content. -/
theorem readPast_lines {count : Nat} {breaks pieces : List (Piece UInt8)}
    (isLines : Lines count breaks) (some : 0 < count) (starts : Starts pieces)
    (short : contentEnd ≤ out.length) :
    readPast out contentEnd (breaks ++ pieces) =
      readPast (out.take contentEnd ++ foldBreaks count) contentEnd pieces := by
  obtain ⟨count, rfl⟩ := Nat.exists_eq_succ_of_ne_zero (Nat.ne_of_gt some)
  have length : (out.take contentEnd).length = contentEnd := by
    rw [List.length_take, Nat.min_eq_left short]
  rw [readPast, readPast, isLines.foldGap_eq, Nat.succ_eq_add_one, foldBreaks_eq, Gap.newlines,
    Gap.newline, Gap.newlines_breaks, Nat.zero_add, List.take_append_of_le_length (by omega),
    List.drop_append_of_le_length (by omega), List.take_take, Nat.min_self,
    List.drop_eq_nil_of_le (by omega), List.nil_append]
  rcases starts with rfl | ⟨content, rest, rfl⟩ | ⟨rest, rfl⟩
  · rfl
  · rfl
  · rfl

/-! ### The closing quote -/

namespace ClosesDouble

variable {p last : Nat}

theorem here (isQuote : byteAt text p = dquote) (inside : p < text.length) :
    ClosesDouble text p p := by
  refine ⟨Nat.le_refl _, ?_⟩
  rw [drop_eq_cons inside, isQuote, Nat.sub_self]
  cases text.drop (p + 1) with
  | nil => rfl
  | cons d rest => rfl

theorem inside (closes : ClosesDouble text p last) : p < text.length := by
  by_contra outside
  have none := closes.2
  rw [List.drop_eq_nil_of_le (Nat.not_lt.mp outside)] at none
  cases none

theorem escape (isEscape : byteAt text p = backslash) (closes : ClosesDouble text (p + 2) last) :
    ClosesDouble text p last := by
  have inside := closes.inside
  obtain ⟨later, isClose⟩ := closes
  refine ⟨by omega, ?_⟩
  rw [drop_eq_cons (by omega), drop_eq_cons (by omega), isEscape, closingDoubleQuote,
    if_neg (by decide), if_pos (beq_self_eq_true _), isClose, Option.map_some]
  congr 1
  omega

theorem byte (notQuote : byteAt text p ≠ dquote) (notEscape : byteAt text p ≠ backslash)
    (closes : ClosesDouble text (p + 1) last) : ClosesDouble text p last := by
  have inside := closes.inside
  obtain ⟨later, isClose⟩ := closes
  refine ⟨by omega, ?_⟩
  rw [drop_eq_cons inside] at isClose
  rw [drop_eq_cons (by omega), drop_eq_cons inside, closingDoubleQuote,
    if_neg (by simpa using notQuote), if_neg (by simpa using notEscape), isClose, Option.map_some]
  congr 1
  omega

theorem range {n : Nat} (plain : ∀ i < n, byteAt text (p + i) ≠ dquote ∧
    byteAt text (p + i) ≠ backslash) (closes : ClosesDouble text (p + n) last) :
    ClosesDouble text p last := by
  induction n with
  | zero => exact closes
  | succ n ih =>
      have before := plain n (Nat.lt_succ_self n)
      exact ih (fun i below => plain i (Nat.lt_succ_of_lt below)) (.byte before.1 before.2 closes)

/-- Blanks and breaks before the rest. -/
theorem gap {first : Nat} (ordered : first ≤ p)
    (isGap : ∀ o, first ≤ o → o < p → isBlankOrBreak (byteAt text o) = true)
    (closes : ClosesDouble text p last) : ClosesDouble text first last := by
  obtain ⟨n, rfl⟩ := Nat.exists_eq_add_of_le ordered
  refine closes.range fun i below => ?_
  have gap := isGap (first + i) (Nat.le_add_right _ _) (Nat.add_lt_add_left below _)
  constructor <;> intro same <;> rw [same] at gap <;> cases gap

end ClosesDouble

namespace DoubleRound

variable {q : Scanner} {out' : Bytes} {contentEnd' : Nat}

/-- A round reads something. -/
theorem further (round : DoubleRound text s out contentEnd q out' contentEnd')
    (reads : s.Reads text) (inside : s.pos < text.length) : q.Reads text ∧ s.pos < q.pos := by
  cases round with
  | @escape bytes n _ _ found =>
      have more : s.pos + 1 < text.length := by
        by_contra outside
        rw [List.drop_eq_nil_of_le (Nat.not_lt.mp outside)] at found
        cases found
      rw [drop_eq_cons more] at found
      obtain ⟨digits, rfl, short, _, _⟩ := escapeBytes_eq_some found
      rw [List.length_drop] at short
      refine ⟨reads.advanceCols (by omega), ?_⟩
      exact Nat.lt_add_of_pos_right (Nat.succ_pos _)
  | joined _ _ reads' pos => exact ⟨reads', by omega⟩
  | lines isBr skipped =>
      have crosses := crosses_of_skip doubleUnit_lines reads (reads.peek_eq ▸ isBr) skipped
      exact ⟨crosses.reads, crosses.further⟩
  | run plain isLength _ =>
      refine ⟨isLength ▸ reads.advanceCols (reads.run_within _), ?_⟩
      refine Nat.lt_add_of_pos_right ?_
      rw [isLength, reads.rest_eq, drop_eq_cons inside, runLength, if_pos plain]
      exact Nat.succ_pos _

/-- What a round reads is what its units read as. -/
theorem value_eq (round : DoubleRound text s out contentEnd q out' contentEnd')
    (reads : s.Reads text) (short : contentEnd ≤ out.length) {last : Nat}
    (past : q.pos ≤ last) (within : last ≤ text.length) :
    readPast out contentEnd (units (doubleUnit (.solid [])) 0 (textSlice text s.pos last)) =
      readPast out' contentEnd' (units (doubleUnit (.solid [])) 0 (textSlice text q.pos last)) := by
  cases round with
  | @escape bytes n isEscape notBreak found =>
      have one : Yields (doubleUnit (.solid [])) text s.pos (s.pos + (n + 1)) [.solid bytes] := by
        refine Yields.single n (by omega) fun last past within => ?_
        have slice := escapeBytes_slice found (by omega) within
        have head : (textSlice text (s.pos + 1) last).head?.any isBreak = false := by
          rw [textSlice_head within]
          split
          · exact notBreak
          · rfl
        rw [doubleUnit, isEscape, if_pos (beq_self_eq_true _), head, if_neg Bool.false_ne_true,
          slice]
        rfl
      rw [one.cut last past within]
      exact readPast_solid bytes _
  | @joined q isEscape isBr reads' pos =>
      have one : Yields (doubleUnit (.solid [])) text s.pos q.pos [.solid []] := by
        refine Yields.single (joinedLength (text.drop (s.pos + 1))) pos.symm
          fun last past within => ?_
        have some : 0 < joinedLength (text.drop (s.pos + 1)) := by
          rw [joinedLength]
          omega
        have slice := joinedLength_slice isBr (pos ▸ past) within
        have head : (textSlice text (s.pos + 1) last).head?.any isBreak = true := by
          rw [textSlice_head within, if_pos (by omega)]
          exact isBr
        rw [doubleUnit, isEscape, if_pos (beq_self_eq_true _), head, if_pos rfl, slice]
      rw [one.cut last past within]
      rw [List.singleton_append, readPast_solid, List.append_nil]
  | @lines q count isBr skipped =>
      have crosses := crosses_of_skip doubleUnit_lines reads (reads.peek_eq ▸ isBr) skipped
      obtain ⟨pieces, yields, isLines⟩ := crosses.yields
      rw [yields.cut last past within]
      exact readPast_lines isLines crosses.some
        (crosses.content.starts doubleUnit_lines crosses.reads within) short
  | @run run n plain isLength isRun =>
      have inRun (i : Nat) (below : i < n) : isQuotedPlain (byteAt text (s.pos + i)) = true := by
        have all := runLength_all isQuotedPlain s.rest (isLength ▸ below)
        rwa [reads.rest_eq, getD_drop] at all
      have elements : Yields (doubleUnit (.solid [])) text s.pos (s.pos + n)
          (run.map (element isBlank)) := by
        have slice := reads.take_eq n
        rw [isRun, slice]
        refine Yields.elements (element isBlank) (fun i below rest => ?_) ?_
        · have ordinary := inRun i below
          simp only [isQuotedPlain, Bool.not_eq_true', Bool.or_eq_false_iff] at ordinary
          have notBreak : isBreak (byteAt text (s.pos + i)) = false := by
            rw [isBreak, ordinary.1.2, ordinary.2]
            rfl
          rw [doubleUnit, ordinary.1.1.2]
          exact lineUnit_plain notBreak
        · rw [isLength]
          exact reads.run_within _
      rw [elements.cut last past within]
      exact readPast_elements run _ short

theorem short (round : DoubleRound text s out contentEnd q out' contentEnd')
    (short : contentEnd ≤ out.length) : contentEnd' ≤ out'.length := by
  cases round with
  | escape _ _ _ => exact Nat.le_refl _
  | joined _ _ _ _ => exact Nat.le_refl _
  | lines _ _ =>
      rw [List.length_append, List.length_take, Nat.min_eq_left short]
      exact Nat.le_add_right _ _
  | @run run n plain isLength isRun =>
      rw [List.length_append]
      split
      · exact Nat.add_le_add_left (List.rdropWhile_prefix _ _).length_le _
      · exact Nat.le_trans short (Nat.le_add_right _ _)

/-- No round passes the closing quote. -/
theorem closes (round : DoubleRound text s out contentEnd q out' contentEnd')
    (reads : s.Reads text) {last : Nat} (closes : ClosesDouble text q.pos last) :
    ClosesDouble text s.pos last := by
  cases round with
  | @escape bytes n isEscape _ found =>
      have more : s.pos + 1 < text.length := by
        by_contra outside
        rw [List.drop_eq_nil_of_le (Nat.not_lt.mp outside)] at found
        cases found
      rw [drop_eq_cons more] at found
      obtain ⟨digits, rfl, short, hex, _⟩ := escapeBytes_eq_some found
      rw [List.length_drop] at short
      apply ClosesDouble.escape isEscape
      have far : (s.advanceCols (digits + 1 + 1)).pos = s.pos + 2 + digits := by
        change s.pos + (digits + 1 + 1) = _
        omega
      rw [far] at closes
      refine closes.range fun i below => (isHex_plain ?_).2
      rw [List.all_eq_true] at hex
      apply hex
      rw [byteAt, List.getD_eq_getElem?_getD, List.getElem?_eq_getElem (by omega), Option.getD_some]
      refine List.mem_iff_getElem.mpr ⟨i, by rw [List.length_take, List.length_drop]; omega, ?_⟩
      rw [List.getElem_take, List.getElem_drop]
  | @joined q isEscape isBr reads' pos =>
      have stop := lineUnit_breakStop isBr
      rw [joinedLength, List.drop_drop, stop] at pos
      rcases breakStop_cases isBr with ⟨one, _⟩ | ⟨two, _⟩
      all_goals
        apply ClosesDouble.escape isEscape
        refine closes.gap (by omega) fun o later before => ?_
        rw [isBlankOrBreak, Bool.or_eq_true]
        by_cases early : o < breakStop text (s.pos + 1)
        · exact .inr (breakStop_bytes isBr (by omega) early)
        · left
          obtain ⟨i, rfl⟩ := Nat.exists_eq_add_of_le (Nat.not_lt.mp early)
          have all := runLength_all isBlank (text.drop (breakStop text (s.pos + 1))) (i := i)
            (by rw [skipBlanks] at pos; omega)
          rwa [getD_drop] at all
  | @lines q count isBr skipped =>
      have crosses := crosses_of_skip doubleUnit_lines reads (reads.peek_eq ▸ isBr) skipped
      refine closes.gap (Nat.le_of_lt crosses.further) fun o later before => ?_
      exact skipBreakLines_bytes s.remaining reads 0 later (skipped ▸ before)
  | @run run n plain isLength isRun =>
      have closes' : ClosesDouble text (s.pos + n) last := closes
      refine closes'.range fun i below => ?_
      have ordinary := runLength_all isQuotedPlain s.rest (isLength ▸ below)
      rw [reads.rest_eq, getD_drop] at ordinary
      simp only [isQuotedPlain, Bool.not_eq_true', Bool.or_eq_false_iff, beq_eq_false_iff_ne]
        at ordinary
      exact ordinary.1.1

end DoubleRound

/-! ### The loop -/

/-- What the decoding loop reads up to the closing quote, or to the end of the text. -/
theorem doubleQuotedLoop_reads {fuel : Nat} (reads : s.Reads text) (short : contentEnd ≤ out.length)
    (enough : s.remaining < fuel) (ok : doubleQuotedLoop fuel out contentEnd s = .ok value s') :
    s'.Reads text ∧ s.pos ≤ s'.pos ∧
      value = readPast out contentEnd
        (units (doubleUnit (.solid [])) 0 (textSlice text s.pos s'.pos)) ∧
      (s'.peek = dquote → ClosesDouble text s.pos s'.pos) := by
  induction fuel generalizing s out contentEnd with
  | zero => exact absurd enough (Nat.not_lt_zero _)
  | succ fuel ih =>
      rcases doubleQuotedLoop_cases reads ok with ⟨rfl, rfl, stops⟩ | ⟨inside, notQuote, onward⟩
      · refine ⟨reads, Nat.le_refl _, ?_, fun isQuote => ?_⟩
        · rw [textSlice_self, units, readPast_nil]
        · rw [reads.peek_eq] at isQuote
          refine .here isQuote ?_
          by_contra outside
          rw [byteAt_outside (Nat.not_lt.mp outside)] at isQuote
          cases isQuote
      · obtain ⟨q, out', contentEnd', round, rest⟩ := onward
        obtain ⟨reads', further⟩ := round.further reads inside
        have less : q.remaining < fuel := by
          have inside' := reads'.inside
          rw [Scanner.remaining, reads.len] at enough
          rw [Scanner.remaining, reads'.len]
          omega
        obtain ⟨reads'', later, isValue, closes⟩ := ih reads' (round.short short) less rest
        refine ⟨reads'', Nat.le_of_lt (Nat.lt_of_lt_of_le further later), ?_, fun isQuote => ?_⟩
        · rw [isValue, round.value_eq reads short later reads''.inside]
        · exact round.closes reads (closes isQuote)

/-! ### Folding as it should be -/

theorem units_settle (skip : Nat) (bytes : Bytes) :
    (units (doubleUnit .joined) skip bytes).map Piece.settle =
      units (doubleUnit (.solid [])) skip bytes := by
  have settled (p : Piece UInt8) (isJoined : p ≠ .joined) : p.settle = p := by
    cases p with
    | solid content => rfl
    | blank x => rfl
    | newline => rfl
    | joined => exact absurd rfl isJoined
  have unit (c : UInt8) (rest : Bytes) :
      (doubleUnit .joined (c :: rest)).1.settle = (doubleUnit (.solid []) (c :: rest)).1 ∧
        (doubleUnit .joined (c :: rest)).2 = (doubleUnit (.solid []) (c :: rest)).2 := by
    rw [doubleUnit, doubleUnit]
    split
    · split
      · exact ⟨rfl, rfl⟩
      · cases escapeBytes rest with
        | none => exact ⟨rfl, rfl⟩
        | some escape => exact ⟨rfl, rfl⟩
    · exact ⟨settled _ (lineUnit_notJoined c rest), rfl⟩
  induction bytes generalizing skip with
  | nil => cases skip <;> rfl
  | cons c rest ih =>
      cases skip with
      | succ skip => exact ih skip
      | zero =>
          obtain ⟨piece, more⟩ := unit c rest
          rw [units, units, List.map_cons, piece, more, ih]

theorem doubleUnit_blank {c x : UInt8} {rest : Bytes}
    (isBlank' : (doubleUnit .joined (c :: rest)).1 = .blank x) : isBlank c = true := by
  rw [doubleUnit] at isBlank'
  split at isBlank'
  · split at isBlank'
    · cases isBlank'
    · cases found : escapeBytes rest with
      | none =>
          rw [found] at isBlank'
          cases isBlank'
      | some escape =>
          rw [found] at isBlank'
          cases isBlank'
  · rw [lineUnit] at isBlank'
    split at isBlank'
    · cases isBlank'
    split at isBlank'
    · cases isBlank'
    · rw [element] at isBlank'
      split at isBlank'
      · assumption
      · cases isBlank'

/-- The blanks after an escaped break are removed with it. -/
theorem units_flush (skip : Nat) (bytes : Bytes) :
    (units (doubleUnit .joined) skip bytes).IsChain Flush := by
  induction bytes generalizing skip with
  | nil => cases skip <;> exact .nil
  | cons c rest ih =>
      cases skip with
      | succ skip => exact ih skip
      | zero =>
          rw [units]
          refine List.isChain_cons.mpr ⟨fun next isNext isJoined x isBlank' => ?_, ih _⟩
          have length : (doubleUnit .joined (c :: rest)).2 = joinedLength rest := by
            rw [doubleUnit] at isJoined ⊢
            split at isJoined
            · split at isJoined
              · rename_i isEscape isBr
                rw [if_pos isEscape, if_pos isBr]
              · cases found : escapeBytes rest with
                | none =>
                    rw [found] at isJoined
                    cases isJoined
                | some escape =>
                    rw [found] at isJoined
                    cases isJoined
            · exact absurd isJoined (lineUnit_notJoined c rest)
          rw [length, units_skip, joinedLength, ← List.drop_drop] at isNext
          generalize rest.drop ((lineUnit rest).2 + 1) = after at isNext
          cases tail : after.drop (skipBlanks after) with
          | nil =>
              rw [tail] at isNext
              cases isNext
          | cons d tail' =>
              have notBlank : isBlank d = false := by
                refine @head_drop_run isBlank after d ?_
                rw [← skipBlanks, tail]
                rfl
              rw [tail, units] at isNext
              have same := (Option.some.inj isNext).trans isBlank'
              rw [doubleUnit_blank same] at notBlank
              cases notBlank

/-- The text between the quotes of a token. -/
def quotedBody (text : Bytes) (tok : Token) : Bytes :=
  textSlice text (tok.start.offset + 1) (tok.stop.offset - 1)

theorem scanDoubleQuoted_folded {tok : Token} (reads : s.Reads text) (isQuote : s.peek = dquote)
    (ok : scanDoubleQuoted s = .ok tok s') :
    ClosesDouble text (tok.start.offset + 1) (tok.stop.offset - 1) ∧
      tok.value = foldText (units (doubleUnit (.solid [])) 0 (quotedBody text tok)) := by
  have first : Moves text (unmarked text) noEscape s (s.advance 1) :=
    .advance reads (by rw [isQuote]; rfl)
  have inside : s.pos < text.length := by
    by_contra outside
    rw [reads.peek_eq, byteAt_outside (Nat.not_lt.mp outside)] at isQuote
    cases isQuote
  have pos := Moves.advance_pos reads inside
  rw [scanDoubleQuoted_eq reads isQuote, scanDoubleQuotedBuffered, get_bind_eq] at ok
  obtain ⟨_, q, advanced, rest⟩ := bind_eq_ok ok
  have isNext : q = s.advance 1 := by
    cases advanced
    rfl
  rw [← isNext] at first pos
  rw [get_bind_eq] at rest
  obtain ⟨out, q', looped, more⟩ := bind_eq_ok rest
  obtain ⟨reads', _, value, closes⟩ :=
    doubleQuotedLoop_reads first.reads (Nat.le_refl _) (Nat.lt_succ_self _) looped
  rw [get_bind_eq] at more
  split at more
  · obtain ⟨_, _, failed, _⟩ := bind_eq_ok more
    exact (scanError_ok failed).elim
  rename_i isClose
  simp only [bne_iff_ne, ne_eq, Decidable.not_not] at isClose
  have closes' := closes isClose
  obtain ⟨_, q2, advanced', last⟩ := bind_eq_ok more
  have isNext' : q2 = q'.advance 1 := by
    cases advanced'
    rfl
  have inside' : q'.pos < text.length := by
    by_contra outside
    rw [reads'.peek_eq, byteAt_outside (Nat.not_lt.mp outside)] at isClose
    cases isClose
  have pos' := Moves.advance_pos reads' inside'
  rw [← isNext'] at pos'
  rw [pos] at closes' value
  cases last
  have stop : q2.pos - 1 = q'.pos := by
    rw [pos']
    rfl
  exact ⟨stop.symm ▸ closes', by rw [quotedBody]; exact stop.symm ▸ value⟩

/-- The lines of a double-quoted token are folded, but where an empty line follows an
escaped break. -/
theorem doubleQuoted_folded {allowed : Scanner → Prop} {toks : List Token} {tok : Token}
    (run : Scanned text allowed toks s) (member : tok ∈ toks) (isScalar : tok.type = .scalar)
    (style : tok.scalarStyle = .doubleQuoted) :
    ClosesDouble text (tok.start.offset + 1) (tok.stop.offset - 1) ∧
      (tok.value = foldText (units (doubleUnit .joined) 0 (quotedBody text tok)) ↔
        ¬[.joined, .newline] <:+: units (doubleUnit .joined) 0 (quotedBody text tok)) := by
  obtain ⟨_, q, _, before, ok⟩ := run.step tok member
  obtain ⟨atToken, read⟩ := scanToken_scalar before.between isScalar ok
  cases read with
  | double _ isQuote ok =>
      obtain ⟨closes, value⟩ := scanDoubleQuoted_folded atToken.reads isQuote ok
      refine ⟨closes, ?_⟩
      rw [value, ← units_settle]
      exact Follows.fold_settle (by decide) (units_flush 0 _)
  | plain other =>
      rw [style] at other
      cases other
  | single other =>
      rw [style] at other
      cases other
  | block other =>
      rw [style] at other
      rcases other with other | other <;> cases other

end

/-- `"a \`, ` b `, an empty line, `c"`. -/
def joinedText : Bytes :=
  [dquote, 0x61, space, backslash, lf, space, 0x62, space, lf, lf, 0x63, dquote]

theorem doubleQuoted_folded_joinedText :
    ∃ toks s, Scanned joinedText (fun _ => True) toks s ∧ ∃ tok ∈ toks,
      tok.value = [0x61, space, 0x62, lf, 0x63] ∧
      tok.value = foldText (units (doubleUnit .joined) 0 (quotedBody joinedText tok)) := by
  obtain ⟨toks, s, run, tok, member, type, style, value, first, last⟩ := exists_scanned joinedText
    (fun _ => True) 2 (fun toks => ∃ tok ∈ toks, tok.type = .scalar ∧
      tok.scalarStyle = .doubleQuoted ∧ tok.value = [0x61, space, 0x62, lf, 0x63] ∧
      tok.start.offset = 0 ∧ tok.stop.offset = 12) (by decide +kernel)
  have folded := doubleQuoted_folded run member type style
  refine ⟨toks, s, run, tok, member, value, folded.2.mpr ?_⟩
  rw [quotedBody, first, last]
  decide

/-- The empty line after an escaped break reads as a space. -/
theorem doubleQuoted_folded_emptyLine :
    ∃ toks s, Scanned [dquote, 0x61, backslash, lf, lf, 0x62, dquote] (fun _ => True) toks s ∧
      ∃ tok ∈ toks, tok.type = .scalar ∧ tok.scalarStyle = .doubleQuoted ∧
        tok.value = [0x61, space, 0x62] ∧
        foldText (units (doubleUnit .joined) 0
          (quotedBody [dquote, 0x61, backslash, lf, lf, 0x62, dquote] tok)) = [0x61, lf, 0x62] :=
  exists_scanned _ (fun _ => True) 2 (fun toks => ∃ tok ∈ toks, tok.type = .scalar ∧
    tok.scalarStyle = .doubleQuoted ∧ tok.value = [0x61, space, 0x62] ∧
    foldText (units (doubleUnit .joined) 0
      (quotedBody [dquote, 0x61, backslash, lf, lf, 0x62, dquote] tok)) = [0x61, lf, 0x62])
    (by decide +kernel)

end Oyl
