import Oyl.Scanner.Simd
import Oyl.Tokens.PlainScalar

/-!
# The vector forms scan the same

The scans of `oyl_simd` find the same bytes on vectors as byte by byte.  The plain scan
on vectors also stops at `\` and `|`, and the loop of `scan_plain_scalar` reads on past
these.
-/

namespace Oyl

open StateError Vectors

/-! ### Scans for a byte -/

theorem runLength_eq_findIdx (p : UInt8 → Bool) (bytes : Bytes) :
    runLength p bytes = bytes.findIdx fun x => !p x := by
  induction bytes with
  | nil => rfl
  | cons c rest ih =>
      rw [runLength, List.findIdx_cons, ih]
      cases p c <;> rfl

theorem blocks_within (bytes : Bytes) : 16 * (bytes.length / 16) ≤ bytes.length :=
  Nat.mul_div_le _ _

/-- A block in which the bytes with a property are wanted. -/
theorem ctz_block {chunk : Bytes} (size : chunk.length = 16) (p : UInt8 → Bool) :
    (if mask (chunk.map p) != 0 then some (ctz (mask (chunk.map p))) else none) =
      chunk.findIdx? p := by
  by_cases some : true ∈ chunk.map p
  · have isIndex : (chunk.map p).findIdx id = chunk.findIdx p := by
      rw [List.findIdx_map]
      rfl
    have below : chunk.findIdx p < chunk.length := by
      obtain ⟨x, member, isTrue⟩ := List.mem_map.mp some
      exact List.findIdx_lt_length_of_exists ⟨x, member, isTrue⟩
    rw [if_pos (by rw [bne_iff_ne, ne_eq, mask_eq_zero, not_not]; exact some), ctz,
      trailingZeros_mask some (by rw [List.length_map]; omega), isIndex]
    exact (List.findIdx?_eq_some_iff_findIdx_eq.mpr ⟨below, rfl⟩).symm
  · rw [if_neg (by rw [bne_iff_ne, ne_eq, mask_eq_zero, not_not]; exact some)]
    refine (List.findIdx?_eq_none_iff.mpr fun x member => ?_).symm
    exact Bool.eq_false_iff.mpr fun isTrue => some (List.mem_map.mpr ⟨x, member, isTrue⟩)

/-- A block in which the bytes without a property are wanted. -/
theorem ctz_complement_block {chunk : Bytes} (size : chunk.length = 16) (p : UInt8 → Bool) :
    (if mask (chunk.map p) != 0xFFFF then some (ctz (2 ^ 32 - 1 - mask (chunk.map p))) else none) =
      chunk.findIdx? fun x => !p x := by
  have length : (chunk.map p).length = 16 := by rw [List.length_map, size]
  have full : mask (chunk.map p) = 0xFFFF ↔ false ∉ chunk.map p := by
    rw [← mask_full, length]
    rfl
  by_cases some : false ∈ chunk.map p
  · have isIndex : (chunk.map p).findIdx (!·) = chunk.findIdx fun x => !p x := by
      rw [List.findIdx_map]
      rfl
    have below : (chunk.findIdx fun x => !p x) < chunk.length := by
      obtain ⟨x, member, isFalse⟩ := List.mem_map.mp some
      exact List.findIdx_lt_length_of_exists ⟨x, member, by rw [isFalse]; rfl⟩
    rw [if_pos (by rw [bne_iff_ne, ne_eq, full, not_not]; exact some), ctz,
      trailingZeros_complement (by omega), isIndex]
    exact (List.findIdx?_eq_some_iff_findIdx_eq.mpr ⟨below, rfl⟩).symm
  · rw [if_neg (by rw [bne_iff_ne, ne_eq, full, not_not]; exact some)]
    refine (List.findIdx?_eq_none_iff.mpr fun x member => ?_).symm
    rw [Bool.not_eq_false']
    by_contra isFalse
    exact some (List.mem_map.mpr ⟨x, member, Bool.eq_false_iff.mpr isFalse⟩)

theorem skipBlanksSse42_eq (bytes : Bytes) : skipBlanksSse42 bytes = skipBlanks bytes := by
  rw [skipBlanks, runLength_eq_findIdx]
  refine blockScan_eq (fun chunk size => ?_) (fun l => ?_) (blocks_within bytes)
  · simp only [cmpeq_set1 size, or_byteMask, movemask_byteMask]
    exact ctz_complement_block size isBlank
  · exact runLength_eq_findIdx isBlank l

theorem scanToBreakSse42_eq (bytes : Bytes) : scanToBreakSse42 bytes = scanToBreak bytes := by
  have stops : (fun c => !!isBreak c) = isBreak := by
    funext c
    exact Bool.not_not _
  rw [scanToBreak, runLength_eq_findIdx, stops]
  refine blockScan_eq (fun chunk size => ?_) (fun l => ?_) (blocks_within bytes)
  · simp only [cmpeq_set1 size, or_byteMask, movemask_byteMask]
    exact ctz_block size isBreak
  · rw [scanToBreak, runLength_eq_findIdx, stops]

theorem findAny4Sse2_eq (a b c d : UInt8) (bytes : Bytes) :
    findAny4Sse2 a b c d bytes = findAny4 a b c d bytes := by
  have stops : (fun x => !!(x == a || x == b || x == c || x == d)) =
      fun x => x == a || x == b || x == c || x == d := by
    funext x
    exact Bool.not_not _
  rw [findAny4, runLength_eq_findIdx, stops]
  refine blockScan_eq (fun chunk size => ?_) (fun l => ?_) (blocks_within bytes)
  · simp only [cmpeq_set1 size, or_byteMask, movemask_byteMask, ← Bool.or_assoc]
    exact ctz_block size _
  · rw [findAny4, runLength_eq_findIdx, stops]

/-- Both forms of the short scan are the plain one. -/
theorem findAny4Short_eq (a b c d : UInt8) (n : Nat) (bytes : Bytes) :
    findAny4Short (findAny4 a b c d) a b c d n bytes = findAny4 a b c d bytes := by
  induction n generalizing bytes with
  | zero => rfl
  | succ n ih =>
      cases bytes with
      | nil => rfl
      | cons x rest =>
          rw [findAny4Short, ih, findAny4, runLength]
          cases x == a || x == b || x == c || x == d <;> rfl

/-! ### The bit mask of the lookahead -/

theorem flowMask16_eq {v : Bytes} (size : v.length = 16) :
    flowMask16 v = mask (v.map isFkStop) := by
  have lowered : (v.map (· ||| 0x20)).length = 16 := by rw [List.length_map, size]
  have brackets : ∀ x : UInt8, ((x ||| 0x20) == lbrace || (x ||| 0x20) == rbrace) =
      (x == lbracket || x == lbrace || (x == rbracket || x == rbrace)) :=
    forall_byte (by decide +kernel)
  rw [flowMask16]
  simp only [or_set1 size, cmpeq_set1 size, cmpeq_set1 lowered, byteMask_map, or_byteMask,
    movemask_byteMask]
  congr 2
  funext x
  rw [brackets x, isFkStop, isBreak]
  ac_rfl

theorem flowMask64_eq {p : Bytes} (size : p.length = 64) :
    flowMask64 p = mask (p.map isFkStop) := by
  have bytes : (List.range 64).map (fun k => isFkStop (p.getD k 0)) = p.map isFkStop := by
    rw [← size]
    refine List.ext_getElem (by simp) fun k below _ => ?_
    simp only [List.getElem_map, List.getElem_range, List.getD_eq_getElem?_getD]
    rw [List.getElem?_eq_getElem (by simpa using below), Option.getD_some]
  rw [flowMask64, foldl_mask fun k => isFkStop (p.getD k 0), bytes]

theorem flowMask64Sse2_eq {p : Bytes} (size : p.length = 64) :
    flowMask64Sse2 p = flowMask64 p := by
  have block (n : Nat) (within : n + 16 ≤ 64) : ((p.drop n).take 16).length = 16 :=
    List.length_take_of_le (by rw [List.length_drop]; omega)
  have first : (p.take 16).length = 16 := block 0 (by decide)
  have last : (p.drop 48).take 16 = p.drop 48 :=
    List.take_of_length_le (by rw [List.length_drop]; omega)
  have split : p = p.take 16 ++ ((p.drop 16).take 16 ++ ((p.drop 32).take 16 ++ p.drop 48)) := by
    have more (n : Nat) : (p.drop n).take 16 ++ p.drop (n + 16) = p.drop n := by
      rw [← List.drop_drop, List.take_append_drop]
    rw [more 32, more 16, List.take_append_drop]
  rw [flowMask64_eq size, flowMask64Sse2, flowMask16_eq first, flowMask16_eq (block 16 (by decide)),
    flowMask16_eq (block 32 (by decide)), flowMask16_eq (block 48 (by decide)), last]
  conv_rhs => rw [split]
  simp only [List.map_append, mask_append, List.length_map, first, block 16 (by decide),
    block 32 (by decide), Nat.shiftLeft_or_distrib, ← Nat.shiftLeft_add, Nat.or_assoc]

/-! ### The plain scan -/

/-- A byte at which the plain scan on vectors stops, though it ends no plain run. -/
def slowsPlainRun (c : UInt8) : Bool := c == backslash || c == pipe

theorem inRanges_structRanges (c : UInt8) :
    inRanges (structRanges.take structRangesLen) c = (endsPlainRun c || slowsPlainRun c) := by
  have all : ∀ c, inRanges (structRanges.take structRangesLen) c =
      (endsPlainRun c || slowsPlainRun c) := forall_byte (by decide +kernel)
  exact all c

/-- The plain scan on vectors stops at the same byte or earlier, at `\\` or `|`. -/
theorem plainRunSse42_spec (bytes : Bytes) :
    plainRunSse42 bytes ≤ plainRun bytes ∧ (plainRunSse42 bytes < plainRun bytes →
      ∃ c, bytes[plainRunSse42 bytes]? = some c ∧ slowsPlainRun c = true) := by
  have ends : (fun c => !!endsPlainRun c) = endsPlainRun := by
    funext c
    exact Bool.not_not _
  have tail (l : Bytes) : plainRun l = l.findIdx endsPlainRun := by
    rw [plainRun, runLength_eq_findIdx, ends]
  have block (chunk : Bytes) (size : chunk.length = 16) :
      (if cmpestriRanges structRanges structRangesLen chunk 16 < 16 then
        some (cmpestriRanges structRanges structRangesLen chunk 16) else none) =
        chunk.findIdx? (inRanges (structRanges.take structRangesLen)) := by
    rw [cmpestriRanges, List.take_of_length_le (Nat.le_of_eq size)]
    cases found : chunk.findIdx? (inRanges (structRanges.take structRangesLen)) with
    | none => rfl
    | some i =>
        have below := (List.findIdx?_eq_some_iff_findIdx_eq.mp found).1
        rw [Option.getD_some, if_pos (size ▸ below)]
  have stricter (c : UInt8) (isEnd : endsPlainRun c = true) :
      inRanges (structRanges.take structRangesLen) c = true := by
    rw [inRanges_structRanges, isEnd]
    rfl
  obtain ⟨before, stopped⟩ := blockScan_spec stricter block tail (blocks_within bytes)
  rw [← tail] at before stopped
  refine ⟨before, fun less => ?_⟩
  obtain ⟨c, isAt, stop⟩ := stopped less
  refine ⟨c, isAt, ?_⟩
  have quiet := List.not_of_lt_findIdx (tail bytes ▸ less)
  obtain ⟨_, isAt'⟩ := List.getElem?_eq_some_iff.mp isAt
  have inside := Nat.lt_of_lt_of_le less (runLength_le _ _)
  have isByte : bytes[plainRunSse42 bytes] = c := isAt'
  rw [isByte] at quiet
  rwa [inRanges_structRanges, quiet, Bool.false_or] at stop

section

variable {text : Bytes} {s : Scanner} {out : PlainOut}

theorem PlainOut.append_append (out : PlainOut) (first second : Bytes) :
    (out.append first).append second = out.append (first ++ second) := by
  cases out with
  | single start len => rw [append, append, append, List.length_append, Nat.add_assoc]
  | inBuf out => rw [append, append, append, List.append_assoc]

/-- A round goes on only past the cursor. -/
theorem plainScanRound_congr {again again' : PlainOut → ScanM PlainOut} (reads : s.Reads text)
    (same : ∀ q out, q.Reads text → s.pos < q.pos → again out q = again' out q) :
    plainScanRound again out s = plainScanRound again' out s := by
  rw [plainScanRound, plainScanRound, get_bind_eq, get_bind_eq]
  cases ended : s.atEnd with
  | true => rfl
  | false =>
      have inside : s.pos < text.length := by
        rw [Bool.eq_false_iff, ne_eq, reads.atEnd_iff] at ended
        exact Nat.not_le.mp ended
      have one (notBreak : isBreak s.peek = false) (out : PlainOut) :
          (do set (s.advance 1); again out) s = (do set (s.advance 1); again' out) s := by
        have moved : Moves text anyLine noEscape s (s.advance 1) := .advance reads notBreak
        have further : s.pos < (s.advance 1).pos := by
          rw [Moves.advance_pos reads inside]
          exact Nat.lt_succ_self _
        exact same _ out moved.reads further
      rw [if_neg Bool.false_ne_true, if_neg Bool.false_ne_true]
      dsimp only
      split
      · rename_i isColon
        split
        · exact one (by rw [beq_iff_eq.mp isColon]; rfl) _
        · rfl
      split
      · rename_i isHash
        split
        · rfl
        split
        · rfl
        · exact one (by rw [beq_iff_eq.mp isHash]; rfl) _
      split
      · rfl
      split
      · rename_i blank
        have moved : Moves text anyLine noEscape s (s.advanceCols (skipBlanks s.rest)) :=
          skipBlanks_moves reads
        have further : s.pos < (s.advanceCols (skipBlanks s.rest)).pos := by
          refine Nat.lt_add_of_pos_right ?_
          rw [reads.peek_eq] at blank
          rw [reads.rest_eq, drop_eq_cons inside, skipBlanks, runLength, if_pos blank]
          exact Nat.succ_pos _
        rw [run_bind, run_bind, run_set]
        dsimp only
        split
        · rfl
        split
        · exact same _ _ moved.reads further
        · exact same _ _ moved.reads further
      split
      · rename_i isBr
        generalize skipped : s.skipBreakLines s.remaining 0 = found
        obtain ⟨next, count⟩ := found
        have crosses := crosses_of_skip lineUnit_lines reads isBr skipped
        dsimp only
        split
        · rfl
        · exact same _ _ crosses.reads crosses.further
      · rename_i notBreak
        split
        · rfl
        · exact one (Bool.eq_false_iff.mpr notBreak) _

/-- A byte at which only the scan on vectors stops is a byte of the scalar. -/
theorem plainScanRound_slow {again : PlainOut → ScanM PlainOut} (reads : s.Reads text)
    (inside : s.pos < text.length) (slow : slowsPlainRun (byteAt text s.pos) = true) :
    plainScanRound again out s =
      again (out.append [byteAt text s.pos]) (s.advanceCols 1) := by
  have ended : s.atEnd = false := by
    rw [Bool.eq_false_iff, ne_eq, reads.atEnd_iff]
    exact Nat.not_le.mpr inside
  have apart : ∀ c, slowsPlainRun c = true → (c == colon) = false ∧ (c == hash) = false ∧
      isFlow c = false ∧ isBlank c = false ∧ isBreak c = false ∧ isControl c = false := by
    intro c isSlow
    rw [slowsPlainRun, Bool.or_eq_true, beq_iff_eq, beq_iff_eq] at isSlow
    rcases isSlow with rfl | rfl <;> decide
  obtain ⟨notColon, notHash, notFlow, notBlank, notBreak, notControl⟩ := apart _ slow
  have moved : s.advance 1 = s.advanceCols 1 :=
    Moves.advance_plain reads ended (reads.peek_eq ▸ notBreak)
  rw [plainScanRound, get_bind_eq, ended, if_neg Bool.false_ne_true, reads.peek_eq, notColon,
    notHash, notFlow, notBlank, notBreak, notControl, Bool.and_false, moved]
  rfl

theorem plainScanLoop_succ (run : Bytes → Nat) (fuel : Nat) (out : PlainOut) (s : Scanner) :
    plainScanLoop run (fuel + 1) out s =
      plainScanRound (plainScanLoop run fuel) (out.append (s.rest.take (run s.rest)))
        (s.advanceCols (run s.rest)) := rfl

/-- The loop of `scan_plain_scalar` on either plain scan. -/
theorem plainScanLoop_eq {fuel fuel' : Nat} (reads : s.Reads text) (enough : s.remaining < fuel)
    (enough' : s.remaining < fuel') :
    plainScanLoop plainRunSse42 fuel out s = plainScanLoop plainRun fuel' out s := by
  induction fuel generalizing s out fuel' with
  | zero => exact absurd enough (Nat.not_lt_zero _)
  | succ fuel ih =>
      obtain ⟨fuel', rfl⟩ := Nat.exists_eq_succ_of_ne_zero
          (Nat.ne_of_gt (Nat.zero_lt_of_lt enough'))
      have less {q : Scanner} (reads' : q.Reads text) (further : s.pos < q.pos) :
          q.remaining < fuel ∧ q.remaining < fuel' := by
        have inside := reads'.inside
        rw [Scanner.remaining, reads.len] at enough enough'
        rw [Scanner.remaining, reads'.len]
        omega
      have within := reads.run_within fun c => !endsPlainRun c
      obtain ⟨before, stopped⟩ := plainRunSse42_spec s.rest
      rw [Nat.succ_eq_add_one, plainScanLoop_succ, plainScanLoop_succ]
      rcases Nat.lt_or_eq_of_le before with early | same
      · -- the scan on vectors stops inside the run
        obtain ⟨c, isAt, slow⟩ := stopped early
        generalize plainRunSse42 s.rest = n at *
        have short : n < s.rest.length := Nat.lt_of_lt_of_le early (runLength_le _ _)
        have inside : s.pos + n < text.length := by
          rw [reads.rest_eq, List.length_drop] at short
          omega
        have isByte : byteAt text (s.pos + n) = c := by
          rw [← getD_drop, ← reads.rest_eq, List.getD_eq_getElem?_getD, isAt]
          rfl
        have reads' : (s.advanceCols n).Reads text := reads.advanceCols (Nat.le_of_lt inside)
        have reads'' : (s.advanceCols (n + 1)).Reads text := reads.advanceCols inside
        have taken : s.rest.take n ++ [c] = s.rest.take (n + 1) := by
          rw [List.take_add_one, isAt]
          rfl
        have further : s.pos < (s.advanceCols (n + 1)).pos := by
          change s.pos < s.pos + (n + 1)
          omega
        obtain ⟨enough1, enough2⟩ := less reads'' further
        have whole : plainRun s.rest = (n + 1) + plainRun ((s.advanceCols (n + 1)).rest) := by
          rw [Scanner.rest_advanceCols]
          refine runLength_add _ _ (fun i below => ?_) (Nat.lt_of_lt_of_le early (runLength_le _ _))
          exact runLength_all _ _ (Nat.lt_of_lt_of_le below early)
        rw [plainScanRound_slow reads' inside (isByte.symm ▸ slow), PlainOut.append_append,
          advanceCols_add, Nat.add_comm n 1, Nat.add_comm 1 n,
          ih reads'' enough1 (Nat.lt_succ_of_lt enough2), plainScanLoop_succ,
          PlainOut.append_append, advanceCols_add, whole]
        have isByte' : byteAt text (s.advanceCols n).pos = c := isByte
        rw [isByte', taken, Scanner.rest_advanceCols, ← List.take_add]
      · rw [same]
        refine plainScanRound_congr (reads.advanceCols within) fun q out reads' further => ?_
        obtain ⟨enough1, enough2⟩ := less reads' (Nat.lt_of_le_of_lt (Nat.le_add_right _ _) further)
        exact ih reads' enough1 enough2

theorem scanPlainScalarOn_eq (reads : s.Reads text) :
    scanPlainScalarOn plainRunSse42 s = scanPlainScalarOn plainRun s := by
  have loop : plainScanLoop plainRunSse42 (s.remaining + 1) (.single s.mark.offset 0) s =
      plainScanLoop plainRun (s.remaining + 1) (.single s.mark.offset 0) s :=
    plainScanLoop_eq reads (Nat.lt_succ_self _) (Nat.lt_succ_self _)
  rw [scanPlainScalarOn, scanPlainScalarOn, get_bind_eq, get_bind_eq, get_bind_eq, get_bind_eq,
    run_bind, run_bind, loop]

/-! ### The two buffers -/

/-- A result with the value in either buffer, and one with its bytes. -/
inductive ReadsAs (text : Bytes) : EStateM.Result Status Scanner PlainOut →
    EStateM.Result Status Scanner Bytes → Prop
  | ok {out : PlainOut} {s : Scanner} : ReadsAs text (.ok out s) (.ok (out.bytes text) s)
  | error {e : Status} {s : Scanner} : ReadsAs text (.error e s) (.error e s)

/-- A slice of the input ends at the cursor, or a break comes next. -/
def PlainOut.Ends (out : PlainOut) (s : Scanner) : Prop :=
  ∀ start len, out = .single start len → start + len = s.pos ∨ isBreak s.peek = true

theorem PlainOut.bytes_trim (buf : Bytes) (out : PlainOut) :
    (out.trim buf).bytes buf = trimBlanks (out.bytes buf) := by
  cases out with
  | inBuf out => rfl
  | single start len =>
      rw [trim, bytes, bytes]
      have isPrefix : trimBlanks ((buf.drop start).take len) <+: (buf.drop start).take len :=
        List.rdropWhile_prefix _ _
      have whole := isPrefix.trans (List.take_prefix len (buf.drop start))
      exact (List.prefix_iff_eq_take.mp whole).symm

theorem PlainOut.Ends.append {n : Nat} (ends : out.Ends s) (reads : s.Reads text)
    (contiguous : n = 0 ∨ isBreak s.peek = false) :
    (out.append (s.rest.take n)).bytes text = out.bytes text ++ s.rest.take n := by
  cases out with
  | inBuf out => rfl
  | single start len =>
      rcases contiguous with rfl | notBreak
      · rw [List.take_zero, List.append_nil]
        rfl
      · have isEnd : start + len = s.pos := by
          refine (ends start len rfl).resolve_right ?_
          rw [notBreak]
          exact Bool.false_ne_true
        rw [PlainOut.append, PlainOut.bytes, PlainOut.bytes, List.take_add, List.drop_drop, isEnd,
          ← reads.rest_eq, List.length_take]
        rcases Nat.le_total n s.rest.length with short | long
        · rw [Nat.min_eq_left short]
        · rw [Nat.min_eq_right long, List.take_length, List.take_of_length_le long]

theorem PlainOut.Ends.advance {n : Nat} (ends : out.Ends s) (within : n ≤ s.rest.length)
    (contiguous : n = 0 ∨ isBreak s.peek = false) :
    (out.append (s.rest.take n)).Ends (s.advanceCols n) := by
  intro start len isSingle
  cases out with
  | inBuf out => cases isSingle
  | single first long =>
      cases isSingle
      rw [List.length_take, Nat.min_eq_left within]
      rcases contiguous with rfl | notBreak
      · exact ends start long rfl
      · left
        have isEnd := (ends start long rfl).resolve_right
          (by rw [notBreak]; exact Bool.false_ne_true)
        rw [← Nat.add_assoc, isEnd]
        rfl

/-- A round with the value in either buffer. -/
theorem plainScanRound_reads {again : PlainOut → ScanM PlainOut} {again' : Bytes → ScanM Bytes}
    (reads : s.Reads text) (ends : out.Ends s)
    (same : ∀ q out, q.Reads text → out.Ends q →
      ReadsAs text (again out q) (again' (out.bytes text) q)) :
    ReadsAs text (plainScanRound again out s) (plainRound again' (out.bytes text) s) := by
  rw [plainScanRound, plainRound, get_bind_eq, get_bind_eq]
  cases ended : s.atEnd with
  | true => exact .ok
  | false =>
      have inside : s.pos < text.length := by
        rw [Bool.eq_false_iff, ne_eq, reads.atEnd_iff] at ended
        exact Nat.not_le.mp ended
      have front : s.rest.take 1 = [s.peek] := by
        rw [reads.rest_eq, reads.peek_eq, drop_eq_cons inside]
        rfl
      have one (notBreak : isBreak s.peek = false) :
          ReadsAs text ((do set (s.advance 1); again (out.append [s.peek])) s)
            ((do set (s.advance 1); again' (out.bytes text ++ [s.peek])) s) := by
        have moved : s.advance 1 = s.advanceCols 1 := Moves.advance_plain reads ended notBreak
        have enough : 1 ≤ s.rest.length := by
          rw [reads.rest_eq, List.length_drop]
          omega
        have isBytes := ends.append reads (.inr notBreak) (n := 1)
        have ends' := ends.advance enough (.inr notBreak)
        rw [front] at isBytes ends'
        rw [← isBytes, moved]
        exact same _ _ (reads.advanceCols inside) ends'
      rw [if_neg Bool.false_ne_true, if_neg Bool.false_ne_true]
      dsimp only
      split
      · rename_i isColon
        rw [beq_iff_eq] at isColon
        split
        · exact isColon ▸ one (by rw [isColon]; rfl)
        · exact .ok
      split
      · rename_i isHash
        rw [beq_iff_eq] at isHash
        rw [reads.buf]
        split
        · exact out.bytes_trim text ▸ .ok
        split
        · exact .ok
        · exact isHash ▸ one (by rw [isHash]; rfl)
      split
      · exact .ok
      split
      · rename_i blank
        have notBreak := isBreak_of_isBlank blank
        have moved : Moves text anyLine noEscape s (s.advanceCols (skipBlanks s.rest)) :=
          skipBlanks_moves reads
        rw [run_bind, run_bind, run_set]
        dsimp only
        split
        · exact .ok
        split
        · rename_i isBr
          exact same _ _ moved.reads fun _ _ _ => .inr isBr
        · have isBytes := ends.append reads (.inr notBreak) (n := skipBlanks s.rest)
          rw [← isBytes]
          exact same _ _ moved.reads (ends.advance (runLength_le _ _) (.inr notBreak))
      split
      · rename_i isBr
        generalize skipped : s.skipBreakLines s.remaining 0 = found
        obtain ⟨next, count⟩ := found
        have crosses := crosses_of_skip lineUnit_lines reads isBr skipped
        dsimp only
        split
        · exact .ok
        · rw [reads.buf, ← out.bytes_trim text]
          exact same _ _ crosses.reads fun _ _ isSingle => by cases isSingle
      · rename_i notBreak
        split
        · exact .error
        · exact one (Bool.eq_false_iff.mpr notBreak)

/-- The loop of `scan_plain_scalar` with the value in either buffer. -/
theorem plainScanLoop_reads {fuel : Nat} (reads : s.Reads text) (ends : out.Ends s) :
    ReadsAs text (plainScanLoop plainRun fuel out s) (plainLoop fuel (out.bytes text) s) := by
  induction fuel generalizing s out with
  | zero => exact .ok
  | succ fuel ih =>
      have within := reads.run_within fun c => !endsPlainRun c
      have contiguous : plainRun s.rest = 0 ∨ isBreak s.peek = false := by
        by_cases none : plainRun s.rest = 0
        · exact .inl none
        · right
          have first := runLength_all (fun c => !endsPlainRun c) s.rest (Nat.pos_of_ne_zero none)
          rw [reads.rest_eq, getD_drop, Nat.add_zero, ← reads.peek_eq] at first
          exact isBreak_of_endsPlainRun first
      rw [plainScanLoop_succ, plainLoop_succ, get_bind_eq, run_bind, run_set]
      dsimp only
      rw [← ends.append reads contiguous]
      exact plainScanRound_reads (reads.advanceCols within)
        (ends.advance (runLength_le _ _) contiguous) fun q out reads' ends' => ih reads' ends'

/-- The two buffers hold the value of `scan_plain_scalar`. -/
theorem scanPlainScalarOn_plain (reads : s.Reads text) :
    scanPlainScalarOn plainRun s = scanPlainScalar s := by
  have ends : (PlainOut.single s.pos 0).Ends s := by
    intro start len isSingle
    cases isSingle
    exact .inl rfl
  have loop : ReadsAs text (plainScanLoop plainRun (s.remaining + 1) (.single s.mark.offset 0) s)
      (plainLoop (s.remaining + 1) [] s) := plainScanLoop_reads reads ends
  rw [scanPlainScalarOn, scanPlainScalar, get_bind_eq, get_bind_eq, get_bind_eq, get_bind_eq,
    run_bind, run_bind]
  generalize looped : plainLoop (s.remaining + 1) [] s = result at loop
  generalize plainScanLoop plainRun (s.remaining + 1) (.single s.mark.offset 0) s = result' at loop
  cases loop with
  | error => rfl
  | @ok out q =>
      have moves : Moves text (unmarked text) noEscape s q := plainLoop_moves reads looped
      dsimp only
      rw [get_bind_eq, get_bind_eq, moves.reads.buf, out.bytes_trim text]

end

/-- The vector forms give what the others give, but for the plain scan, which also stops at
`\\` and `|`; `scan_plain_scalar` is the same on both. -/
theorem vectors_agree :
    (∀ bytes, skipBlanksSse42 bytes = skipBlanks bytes) ∧
    (∀ bytes, scanToBreakSse42 bytes = scanToBreak bytes) ∧
    (∀ a b c d bytes, findAny4Sse2 a b c d bytes = findAny4 a b c d bytes) ∧
    (∀ a b c d bytes, findAny4Short (findAny4Sse2 a b c d) a b c d 8 bytes =
      findAny4Short (findAny4 a b c d) a b c d 8 bytes ∧
      findAny4Short (findAny4Sse2 a b c d) a b c d 8 bytes = findAny4 a b c d bytes) ∧
    (∀ p : Bytes, p.length = 64 → flowMask64Sse2 p = flowMask64 p) ∧
    (∀ bytes, plainRunSse42 bytes ≤ plainRun bytes ∧ (plainRunSse42 bytes < plainRun bytes →
      ∃ c, bytes[plainRunSse42 bytes]? = some c ∧ slowsPlainRun c = true)) ∧
    ∀ text s, s.Reads text → scanPlainScalarOn plainRunSse42 s = scanPlainScalarOn plainRun s ∧
      scanPlainScalarOn plainRunSse42 s = scanPlainScalar s := by
  refine ⟨skipBlanksSse42_eq, scanToBreakSse42_eq, findAny4Sse2_eq, fun a b c d bytes => ?_,
    fun p => flowMask64Sse2_eq, plainRunSse42_spec, fun text s reads => ?_⟩
  · rw [funext (findAny4Sse2_eq a b c d)]
    exact ⟨rfl, findAny4Short_eq a b c d 8 bytes⟩
  · have same := scanPlainScalarOn_eq reads
    exact ⟨same, same.trans (scanPlainScalarOn_plain reads)⟩

/-- Seventeen bytes, with a backslash among the first sixteen. -/
def slashedText : Bytes := List.replicate 8 0x61 ++ [backslash] ++ List.replicate 8 0x61

theorem vectors_agree_slashedText :
    plainRunSse42 slashedText = 8 ∧ plainRun slashedText = 17 ∧
      scanPlainScalarOn plainRunSse42 (Scanner.new slashedText) =
        scanPlainScalarOn plainRun (Scanner.new slashedText) :=
  ⟨by decide +kernel, by decide +kernel,
    (vectors_agree.2.2.2.2.2.2 slashedText _ (Scanner.new_between slashedText).reads).1⟩

end Oyl
