import Oyl.Tokens.Dispatch
import Oyl.Tokens.Pieces

/-!
# Single-quoted scalars

A single-quoted scalar ends at the first quote that is not doubled, and its value is
the text before it with its lines folded.
-/

namespace Oyl

open StateError Folding

/-- The unit at the front of a single-quoted text.  A doubled quote is one quote. -/
def singleUnit : Bytes → Piece UInt8 × Nat
  | [] => lineUnit []
  | c :: rest =>
      if c == squote && rest.head? == some squote then (.solid [squote], 1)
      else lineUnit (c :: rest)

/-- The offset of the first quote that is not doubled. -/
def closingQuote : Bytes → Option Nat
  | [] => none
  | [c] => if c == squote then some 0 else none
  | c :: d :: rest =>
      if c == squote then
        if d == squote then (closingQuote rest).map (· + 2) else some 0
      else (closingQuote (d :: rest)).map (· + 1)

/-- The quote that closes what follows an offset. -/
def ClosesAt (text : Bytes) (first last : Nat) : Prop :=
  first ≤ last ∧ closingQuote (text.drop first) = some (last - first)

/-- `scan_single_quoted` without its zero-copy path. -/
def scanSingleQuotedBuffered : ScanM Token := do
  let start := (← get).mark
  modify fun s => s.advance 1
  let s ← get
  let out ← singleQuotedLoop (s.remaining + 1) []
  if (← get).peek != squote then scanError "unterminated single-quoted scalar"
  modify fun s => s.advance 1
  finishQuoted .singleQuoted start out

section

variable {text : Bytes} {s s' : Scanner}

theorem singleUnit_lines : ReadsLines singleUnit where
  gap c rest gap := by
    have notQuote : (c == squote) = false := by
      apply beq_false_of_ne
      rintro rfl
      cases gap
    rw [singleUnit, notQuote]
    rfl
  content c rest pieces content := by
    rw [singleUnit]
    split
    · exact .inr (.inl ⟨_, _, rfl⟩)
    · exact lineUnit_starts pieces content

/-! ### The closing quote -/

theorem ClosesAt.here {p : Nat} (isQuote : byteAt text p = squote) (inside : p < text.length)
    (single : byteAt text (p + 1) ≠ squote) : ClosesAt text p p := by
  refine ⟨Nat.le_refl _, ?_⟩
  rw [drop_eq_cons inside, isQuote, Nat.sub_self]
  by_cases more : p + 1 < text.length
  · rw [drop_eq_cons more, closingQuote, if_pos (beq_self_eq_true _),
      if_neg (by simpa using single)]
  · rw [List.drop_eq_nil_of_le (Nat.not_lt.mp more)]
    rfl

theorem ClosesAt.pair {p last : Nat} (first : byteAt text p = squote)
    (second : byteAt text (p + 1) = squote) (inside : p + 1 < text.length)
    (closes : ClosesAt text (p + 2) last) : ClosesAt text p last := by
  obtain ⟨later, isClose⟩ := closes
  refine ⟨by omega, ?_⟩
  rw [drop_eq_cons (by omega), drop_eq_cons inside, closingQuote, if_pos (beq_iff_eq.mpr first),
    if_pos (beq_iff_eq.mpr second), isClose, Option.map_some]
  congr 1
  omega

theorem ClosesAt.byte {p last : Nat} (plain : byteAt text p ≠ squote)
    (closes : ClosesAt text (p + 1) last) : ClosesAt text p last := by
  obtain ⟨later, isClose⟩ := closes
  refine ⟨by omega, ?_⟩
  have more : p + 1 < text.length := by
    by_contra outside
    rw [List.drop_eq_nil_of_le (Nat.not_lt.mp outside)] at isClose
    cases isClose
  rw [drop_eq_cons more] at isClose
  rw [drop_eq_cons (by omega), drop_eq_cons more, closingQuote, if_neg (by simpa using plain),
    isClose, Option.map_some]
  congr 1
  omega

theorem ClosesAt.range {p n last : Nat} (plain : ∀ i < n, byteAt text (p + i) ≠ squote)
    (closes : ClosesAt text (p + n) last) : ClosesAt text p last := by
  induction n with
  | zero => exact closes
  | succ n ih =>
      exact ih (fun i below => plain i (Nat.lt_succ_of_lt below))
        (.byte (plain n (Nat.lt_succ_self n)) closes)

/-! ### The loop -/

/-- A byte of a run in a single-quoted scalar. -/
theorem singleRun_byte {i : Nat} (reads : s.Reads text)
    (below : i < findAny4 squote lf cr squote s.rest) :
    byteAt text (s.pos + i) ≠ squote ∧ isBreak (byteAt text (s.pos + i)) = false := by
  have inRun := runLength_all _ s.rest below
  rw [reads.rest_eq, getD_drop] at inRun
  simp only [Bool.not_eq_true', Bool.or_eq_false_iff, beq_eq_false_iff_ne] at inRun
  refine ⟨inRun.2, ?_⟩
  rw [isBreak, beq_false_of_ne inRun.1.1.2, beq_false_of_ne inRun.1.2]
  rfl

theorem singleRun_pos (reads : s.Reads text) (inside : s.pos < text.length)
    (notQuote : byteAt text s.pos ≠ squote) (notBreak : isBreak (byteAt text s.pos) = false) :
    0 < findAny4 squote lf cr squote s.rest := by
  obtain ⟨notLf, notCr⟩ := Bool.or_eq_false_iff.mp notBreak
  rw [reads.rest_eq, drop_eq_cons inside, findAny4, runLength, notLf, notCr,
    beq_false_of_ne notQuote]
  exact Nat.succ_pos _

theorem singleRun_yields (reads : s.Reads text) :
    Yields singleUnit text s.pos (s.pos + findAny4 squote lf cr squote s.rest)
      ((s.rest.take (findAny4 squote lf cr squote s.rest)).map (element isBlank)) := by
  have within := (singleRun_moves noEscape reads).reads.inside
  have run : Yields singleUnit text s.pos _ (List.map _ _) :=
    .elements (element isBlank) (fun i below rest => by
      obtain ⟨notQuote, notBreak⟩ := singleRun_byte reads below
      rw [singleUnit, beq_false_of_ne notQuote]
      exact lineUnit_plain notBreak) within
  rwa [textSlice, Nat.add_sub_cancel_left, ← reads.rest_eq] at run

/-- Two quotes in a row. -/
theorem quotePair (reads : s.Reads text) (isQuote : (s.peek == squote) = true)
    (isPair : (s.pos + 1 < s.len && s.byte (s.pos + 1) == squote) = true) :
    byteAt text s.pos = squote ∧ byteAt text (s.pos + 1) = squote ∧ s.pos + 1 < text.length ∧
      (s.advance 2).Reads text ∧ (s.advance 2).pos = s.pos + 2 := by
  rw [reads.peek_eq, beq_iff_eq] at isQuote
  simp only [Bool.and_eq_true, beq_iff_eq, decide_eq_true_eq, reads.byte_eq, reads.len] at isPair
  have one : Moves text anyLine noEscape s (s.advance 1) :=
    .advance reads (by rw [reads.peek_eq, isQuote]; rfl)
  have pos := Moves.advance_pos reads (Nat.lt_of_succ_lt isPair.1)
  have two : Moves text anyLine noEscape (s.advance 1) ((s.advance 1).advance 1) :=
    .advance one.reads (by rw [one.reads.peek_eq, pos, isPair.2]; rfl)
  refine ⟨isQuote, isPair.2, isPair.1, ?_, ?_⟩ <;> rw [Moves.advance_succ]
  · exact two.reads
  · rw [Moves.advance_pos one.reads (pos ▸ isPair.1), pos]

/-- What the buffered loop of `scan_single_quoted` reads. -/
theorem singleQuotedLoop_reads {fuel : Nat} {out value : Bytes} (reads : s.Reads text)
    (ok : singleQuotedLoop fuel out s = .ok value s') :
    value = readOn space lf isBlank out (units singleUnit 0 (textSlice text s.pos s'.pos)) := by
  induction fuel generalizing s out with
  | zero =>
      cases ok
      rw [textSlice_self, units, readOn_nil]
  | succ fuel ih =>
      have inside {q : Scanner} {out : Bytes} (reads : q.Reads text)
          (ok : singleQuotedLoop fuel out q = .ok value s') :
          q.pos ≤ s'.pos ∧ s'.pos ≤ text.length :=
        have moves : Moves text (unmarked text) noEscape q s' := singleQuotedLoop_moves reads ok
        ⟨moves.pos_le, moves.reads.inside⟩
      rw [singleQuotedLoop, get_bind_eq] at ok
      split at ok
      · cases ok
        rw [textSlice_self, units, readOn_nil]
      split at ok
      · rename_i isQuote
        split at ok
        · -- a doubled quote
          rename_i isPair
          obtain ⟨_, q, stored, rest⟩ := bind_eq_ok ok
          cases stored
          obtain ⟨first, second, _, reads', pos⟩ := quotePair reads isQuote isPair
          obtain ⟨past, within⟩ := inside reads' rest
          rw [ih reads' rest, pos]
          rw [pos] at past
          have pair : Yields singleUnit text s.pos (s.pos + 2) [.solid [squote]] :=
            Yields.single 1 rfl fun last past within => by
              have below : s.pos + 1 < last := past
              rw [singleUnit, first, textSlice_head within, if_pos below, second]
              rfl
          rw [pair.cut s'.pos past within]
          exact (readOn_element out squote _).symm
        · cases ok
          rw [textSlice_self, units, readOn_nil]
      split at ok
      · -- breaks
        rename_i isBr
        obtain ⟨count, q, crossed, rest⟩ := bind_eq_ok ok
        have crosses := crosses_of_skip singleUnit_lines reads isBr (quotedBreak_lines crossed)
        obtain ⟨past, within⟩ := inside crosses.reads rest
        rw [ih crosses.reads rest, crosses.readOn_eq singleUnit_lines past within]
      · obtain ⟨_, q, stored, rest⟩ := bind_eq_ok ok
        cases stored
        have passed := singleRun_moves noEscape reads
        obtain ⟨past, within⟩ := inside passed.reads rest
        rw [ih passed.reads rest, (singleRun_yields reads).cut s'.pos past within, readOn_elements]
        rfl

/-- The buffered loop stops at the closing quote, or at the end of the text. -/
theorem singleQuotedLoop_closes {fuel : Nat} {out value : Bytes} (reads : s.Reads text)
    (enough : s.remaining < fuel) (ok : singleQuotedLoop fuel out s = .ok value s')
    (isQuote : s'.peek = squote) : ClosesAt text s.pos s'.pos := by
  induction fuel generalizing s out with
  | zero => exact absurd enough (Nat.not_lt_zero _)
  | succ fuel ih =>
      have less {q : Scanner} (reads' : q.Reads text) (further : s.pos < q.pos) :
          q.remaining < fuel := by
        have inside := reads'.inside
        rw [Scanner.remaining, reads.len] at enough
        rw [Scanner.remaining, reads'.len]
        omega
      rw [singleQuotedLoop, get_bind_eq] at ok
      split at ok
      · rename_i ended
        cases ok
        rw [reads.peek_eq, byteAt_outside (reads.atEnd_iff.mp ended)] at isQuote
        cases isQuote
      rename_i open'
      rw [reads.atEnd_iff, Nat.not_le] at open'
      split at ok
      · rename_i first
        split at ok
        · rename_i isPair
          obtain ⟨_, q, stored, rest⟩ := bind_eq_ok ok
          cases stored
          obtain ⟨first, second, more, reads', pos⟩ := quotePair reads first isPair
          have closes := ih reads' (less reads' (by omega)) rest
          exact .pair first second more (pos ▸ closes)
        · rename_i single
          cases ok
          refine .here (reads.peek_eq ▸ isQuote) open' fun second => single ?_
          have more : s'.pos + 1 < text.length := by
            by_contra outside
            rw [byteAt_outside (Nat.not_lt.mp outside)] at second
            cases second
          simp only [Bool.and_eq_true, beq_iff_eq, decide_eq_true_eq, reads.byte_eq, reads.len]
          exact ⟨more, second⟩
      rename_i notQuote
      simp only [reads.peek_eq, beq_iff_eq] at notQuote
      have onward {q : Scanner} {out : Bytes} (reads' : q.Reads text) (further : s.pos < q.pos)
          (plain : ∀ o, s.pos ≤ o → o < q.pos → byteAt text o ≠ squote)
          (ok : singleQuotedLoop fuel out q = .ok value s') : ClosesAt text s.pos s'.pos := by
        obtain ⟨n, far⟩ := Nat.exists_eq_add_of_le (Nat.le_of_lt further)
        have closes := ih reads' (less reads' further) ok
        rw [far] at closes
        exact closes.range fun i below => plain _ (Nat.le_add_right _ _) (by omega)
      split at ok
      · rename_i isBr
        obtain ⟨count, q, crossed, rest⟩ := bind_eq_ok ok
        have skipped := quotedBreak_lines crossed
        have crosses := crosses_of_skip singleUnit_lines reads isBr skipped
        refine onward crosses.reads crosses.further (fun o later before same => ?_) rest
        have gap := skipBreakLines_bytes s.remaining reads 0 later (skipped ▸ before)
        rw [same] at gap
        cases gap
      · rename_i notBreak
        obtain ⟨_, q, stored, rest⟩ := bind_eq_ok ok
        cases stored
        have passed := singleRun_moves noEscape reads
        refine onward passed.reads ?_ (fun o later before => ?_) rest
        · refine Nat.lt_add_of_pos_right (singleRun_pos reads open' notQuote ?_)
          rw [← reads.peek_eq]
          exact Bool.eq_false_iff.mpr notBreak
        · obtain ⟨i, rfl⟩ := Nat.exists_eq_add_of_le later
          exact (singleRun_byte reads (Nat.lt_of_add_lt_add_left before)).1

/-! ### The scalar -/

/-- The buffered loop at the closing quote. -/
theorem singleQuotedLoop_close {fuel : Nat} {out : Bytes} (inside : s.pos < s.len)
    (isQuote : s.byte s.pos = squote)
    (single : (s.pos + 1 < s.len && s.byte (s.pos + 1) == squote) = false) :
    singleQuotedLoop (fuel + 1) out s = .ok out s := by
  have here : s.peek = squote := by
    rw [← isQuote, Scanner.peek, Scanner.peekAt, Nat.add_zero, if_pos inside]
  have open' : s.atEnd = false := by simpa [Scanner.atEnd] using inside
  rw [singleQuotedLoop, get_bind_eq, open', here, single]
  rfl

/-- The buffered loop on a text without doubled quotes and breaks. -/
theorem singleQuotedLoop_run {n : Nat} (reads : s.Reads text)
    (isRun : findAny4 squote lf cr squote s.rest = n) (inside : s.pos + n < s.len)
    (isQuote : s.byte (s.pos + n) = squote)
    (single : (s.pos + n + 1 < s.len && s.byte (s.pos + n + 1) == squote) = false) :
    singleQuotedLoop (s.remaining + 1) [] s = .ok (s.rest.take n) (s.advanceCols n) := by
  cases n with
  | zero => exact singleQuotedLoop_close inside isQuote single
  | succ n =>
      have first := singleRun_byte reads (isRun ▸ Nat.succ_pos n : 0 < _)
      rw [Nat.add_zero, ← reads.peek_eq] at first
      have open' : s.atEnd = false := by
        rw [Scanner.atEnd, decide_eq_false_iff_not]
        omega
      have more : s.remaining = (s.remaining - 1) + 1 := by
        rw [Scanner.remaining]
        omega
      rw [singleQuotedLoop, get_bind_eq, open', beq_false_of_ne first.1, first.2, isRun,
        List.nil_append, more]
      exact singleQuotedLoop_close inside isQuote single

/-- The zero-copy path gives what the buffered loop gives. -/
theorem scanSingleQuoted_eq (reads : s.Reads text) (isQuote : s.peek = squote) :
    scanSingleQuoted s = scanSingleQuotedBuffered s := by
  have first : Moves text (unmarked text) noEscape s (s.advance 1) :=
    .advance reads (by rw [isQuote]; rfl)
  have reads' := first.reads
  rw [scanSingleQuoted, scanSingleQuotedBuffered, get_bind_eq, get_bind_eq]
  generalize s.mark = start
  rw [run_bind, run_bind, run_modify]
  dsimp only
  rw [get_bind_eq, get_bind_eq]
  generalize s.advance 1 = q at reads'
  split
  · rename_i closed
    simp only [Bool.and_eq_true, decide_eq_true_eq, beq_iff_eq, Bool.not_eq_true'] at closed
    obtain ⟨⟨inside, isClose⟩, single⟩ := closed
    have looped := singleQuotedLoop_run reads' rfl inside isClose single
    have run := (singleRun_moves noEscape reads').reads
    generalize findAny4 squote lf cr squote q.rest = n at *
    have closes : (q.advanceCols n).peek = squote := by
      rw [run.peek_eq, ← run.byte_eq]
      exact isClose
    have passed : (q.advanceCols n).advance 1 = q.advanceCols (n + 1) := by
      have isByte : (q.advanceCols n).byte (q.advanceCols n).pos = squote := isClose
      rw [Scanner.advance, if_pos (show (q.advanceCols n).pos < (q.advanceCols n).len from inside),
        isByte]
      rfl
    rw [run_bind_ok looped, get_bind_eq, closes, run_bind, run_set]
    dsimp only
    rw [if_neg (by simp), run_bind, run_modify, passed]
  · rfl

/-- A single-quoted token ends past its closing quote and reads as the text before it. -/
def SingleQuotedText (text : Bytes) (tok : Token) : Prop :=
  ∃ close, ClosesAt text (tok.start.offset + 1) close ∧ tok.stop.offset = close + 1 ∧
    tok.value = foldText (units singleUnit 0 (textSlice text (tok.start.offset + 1) close))

theorem scanSingleQuoted_text {tok : Token} (reads : s.Reads text) (isQuote : s.peek = squote)
    (ok : scanSingleQuoted s = .ok tok s') : SingleQuotedText text tok := by
  have first : Moves text (unmarked text) noEscape s (s.advance 1) :=
    .advance reads (by rw [isQuote]; rfl)
  have inside : s.pos < text.length := by
    by_contra outside
    rw [reads.peek_eq, byteAt_outside (Nat.not_lt.mp outside)] at isQuote
    cases isQuote
  have pos := Moves.advance_pos reads inside
  rw [scanSingleQuoted_eq reads isQuote, scanSingleQuotedBuffered, get_bind_eq] at ok
  obtain ⟨_, q, advanced, rest⟩ := bind_eq_ok ok
  have isNext : q = s.advance 1 := by
    cases advanced
    rfl
  rw [← isNext] at first pos
  rw [get_bind_eq] at rest
  obtain ⟨out, q', looped, more⟩ := bind_eq_ok rest
  have loop : Moves text (unmarked text) noEscape q q' := singleQuotedLoop_moves first.reads looped
  rw [get_bind_eq] at more
  split at more
  · obtain ⟨_, _, failed, _⟩ := bind_eq_ok more
    exact (scanError_ok failed).elim
  rename_i isClose
  simp only [bne_iff_ne, ne_eq, Decidable.not_not] at isClose
  have closes := singleQuotedLoop_closes first.reads (Nat.lt_succ_self _) looped isClose
  have value := singleQuotedLoop_reads first.reads looped
  obtain ⟨_, q2, advanced', last⟩ := bind_eq_ok more
  have isNext' : q2 = q'.advance 1 := by
    cases advanced'
    rfl
  have inside' : q'.pos < text.length := by
    by_contra outside
    rw [loop.reads.peek_eq, byteAt_outside (Nat.not_lt.mp outside)] at isClose
    cases isClose
  have pos' := Moves.advance_pos loop.reads inside'
  rw [← isNext'] at pos'
  rw [pos] at closes value
  cases last
  exact ⟨q'.pos, closes, pos', value⟩

/-- The zero-copy path changes nothing, and every single-quoted token of a run is decoded. -/
theorem singleQuoted_decoded :
    (∀ text s, s.Reads text → s.peek = squote →
      scanSingleQuoted s = scanSingleQuotedBuffered s) ∧
    ∀ text toks s, Scanned text (fun _ => True) toks s → ∀ tok ∈ toks, tok.type = .scalar →
      tok.scalarStyle = .singleQuoted → SingleQuotedText text tok := by
  refine ⟨fun text s => scanSingleQuoted_eq, fun text toks s run tok member isScalar style => ?_⟩
  obtain ⟨_, q, _, before, ok⟩ := run.step tok member
  obtain ⟨atToken, read⟩ := scanToken_scalar before.between isScalar ok
  cases read with
  | single _ isQuote ok => exact scanSingleQuoted_text atToken.reads isQuote ok
  | plain other =>
      rw [style] at other
      cases other
  | double other =>
      rw [style] at other
      cases other
  | block other =>
      rw [style] at other
      rcases other with other | other <;> cases other

end

/-- `'a'' `, a line feed, `b'`. -/
def quotedText : Bytes := [squote, 0x61, squote, squote, space, lf, 0x62, squote]

theorem singleQuoted_decoded_quotedText :
    scanSingleQuoted (Scanner.new quotedText) = scanSingleQuotedBuffered (Scanner.new quotedText) ∧
      ∃ toks s, Scanned quotedText (fun _ => True) toks s ∧
        ∃ tok ∈ toks, tok.value = [0x61, squote, space, 0x62] ∧
          SingleQuotedText quotedText tok := by
  obtain ⟨toks, s, run, tok, member, type, style, value⟩ := exists_scanned quotedText
      (fun _ => True)
    2 (fun toks => ∃ tok ∈ toks, tok.type = .scalar ∧ tok.scalarStyle = .singleQuoted ∧
      tok.value = [0x61, squote, space, 0x62]) (by decide +kernel)
  exact ⟨singleQuoted_decoded.1 quotedText _ (Scanner.new_between quotedText).reads rfl,
    toks, s, run, tok, member, value,
    singleQuoted_decoded.2 quotedText toks s run tok member type style⟩

end Oyl
