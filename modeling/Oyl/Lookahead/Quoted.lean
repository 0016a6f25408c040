import Oyl.Lookahead.Stops
import Oyl.Tokens.JoinedLines
import Oyl.Tokens.SingleQuoted

/-!
# The lookahead skips quoted scalars as the scanner reads them

The scanner reads a quoted scalar forwards.  The lookahead looks at the stop bytes
only, and counts the backslashes before a double quote backwards.  Both find the
same closing quote.
-/

namespace Oyl

open StateError

section

variable {text : Bytes} {p k first last : Nat}

/-! ### Between two stops -/

theorem fkNext_stop (inside : fkNext text p < text.length) :
    isFkStop (byteAt text (fkNext text p)) = true := by
  have found : (text.drop p).findIdx isFkStop < (text.drop p).length := by
    rw [List.length_drop]
    rw [fkNext] at inside
    omega
  rw [fkNext, ← getD_drop, List.getD_eq_getElem?_getD, List.getElem?_eq_getElem found]
  exact List.findIdx_getElem

theorem fkNext_before (later : p ≤ k) (before : k < fkNext text p) :
    isFkStop (byteAt text k) = false := by
  obtain ⟨i, rfl⟩ := Nat.exists_eq_add_of_le later
  have below : i < (text.drop p).findIdx isFkStop := Nat.lt_of_add_lt_add_left before
  have inside := Nat.lt_of_lt_of_le below List.findIdx_le_length
  rw [← getD_drop, List.getD_eq_getElem?_getD, List.getElem?_eq_getElem inside]
  exact List.not_of_lt_findIdx below

/-- A stop byte is not passed. -/
theorem fkNext_passes (later : p ≤ k) (stop : isFkStop (byteAt text k) = true) :
    fkNext text p ≤ k := by
  by_contra beyond
  rw [fkNext_before later (Nat.not_le.mp beyond)] at stop
  cases stop

theorem fkNext_here (inside : p ≤ text.length) (stop : isFkStop (byteAt text p) = true) :
    fkNext text p = p :=
  Nat.le_antisymm (fkNext_passes (Nat.le_refl p) stop) (fkNext_le inside).1

/-! ### The closing single quote -/

namespace ClosesAt

/-- How a single-quoted text goes on. -/
theorem inv (closes : ClosesAt text p last) :
    p < text.length ∧
      if byteAt text p = squote then
        if p + 1 < text.length ∧ byteAt text (p + 1) = squote then ClosesAt text (p + 2) last
        else last = p
      else ClosesAt text (p + 1) last := by
  obtain ⟨later, isClose⟩ := closes
  have inside : p < text.length := by
    by_contra outside
    rw [List.drop_eq_nil_of_le (Nat.not_lt.mp outside)] at isClose
    cases isClose
  refine ⟨inside, ?_⟩
  rw [drop_eq_cons inside] at isClose
  by_cases more : p + 1 < text.length
  · rw [drop_eq_cons more, closingQuote] at isClose
    split
    · rename_i isQuote
      rw [if_pos (beq_iff_eq.mpr isQuote)] at isClose
      split
      · rename_i pair
        rw [if_pos (beq_iff_eq.mpr pair.2)] at isClose
        obtain ⟨n, rest, far⟩ := Option.map_eq_some_iff.mp isClose
        refine ⟨by omega, rest.trans ?_⟩
        congr 1
        omega
      · rename_i single
        rw [if_neg fun second => single ⟨more, beq_iff_eq.mp second⟩] at isClose
        have none := Option.some_inj.mp isClose
        omega
    · rename_i notQuote
      rw [if_neg fun isQuote => notQuote (beq_iff_eq.mp isQuote), ← drop_eq_cons more] at isClose
      obtain ⟨n, rest, far⟩ := Option.map_eq_some_iff.mp isClose
      refine ⟨by omega, rest.trans ?_⟩
      congr 1
      omega
  · rw [List.drop_eq_nil_of_le (Nat.not_lt.mp more), closingQuote] at isClose
    split
    · rename_i isQuote
      rw [if_pos (beq_iff_eq.mpr isQuote)] at isClose
      rw [if_neg fun pair => more pair.1]
      have none := Option.some_inj.mp isClose
      omega
    · rename_i notQuote
      rw [if_neg fun isQuote => notQuote (beq_iff_eq.mp isQuote)] at isClose
      cases isClose

/-- Bytes without a quote are passed. -/
theorem past {n : Nat} (closes : ClosesAt text p last)
    (plain : ∀ i < n, byteAt text (p + i) ≠ squote) : ClosesAt text (p + n) last := by
  induction n with
  | zero => exact closes
  | succ n ih =>
      have here := (ih fun i below => plain i (Nat.lt_succ_of_lt below)).inv.2
      rwa [if_neg (plain n (Nat.lt_succ_self n))] at here

theorem atStop (closes : ClosesAt text p last) : ClosesAt text (fkNext text p) last := by
  have next := fkNext_le (Nat.le_of_lt closes.inv.1)
  obtain ⟨n, far⟩ := Nat.exists_eq_add_of_le next.1
  rw [far]
  refine closes.past fun i below same => ?_
  have before : isFkStop (byteAt text (p + i)) = false :=
    fkNext_before (Nat.le_add_right p i) (by omega)
  rw [same] at before
  cases before

end ClosesAt

/-- The scan over the stops finds the closing quote of a single-quoted text. -/
theorem fkSkipQuoted_single {i fuel : Nat} (isQuote : byteAt text i = squote)
    (enough : text.length - p < fuel) (closes : ClosesAt text p last) :
    fkSkipQuoted text i fuel p = last + 1 := by
  induction fuel generalizing p with
  | zero => exact absurd enough (Nat.not_lt_zero _)
  | succ fuel ih =>
      have next := fkNext_le (Nat.le_of_lt closes.inv.1)
      have stop := closes.atStop
      generalize isNext : fkNext text p = k at next stop
      obtain ⟨inside, further⟩ := stop.inv
      change (if fkNext text p ≥ text.length then _ else _) = _
      rw [isNext, if_neg (Nat.not_le.mpr inside)]
      change (if byteAt text k != byteAt text i then _ else _) = _
      rw [isQuote]
      by_cases quote : byteAt text k = squote
      · rw [if_pos quote] at further
        rw [if_neg (by simpa using quote)]
        change (if byteAt text i == squote then _ else _) = _
        rw [if_pos (beq_iff_eq.mpr isQuote)]
        change (if (k + 1 < text.length && byteAt text (k + 1) == squote) = true then _ else _) = _
        by_cases pair : k + 1 < text.length ∧ byteAt text (k + 1) = squote
        · rw [if_pos pair] at further
          rw [if_pos (by simpa using pair)]
          exact ih (by omega) further
        · rw [if_neg pair] at further
          rw [if_neg (by simpa using pair), further]
      · rw [if_neg quote] at further
        rw [if_pos (by simpa using quote)]
        exact ih (by omega) further

/-! ### The closing double quote -/

theorem backslashRun_self : backslashRun text p p = 0 := by
  rw [backslashRun, List.drop_eq_nil_of_le (List.length_take_le p text)]
  rfl

theorem backslashRun_succ (later : first ≤ k) (inside : k < text.length) :
    backslashRun text first (k + 1) =
      if byteAt text k = backslash then backslashRun text first k + 1 else 0 := by
  have size : (text.take k).length = k := List.length_take_of_le (Nat.le_of_lt inside)
  have taken : text.take (k + 1) = text.take k ++ [byteAt text k] := by
    rw [List.take_add_one, List.getElem?_eq_getElem inside, byteAt, List.getD_eq_getElem?_getD,
      List.getElem?_eq_getElem inside]
    rfl
  rw [backslashRun, taken, List.drop_append_of_le_length (by omega), List.reverse_append,
    List.reverse_singleton, List.singleton_append, runLength, backslashRun]
  simp only [beq_iff_eq]

theorem closingDoubleQuote_cons (c : UInt8) (rest : Bytes) :
    closingDoubleQuote (c :: rest) =
      if c = dquote then some 0
      else if c = backslash then (closingDoubleQuote rest.tail).map (· + 2)
      else (closingDoubleQuote rest).map (· + 1) := by
  cases rest with
  | nil =>
      rw [closingDoubleQuote]
      simp [closingDoubleQuote]
  | cons d rest =>
      rw [closingDoubleQuote]
      simp only [beq_iff_eq, List.tail_cons]

namespace ClosesDouble

/-- How a double-quoted text goes on. -/
theorem inv (closes : ClosesDouble text p last) :
    p < text.length ∧
      if byteAt text p = dquote then last = p
      else if byteAt text p = backslash then ClosesDouble text (p + 2) last
      else ClosesDouble text (p + 1) last := by
  have inside := closes.inside
  obtain ⟨later, isClose⟩ := closes
  refine ⟨inside, ?_⟩
  rw [drop_eq_cons inside, closingDoubleQuote_cons, List.tail_drop] at isClose
  split
  · rename_i isQuote
    rw [if_pos isQuote] at isClose
    have none := Option.some_inj.mp isClose
    omega
  rename_i notQuote
  rw [if_neg notQuote] at isClose
  split
  · rename_i isEscape
    rw [if_pos isEscape] at isClose
    obtain ⟨n, rest, far⟩ := Option.map_eq_some_iff.mp isClose
    refine ⟨by omega, rest.trans ?_⟩
    congr 1
    omega
  · rename_i notEscape
    rw [if_neg notEscape] at isClose
    obtain ⟨n, rest, far⟩ := Option.map_eq_some_iff.mp isClose
    refine ⟨by omega, rest.trans ?_⟩
    congr 1
    omega

/-- The closing quote follows an even run of backslashes, and every quote before it an
odd one. -/
theorem parity (closes : ClosesDouble text p last) (ordered : first ≤ p)
    (fresh : backslashRun text first p % 2 = 0) :
    byteAt text last = dquote ∧ last < text.length ∧
      ∀ k, p ≤ k → k ≤ last → byteAt text k = dquote →
        (k = last ↔ backslashRun text first k % 2 = 0) := by
  -- `p` is never on an escaped byte
  obtain ⟨left, size⟩ : ∃ left, last - p = left := ⟨_, rfl⟩
  induction left using Nat.strongRecOn generalizing p with
  | ind left ih =>
      obtain ⟨inside, next⟩ := closes.inv
      have step := backslashRun_succ ordered inside
      by_cases isQuote : byteAt text p = dquote
      · rw [if_pos isQuote] at next
        subst next
        refine ⟨isQuote, inside, fun k later before _ => ?_⟩
        have same := Nat.le_antisymm before later
        subst same
        exact iff_of_true rfl fresh
      rw [if_neg isQuote] at next
      by_cases isEscape : byteAt text p = backslash
      · rw [if_pos isEscape] at next
        rw [if_pos isEscape] at step
        have step' : backslashRun text first (p + 2) =
            if byteAt text (p + 1) = backslash then backslashRun text first (p + 1) + 1 else 0 :=
          backslashRun_succ (Nat.le_succ_of_le ordered) (Nat.lt_of_succ_lt next.inv.1)
        have even : backslashRun text first (p + 2) % 2 = 0 := by
          rw [step']
          split <;> omega
        obtain ⟨closing, within, quotes⟩ :=
          ih _ (by have := next.1; omega) next (by omega) even rfl
        refine ⟨closing, within, fun k later before quote => ?_⟩
        rcases Nat.lt_or_ge k (p + 2) with near | far
        · rcases Nat.lt_succ_iff_lt_or_eq.mp near with here | rfl
          · rw [show k = p by omega] at quote
            exact absurd quote isQuote
          · have := next.1
            exact iff_of_false (by omega) (by omega)
        · exact quotes k far before quote
      · rw [if_neg isEscape] at next
        rw [if_neg isEscape] at step
        obtain ⟨closing, within, quotes⟩ :=
          ih _ (by have := next.1; omega) next (by omega) (by rw [step]) rfl
        refine ⟨closing, within, fun k later before quote => ?_⟩
        rcases Nat.lt_or_eq_of_le later with further | rfl
        · exact quotes k further before quote
        · exact absurd quote isQuote

end ClosesDouble

/-- The scan over the stops finds the closing quote of a double-quoted text. -/
theorem fkSkipQuoted_double {i fuel : Nat} (isQuote : byteAt text i = dquote)
    (closing : byteAt text last = dquote) (within : last < text.length)
    (quotes : ∀ k, i + 1 ≤ k → k ≤ last → byteAt text k = dquote →
      (k = last ↔ backslashRun text (i + 1) k % 2 = 0))
    (after : i + 1 ≤ p) (before : p ≤ last) (enough : text.length - p < fuel) :
    fkSkipQuoted text i fuel p = last + 1 := by
  induction fuel generalizing p with
  | zero => exact absurd enough (Nat.not_lt_zero _)
  | succ fuel ih =>
      have next := fkNext_le (Nat.le_of_lt (Nat.lt_of_le_of_lt before within))
      have reached := fkNext_passes before (closing ▸ rfl : isFkStop (byteAt text last) = true)
      generalize isNext : fkNext text p = k at next reached
      change (if fkNext text p ≥ text.length then _ else _) = _
      rw [isNext, if_neg (by omega)]
      change (if byteAt text k != byteAt text i then _ else _) = _
      rw [isQuote]
      by_cases quote : byteAt text k = dquote
      · rw [if_neg (by simpa using quote)]
        change (if byteAt text i == squote then _ else _) = _
        rw [isQuote, if_neg (by decide)]
        have parity := quotes k (by omega) reached quote
        by_cases even : backslashRun text (i + 1) k % 2 = 0
        · rw [if_pos (beq_iff_eq.mpr even), parity.mpr even]
        · rw [if_neg fun isEven => even (beq_iff_eq.mp isEven)]
          have notLast : k ≠ last := fun same => even (parity.mp same)
          exact ih (by omega) (by omega) (by omega)
      · rw [if_pos (by simpa using quote)]
        have notLast : k ≠ last := fun same => quote (same ▸ closing)
        exact ih (by omega) (by omega) (by omega)

/-! ### The cursor -/

/-- A result of the cursor with the cursor on it. -/
def StandsAt (text : Bytes) (result : Nat × FkCursor) (stop : Nat) : Prop :=
  result.1 = stop ∧ result.2.At text stop

/-- The cursor skips what the scan on positions skips, and is left behind it. -/
theorem FkCursor.At.skipQuotedFrom {mask64 : Bytes → Nat} (isMask : IsFlowMask mask64)
    {c : FkCursor} {i fuel : Nat} (here : c.At text p) (enough : text.length - p < fuel) :
    StandsAt text (c.skipQuotedFrom mask64 i fuel) (fkSkipQuoted text i fuel p) := by
  induction fuel generalizing c p with
  | zero => exact absurd enough (Nat.not_lt_zero _)
  | succ fuel ih =>
      obtain ⟨offset, behind⟩ := here.next isMask
      have next := fkNext_le here.within
      have stops : fkNext text p < text.length → isFkStop (byteAt text (fkNext text p)) = true :=
        fkNext_stop
      rw [FkCursor.skipQuotedFrom, fkSkipQuoted, here.reads]
      generalize c.next mask64 = result at *
      obtain ⟨k, c'⟩ := result
      dsimp only at offset behind ⊢
      rw [← offset] at behind next stops ⊢
      rw [behind.reads]
      by_cases ended : text.length ≤ k
      · have last : k = text.length := Nat.le_antisymm next.2 ended
        rw [if_pos (beq_iff_eq.mpr last), if_pos ended]
        rw [Nat.min_eq_right (Nat.le_succ_of_le ended)] at behind
        exact ⟨rfl, behind⟩
      have inside : k < text.length := Nat.not_le.mp ended
      rw [Nat.min_eq_left inside] at behind
      rw [if_neg fun last => ended (Nat.le_of_eq (beq_iff_eq.mp last).symm), if_neg ended]
      have onward := ih behind (by omega)
      split
      · exact onward
      split
      · rename_i isQuote
        split
        · rename_i pair
          -- the second quote is the next stop
          obtain ⟨more, second⟩ := Bool.and_eq_true_iff.mp pair
          have within := of_decide_eq_true more
          have isStop : isFkStop (byteAt text (k + 1)) = true := by
            rw [byteAt, beq_iff_eq.mp second]
            rfl
          have behind' := (behind.next isMask).2
          rw [fkNext_here inside isStop, Nat.min_eq_left within] at behind'
          exact ih behind' (by omega)
        · exact ⟨rfl, behind⟩
      · split
        · exact ⟨rfl, behind⟩
        · exact onward

end

/-! ### The scanner -/

section

variable {text : Bytes} {s s' : Scanner} {tok : Token}

theorem finishQuoted_start {style : ScalarStyle} {start : Mark} {value : Bytes} :
    Returns (fun tok => tok.start = start) (finishQuoted style start value) :=
  .bind fun _ => .bind fun _ => .bind fun _ => .pure rfl

theorem scanSingleQuoted_start (ok : scanSingleQuoted s = .ok tok s') : tok.start = s.mark := by
  rw [scanSingleQuoted, get_bind_eq] at ok
  refine (?_ : Returns (fun tok => tok.start = s.mark) _) _ _ _ ok
  refine .bind fun _ => .bind fun _ => .ite (.bind fun _ => finishQuoted_start) ?_
  refine .bind fun _ => .bind fun _ => .ite ?_ (.bind fun _ => finishQuoted_start)
  exact .bind fun _ => .bind fun _ => finishQuoted_start

theorem scanDoubleQuoted_start (ok : scanDoubleQuoted s = .ok tok s') : tok.start = s.mark := by
  rw [scanDoubleQuoted, get_bind_eq] at ok
  refine (?_ : Returns (fun tok => tok.start = s.mark) _) _ _ _ ok
  refine .bind fun _ => .bind fun _ => .ite (.bind fun _ => finishQuoted_start) ?_
  refine .bind fun _ => .bind fun _ => .ite ?_ (.bind fun _ => finishQuoted_start)
  exact .bind fun _ => .bind fun _ => finishQuoted_start

/-- The scanner accepts a quoted scalar at its cursor. -/
inductive AcceptsQuoted (s : Scanner) (tok : Token) (s' : Scanner) : Prop
  | single : s.peek = squote → scanSingleQuoted s = .ok tok s' → AcceptsQuoted s tok s'
  | double : s.peek = dquote → scanDoubleQuoted s = .ok tok s' → AcceptsQuoted s tok s'

theorem AcceptsQuoted.inside (accepts : AcceptsQuoted s tok s') (reads : s.Reads text) :
    s.pos < text.length := by
  by_contra outside
  have ended := byteAt_outside (Nat.not_lt.mp outside)
  cases accepts with
  | single isQuote _ =>
      rw [reads.peek_eq, ended] at isQuote
      cases isQuote
  | double isQuote _ =>
      rw [reads.peek_eq, ended] at isQuote
      cases isQuote

/-- The scan over the stops ends where the token does. -/
theorem fkSkipQuoted_scans {fuel : Nat} (reads : s.Reads text)
    (accepts : AcceptsQuoted s tok s') (enough : text.length - (s.pos + 1) < fuel) :
    fkSkipQuoted text s.pos fuel (s.pos + 1) = tok.stop.offset := by
  cases accepts with
  | single isQuote ok =>
      obtain ⟨close, closes, stop, _⟩ := scanSingleQuoted_text reads isQuote ok
      rw [scanSingleQuoted_start ok] at closes
      rw [stop]
      exact fkSkipQuoted_single (reads.peek_eq ▸ isQuote) enough closes
  | double isQuote ok =>
      have closes := (scanDoubleQuoted_folded reads isQuote ok).1
      rw [scanDoubleQuoted_start ok] at closes
      have ordered : s.pos + 1 ≤ tok.stop.offset - 1 := closes.1
      obtain ⟨closing, within, quotes⟩ :=
        closes.parity (Nat.le_refl _) (by rw [backslashRun_self])
      have found : fkSkipQuoted text s.pos fuel (s.pos + 1) = tok.stop.offset - 1 + 1 :=
        fkSkipQuoted_double (reads.peek_eq ▸ isQuote) closing within quotes (Nat.le_refl _)
          ordered enough
      rw [found]
      exact Nat.sub_add_cancel (by omega)

theorem FkCursor.At.skipQuoted_scans {mask64 : Bytes → Nat} (isMask : IsFlowMask mask64)
    {c : FkCursor} (here : c.At text (s.pos + 1)) (reads : s.Reads text)
    (accepts : AcceptsQuoted s tok s') :
    StandsAt text (c.skipQuoted mask64 s.pos) tok.stop.offset := by
  have inside := accepts.inside reads
  have enough : text.length - (s.pos + 1) < text.length - s.pos := by omega
  have skipped := here.skipQuotedFrom isMask (i := s.pos) enough
  rw [fkSkipQuoted_scans reads accepts enough] at skipped
  rwa [FkCursor.skipQuoted, here.reads]

/-- Where the scanner accepts a quoted scalar, `fk_skip_quoted` on either form of the mask
gives the offset past it and leaves the first stop from there on as the next. -/
theorem skipQuoted_agrees {c : FkCursor} (reads : s.Reads text)
    (accepts : AcceptsQuoted s tok s') (here : c.At text (s.pos + 1)) :
    ((c.skipQuoted flowMask64 s.pos).1 = tok.stop.offset ∧
      ((c.skipQuoted flowMask64 s.pos).2.next flowMask64).1 = fkNext text tok.stop.offset) ∧
    ((c.skipQuoted flowMask64Sse2 s.pos).1 = tok.stop.offset ∧
      ((c.skipQuoted flowMask64Sse2 s.pos).2.next flowMask64Sse2).1 =
        fkNext text tok.stop.offset) := by
  constructor
  · obtain ⟨stop, stands⟩ := here.skipQuoted_scans flowMask64_isFlowMask reads accepts
    exact ⟨stop, (stands.next flowMask64_isFlowMask).1⟩
  · obtain ⟨stop, stands⟩ := here.skipQuoted_scans flowMask64Sse2_isFlowMask reads accepts
    exact ⟨stop, (stands.next flowMask64Sse2_isFlowMask).1⟩

end

/-- `"\"a" ]` -/
def escapedText : Bytes := [dquote, backslash, dquote, 0x61, dquote, space, rbracket]

theorem skipQuoted_agrees_escapedText :
    ((fkSeek flowMask64 escapedText 1).skipQuoted flowMask64 0).1 = 5 ∧
      (((fkSeek flowMask64 escapedText 1).skipQuoted flowMask64 0).2.next flowMask64).1 = 6 := by
  obtain ⟨tok, s', ok, stop⟩ : ∃ tok s',
      scanDoubleQuoted (Scanner.new escapedText) = .ok tok s' ∧ tok.stop.offset = 5 :=
    ⟨_, _, rfl, by decide⟩
  have reads : (Scanner.new escapedText).Reads escapedText := ⟨rfl, rfl, Nat.zero_le _⟩
  have within : 1 ≤ escapedText.length := by decide
  have next : fkNext escapedText 5 = 6 := by decide
  have agrees := (skipQuoted_agrees reads (.double rfl ok)
    (fkSeek_at flowMask64_isFlowMask within)).1
  rw [stop, next] at agrees
  exact agrees

end Oyl
