import Oyl.Lookahead.Quoted
import Oyl.Tokens.Runs

/-!
# The cache of the lookahead

One scan answers for every collection inside.  From a bracket that it reads as one, it does
what a scan from that bracket does, so its answer for the bracket is the same.  A bracket
that it passes in what it takes for a quoted scalar, a comment or a tag gets the answer
"not a key".
-/

namespace Oyl

/-- A quote that opens a quoted scalar for the scan; `qend` is just past the last one. -/
def QuotedAt (input : Bytes) (pos qend : Nat) : Prop :=
  (byteAt input pos = squote ∨ byteAt input pos = dquote) ∧ fkQuoteKind input pos qend = .opens

/-- The `<` of a verbatim tag. -/
def VerbatimAt (input : Bytes) (pos : Nat) : Prop :=
  byteAt input pos = less ∧ startsVerbatimTag input pos = true

/-- The `#` of a comment. -/
def CommentAt (input : Bytes) (pos : Nat) : Prop :=
  byteAt input pos = hash ∧ 0 < pos ∧ isBlankOrBreak (byteAt input (pos - 1)) = true

/-- Just past a quoted scalar. -/
def quotedStop (input : Bytes) (pos : Nat) : Nat :=
  fkSkipQuoted input pos (input.length - pos) (pos + 1)

/-- The end of a verbatim tag. -/
def verbatimStop (input : Bytes) (pos : Nat) : Nat :=
  pos + 1 + (input.drop (pos + 1)).findIdx fun b => b == greater || isBlankOrBreak b

/-- The text up to `o`: quoted scalars, verbatim tags, comments, and the bytes that are in none
of them. -/
inductive FkSpan (input : Bytes) (o : Nat) : Nat → Nat → Prop
  | here {qend : Nat} : FkSpan input o o qend
  | quoted {pos qend : Nat} : QuotedAt input pos qend →
      FkSpan input o (quotedStop input pos) (quotedStop input pos) → FkSpan input o pos qend
  | verbatim {pos qend : Nat} : VerbatimAt input pos →
      byteAt input (verbatimStop input pos) = greater →
      FkSpan input o (verbatimStop input pos + 1) qend → FkSpan input o pos qend
  | comment {pos qend : Nat} : CommentAt input pos →
      FkSpan input o (fkSkipComment input (pos + 1)) qend → FkSpan input o pos qend
  | byte {pos qend : Nat} : ¬QuotedAt input pos qend → ¬VerbatimAt input pos →
      ¬CommentAt input pos → FkSpan input o (pos + 1) qend → FkSpan input o pos qend

section

variable {input : Bytes} {pos qend fuel o i : Nat} {stack keys : List Nat}

instance : Decidable (QuotedAt input pos qend) := inferInstanceAs (Decidable (_ ∧ _))

instance : Decidable (VerbatimAt input pos) := inferInstanceAs (Decidable (_ ∧ _))

instance : Decidable (CommentAt input pos) := inferInstanceAs (Decidable (_ ∧ _ ∧ _))

/-! ### Rounds -/

theorem fkSkipQuoted_further (within : pos ≤ input.length) :
    pos ≤ fkSkipQuoted input i fuel pos := by
  induction fuel generalizing pos with
  | zero => exact within
  | succ fuel ih =>
      have next := fkNext_le within
      rw [fkSkipQuoted]
      split
      · exact within
      split
      · exact Nat.le_trans (by omega) (ih (by omega))
      split
      · split
        · rename_i pair
          have inside := of_decide_eq_true (Bool.and_eq_true_iff.mp pair).1
          exact Nat.le_trans (by omega) (ih (by omega))
        · omega
      · split
        · omega
        · exact Nat.le_trans (by omega) (ih (by omega))

/-- An opening bracket of a flow collection. -/
def opensFlow (c : UInt8) : Bool := c == lbracket || c == lbrace

theorem opensFlow_cases {c : UInt8} (opens : opensFlow c = true) : c = lbracket ∨ c = lbrace :=
  (Bool.or_eq_true_iff.mp opens).imp beq_iff_eq.mp beq_iff_eq.mp

theorem opensFlow_starts {c : UInt8} (opens : opensFlow c = true) :
    isBlank c = false ∧ startsEntry c = true := by
  rcases opensFlow_cases opens with rfl | rfl
  · exact ⟨rfl, rfl⟩
  · exact ⟨rfl, rfl⟩

theorem opensFlow_stop {c : UInt8} (opens : opensFlow c = true) : isFkStop c = true := by
  rcases opensFlow_cases opens with rfl | rfl <;> rfl

/-- What a move tells. -/
def FkMove.Within (input : Bytes) (pos : Nat) : FkMove → Prop
  | .unterminated | .ambiguous => True
  | .past next _ => pos < next ∧ next ≤ input.length
  | .opening i => pos ≤ i ∧ i < input.length ∧ opensFlow (byteAt input i) = true
  | .closing i | .lineEnd i => pos ≤ i ∧ i < input.length

theorem fkMove_within (within : pos ≤ input.length) :
    (fkMove input pos qend).Within input pos := by
  have next := fkNext_le within
  rw [fkMove]
  dsimp only
  generalize fkNext input pos = i at next ⊢
  split
  · trivial
  split
  · cases fkQuoteKind input i qend with
    | opens =>
        dsimp only
        split
        · trivial
        · have further : i + 1 ≤ fkSkipQuoted input i (input.length - i) (i + 1) :=
            fkSkipQuoted_further (by omega)
          exact ⟨by omega, by omega⟩
    | unclear => trivial
    | plain => exact ⟨by omega, by omega⟩
  split
  · split
    · split
      · trivial
      · rename_i found
        have behind := Nat.le_add_right (i + 1)
          ((input.drop (i + 1)).findIdx fun b => b == greater || isBlankOrBreak b)
        generalize i + 1 + (input.drop (i + 1)).findIdx _ = k at found behind ⊢
        simp only [bne_iff_ne, ne_eq, Decidable.not_not] at found
        have inside : k < input.length := by
          by_contra outside
          have ended : input.getD k 0 = 0 := byteAt_outside (Nat.not_lt.mp outside)
          rw [ended] at found
          cases found
        exact ⟨by omega, inside⟩
    · exact ⟨by omega, by omega⟩
  split
  · split
    · split
      · trivial
      · rw [fkSkipComment]
        rw [fkSkipComment] at *
        exact ⟨by omega, by omega⟩
    · exact ⟨by omega, by omega⟩
  split
  · rename_i bracket
    exact ⟨by omega, by omega, bracket⟩
  split
  · exact ⟨by omega, by omega⟩
  · exact ⟨by omega, by omega⟩

/-! ### Two scans -/

/-- A quoted scalar that ended before the bracket at `o` makes no difference behind it. -/
theorem fkMove_forget (bracket : opensFlow (byteAt input o) = true)
    (small : input.length ≤ sizeMax) (behind : o < pos) (earlier : qend ≤ o)
    (within : pos ≤ input.length) : fkMove input pos qend = fkMove input pos sizeMax := by
  have next := fkNext_le within
  rw [fkMove, fkMove]
  generalize fkNext input pos = i at next ⊢
  dsimp only
  by_cases ended : i ≥ input.length
  · rw [if_pos ended, if_pos ended]
  have kinds : fkQuoteKind input i qend = fkQuoteKind input i sizeMax := by
    rw [fkQuoteKind, fkQuoteKind]
    dsimp only
    by_cases onBracket : i - 1 = o
    · obtain ⟨notBlank, entry⟩ : isBlank (input.getD o 0) = false ∧
          startsEntry (input.getD o 0) = true := opensFlow_starts bracket
      rw [onBracket, notBlank, entry]
      rfl
    · have differ : (i - 1 == qend) = false := beq_false_of_ne (by omega)
      have differ' : (i - 1 == sizeMax) = false := beq_false_of_ne (by omega)
      rw [differ, differ']
  rw [kinds]

/-- Keys are only added, unless the scan gives up. -/
theorem fkScanFrom_grows (certain : (fkScanFrom input fuel pos stack keys qend).ambiguous = false) :
    ∀ k ∈ keys, k ∈ (fkScanFrom input fuel pos stack keys qend).keys := by
  induction fuel generalizing pos stack keys qend with
  | zero => exact fun k member => member
  | succ fuel ih =>
      rw [fkScanFrom] at certain ⊢
      cases move : fkMove input pos qend with
      | unterminated => exact fun k member => member
      | ambiguous =>
          rw [move] at certain
          cases certain
      | past next quoted =>
          rw [move] at certain
          exact ih certain
      | opening i =>
          rw [move] at certain
          exact ih certain
      | lineEnd i =>
          rw [move] at certain
          dsimp only at certain ⊢
          split
          · rename_i outside
            rw [if_pos outside] at certain
            exact ih certain
          · exact fun k member => member
      | closing i =>
          rw [move] at certain
          cases stack with
          | nil => exact ih certain
          | cons opened stack =>
              intro k member
              have more : k ∈ (if fkColonFollows false (input.drop (i + 1)) then keys ++ [opened]
                  else keys) := by
                split
                · exact List.mem_append_left _ member
                · exact member
              dsimp only at certain ⊢
              split
              · exact more
              · rename_i open'
                rw [if_neg open'] at certain
                exact ih certain k more

/-- A scan from the bracket at `o`, and one that was under way when it read it, until one of
them ends. -/
theorem fkScanFrom_coupled (bracket : opensFlow (byteAt input o) = true)
    (small : input.length ≤ sizeMax) {inner outer keys' : List Nat} {qend' fuel' : Nat}
    (behind : o < pos) (within : pos ≤ input.length) (enough : input.length - pos < fuel)
    (enough' : input.length - pos < fuel') (later : ∀ k ∈ inner, o < k) (unknown : o ∉ keys)
    (coupled : qend' = qend ∨ (qend = sizeMax ∧ qend' ≤ o))
    (certain : (fkScanFrom input fuel' pos (inner ++ o :: outer) keys' qend').ambiguous = false)
    (noKey : o ∉ (fkScanFrom input fuel' pos (inner ++ o :: outer) keys' qend').keys) :
    (fkScanFrom input fuel pos (inner ++ [o]) keys qend).ambiguous = false ∧
      o ∉ (fkScanFrom input fuel pos (inner ++ [o]) keys qend).keys := by
  induction fuel generalizing pos inner keys keys' qend qend' fuel' with
  | zero => exact absurd enough (Nat.not_lt_zero _)
  | succ fuel ih =>
      obtain ⟨fuel', rfl⟩ :=
        Nat.exists_eq_succ_of_ne_zero (Nat.ne_of_gt (Nat.zero_lt_of_lt enough'))
      have same : fkMove input pos qend' = fkMove input pos qend := by
        rcases coupled with rfl | ⟨rfl, earlier⟩
        · rfl
        · exact fkMove_forget bracket small behind earlier within
      have moved : (fkMove input pos qend).Within input pos := fkMove_within within
      rw [Nat.succ_eq_add_one, fkScanFrom, same] at certain noKey
      rw [fkScanFrom]
      cases move : fkMove input pos qend with
      | unterminated => exact ⟨rfl, unknown⟩
      | ambiguous =>
          rw [move] at certain
          cases certain
      | past next quoted =>
          rw [move] at certain noKey moved
          obtain ⟨further, inside⟩ := moved
          refine ih (Nat.lt_trans behind further) inside (by omega) (by omega) later unknown ?_
            certain noKey
          cases quoted with
          | true => exact .inl rfl
          | false => exact coupled
      | opening i =>
          rw [move] at certain noKey moved
          obtain ⟨further, inside, _⟩ := moved
          refine ih (by omega) inside (by omega) (by omega) (?_ : ∀ k ∈ i :: inner, o < k) unknown
            coupled certain noKey
          intro k member
          rcases List.mem_cons.mp member with rfl | member
          · exact Nat.lt_of_lt_of_le behind further
          · exact later k member
      | lineEnd i =>
          have open' (stack : List Nat) : (inner ++ o :: stack).isEmpty = false := by
            cases inner <;> rfl
          dsimp only
          rw [open', if_neg Bool.false_ne_true]
          exact ⟨rfl, unknown⟩
      | closing i =>
          rw [move] at certain noKey moved
          obtain ⟨further, inside⟩ := moved
          cases inner with
          | nil =>
              dsimp only [List.nil_append] at certain noKey ⊢
              rw [List.isEmpty_nil, if_pos rfl]
              refine ⟨rfl, ?_⟩
              dsimp only
              by_cases colon : fkColonFollows false (input.drop (i + 1)) = true
              · exfalso
                rw [if_pos colon] at certain noKey
                have isKey : o ∈ keys' ++ [o] := List.mem_append_right _ List.mem_cons_self
                split at noKey
                · exact noKey isKey
                · rename_i more
                  rw [if_neg more] at certain
                  exact noKey (fkScanFrom_grows certain o isKey)
              · rw [if_neg colon]
                exact unknown
          | cons opened inner =>
              have open' (stack : List Nat) : (inner ++ o :: stack).isEmpty = false := by
                cases inner <;> rfl
              dsimp only [List.cons_append] at certain noKey ⊢
              rw [open', if_neg Bool.false_ne_true] at certain noKey
              rw [open', if_neg Bool.false_ne_true]
              refine ih (by omega) inside (by omega) (by omega)
                (fun k member => later k (List.mem_cons_of_mem _ member)) ?_ coupled certain noKey
              split
              · intro member
                rcases List.mem_append.mp member with member | member
                · exact unknown member
                · have differ := later opened List.mem_cons_self
                  rw [List.mem_singleton.mp member] at differ
                  exact Nat.lt_irrefl _ differ
              · exact unknown

/-- At a stop the next move is about this stop. -/
theorem fkNext_of_stop (stop : isFkStop (byteAt input pos) = true) :
    pos < input.length ∧ fkNext input pos = pos := by
  have inside : pos < input.length := by
    by_contra outside
    rw [byteAt_outside (Nat.not_lt.mp outside)] at stop
    cases stop
  exact ⟨inside, fkNext_here (Nat.le_of_lt inside) stop⟩

theorem fkMove_bracket (bracket : opensFlow (byteAt input o) = true) :
    fkMove input o qend = .opening o := by
  have same : input.getD o 0 = byteAt input o := rfl
  obtain ⟨inside, here⟩ := fkNext_of_stop (opensFlow_stop bracket)
  rw [fkMove, here]
  dsimp only
  rw [if_neg (Nat.not_le.mpr inside), same]
  rcases opensFlow_cases bracket with isBracket | isBrace
  · rw [isBracket]
    rfl
  · rw [isBrace]
    rfl

theorem QuotedAt.stop (quoted : QuotedAt input pos qend) :
    isFkStop (byteAt input pos) = true := by
  rcases quoted.1 with isQuote | isQuote <;> rw [isQuote] <;> rfl

theorem VerbatimAt.stop (tag : VerbatimAt input pos) : isFkStop (byteAt input pos) = true := by
  rw [tag.1]
  rfl

theorem CommentAt.stop (comment : CommentAt input pos) : isFkStop (byteAt input pos) = true := by
  rw [comment.1]
  rfl

theorem fkMove_quoted (quoted : QuotedAt input pos qend)
    (closed : quotedStop input pos < input.length) :
    fkMove input pos qend = .past (quotedStop input pos) true := by
  have same : input.getD pos 0 = byteAt input pos := rfl
  obtain ⟨inside, here⟩ := fkNext_of_stop quoted.stop
  have isQuote : (byteAt input pos == squote || byteAt input pos == dquote) = true := by
    simpa using quoted.1
  rw [fkMove, here]
  dsimp only
  rw [if_neg (Nat.not_le.mpr inside), same, if_pos isQuote, quoted.2]
  exact if_neg (Nat.not_le.mpr closed)

theorem fkMove_verbatim (tag : VerbatimAt input pos)
    (closed : byteAt input (verbatimStop input pos) = greater) :
    fkMove input pos qend = .past (verbatimStop input pos + 1) false := by
  have same : input.getD pos 0 = byteAt input pos := rfl
  obtain ⟨inside, here⟩ := fkNext_of_stop tag.stop
  rw [fkMove, here]
  dsimp only
  rw [if_neg (Nat.not_le.mpr inside), same, tag.1, if_neg (by decide), if_pos (by decide),
    if_pos tag.2]
  refine if_neg ?_
  rw [bne_iff_ne, not_not]
  exact closed

theorem fkMove_comment (comment : CommentAt input pos)
    (closed : fkSkipComment input (pos + 1) ≤ input.length) :
    fkMove input pos qend = .past (fkSkipComment input (pos + 1)) false := by
  have same : input.getD pos 0 = byteAt input pos := rfl
  obtain ⟨isHash, later, gap⟩ := comment
  obtain ⟨inside, here⟩ := fkNext_of_stop (CommentAt.stop ⟨isHash, later, gap⟩)
  have opens : (decide (pos > 0) && isBlankOrBreak (input.getD (pos - 1) 0)) = true := by
    rw [decide_eq_true later]
    exact gap
  rw [fkMove, here]
  dsimp only
  rw [if_neg (Nat.not_le.mpr inside), same, isHash, if_neg (by decide), if_neg (by decide),
    if_pos (by decide), if_pos opens]
  exact if_neg (Nat.not_lt.mpr closed)

/-- A stop that is in no quoted scalar, tag or comment. -/
theorem fkMove_byte (stop : isFkStop (byteAt input pos) = true)
    (notQuoted : ¬QuotedAt input pos qend) (notTag : ¬VerbatimAt input pos)
    (notComment : ¬CommentAt input pos) :
    fkMove input pos qend = .ambiguous ∨ fkMove input pos qend = .past (pos + 1) false ∨
      fkMove input pos qend = .opening pos ∨ fkMove input pos qend = .lineEnd pos ∨
      fkMove input pos qend = .closing pos := by
  have same : input.getD pos 0 = byteAt input pos := rfl
  obtain ⟨inside, here⟩ := fkNext_of_stop stop
  rw [fkMove, here]
  dsimp only
  rw [if_neg (Nat.not_le.mpr inside), same]
  split
  · rename_i isQuote
    cases kind : fkQuoteKind input pos qend with
    | opens => exact absurd ⟨by simpa using isQuote, kind⟩ notQuoted
    | unclear => exact .inl rfl
    | plain => exact .inr (.inl rfl)
  split
  · rename_i isLess
    rw [if_neg fun tag => notTag ⟨beq_iff_eq.mp isLess, tag⟩]
    exact .inr (.inl rfl)
  split
  · rename_i isHash
    have closed : ¬(decide (pos > 0) && isBlankOrBreak (input.getD (pos - 1) 0)) = true := by
      rw [Bool.and_eq_true, decide_eq_true_eq]
      exact fun opens => notComment ⟨beq_iff_eq.mp isHash, opens⟩
    rw [if_neg closed]
    exact .inr (.inl rfl)
  split
  · exact .inr (.inr (.inl rfl))
  split
  · exact .inr (.inr (.inr (.inl rfl)))
  · exact .inr (.inr (.inr (.inr rfl)))

/-- A scan starts with the bracket it is for. -/
theorem fkScan_bracket (bracket : opensFlow (byteAt input o) = true) :
    fkScan input o = fkScanFrom input (input.length - o) (o + 1) [o] [] sizeMax := by
  rw [fkScan, fkScanFrom, fkMove_bracket bracket]

/-! ### The text up to a bracket -/

namespace FkSpan

theorem le (span : FkSpan input o pos qend) : pos ≤ o := by
  induction span with
  | here => exact Nat.le_refl _
  | quoted quoted _ ih =>
      exact Nat.le_trans (Nat.le_of_succ_le
        (fkSkipQuoted_further (fkNext_of_stop quoted.stop).1)) ih
  | verbatim _ _ _ ih =>
      rw [verbatimStop] at ih
      omega
  | comment _ _ ih =>
      rw [fkSkipComment] at ih
      omega
  | byte _ _ _ _ ih => exact Nat.le_of_succ_le ih

/-- Nothing starts before the next stop. -/
theorem next (span : FkSpan input o pos qend) (bracket : opensFlow (byteAt input o) = true) :
    FkSpan input o (fkNext input pos) qend := by
  induction span with
  | here =>
      rw [(fkNext_of_stop (opensFlow_stop bracket)).2]
      exact .here
  | quoted quoted rest _ =>
      rw [(fkNext_of_stop quoted.stop).2]
      exact .quoted quoted rest
  | verbatim tag closed rest _ =>
      rw [(fkNext_of_stop tag.stop).2]
      exact .verbatim tag closed rest
  | comment comment rest _ =>
      rw [(fkNext_of_stop comment.stop).2]
      exact .comment comment rest
  | @byte pos qend notQuoted notTag notComment rest ih =>
      cases stop : isFkStop (byteAt input pos) with
      | true =>
          rw [(fkNext_of_stop stop).2]
          exact .byte notQuoted notTag notComment rest
      | false =>
          have inside : pos < input.length :=
            Nat.lt_of_lt_of_le rest.le (Nat.le_of_lt (fkNext_of_stop (opensFlow_stop bracket)).1)
          have further : fkNext input pos = fkNext input (pos + 1) := by
            rw [fkNext, fkNext, drop_eq_cons inside, List.findIdx_cons, stop, cond_false]
            omega
          rw [further]
          exact ih

/-- A scan that answers for the bracket after the text, and does not make it a key, gives the
answer that a scan from the bracket gives. -/
theorem fresh (span : FkSpan input o pos qend) (bracket : opensFlow (byteAt input o) = true)
    (small : input.length ≤ sizeMax) (enough : input.length - pos < fuel)
    (past : qend ≤ pos ∨ qend = sizeMax)
    (certain : (fkScanFrom input fuel pos stack keys qend).ambiguous = false)
    (reach : o ≤ (fkScanFrom input fuel pos stack keys qend).hi)
    (noKey : o ∉ (fkScanFrom input fuel pos stack keys qend).keys) :
    (fkScan input o).ambiguous = false ∧ o ∉ (fkScan input o).keys := by
  have inside := (fkNext_of_stop (opensFlow_stop bracket)).1
  induction fuel generalizing pos stack keys qend with
  | zero => exact absurd enough (Nat.not_lt_zero _)
  | succ fuel ih =>
      have next := (fkNext_le (Nat.le_trans span.le (Nat.le_of_lt inside))).1
      have span := span.next bracket
      have within := span.le
      have stop : isFkStop (byteAt input (fkNext input pos)) = true :=
        fkNext_stop (Nat.lt_of_le_of_lt within inside)
      have past : qend ≤ fkNext input pos ∨ qend = sizeMax := past.imp_left (Nat.le_trans · next)
      have here : fkMove input pos qend = fkMove input (fkNext input pos) qend := by
        rw [fkMove, fkMove, (fkNext_of_stop stop).2]
      rw [fkScanFrom, here] at certain reach noKey
      generalize fkNext input pos = i at *
      cases span with
      | here =>
          rw [fkMove_bracket bracket] at certain noKey
          rw [fkScan_bracket bracket]
          have none : ∀ k ∈ ([] : List Nat), o < k := fun k member => by cases member
          refine fkScanFrom_coupled bracket small (Nat.lt_succ_self _) inside (by omega) (by omega)
            none (fun member => by cases member) ?_ certain noKey
          exact past.elim (fun earlier => .inr ⟨rfl, earlier⟩) .inl
      | quoted quoted rest =>
          have further : i + 1 ≤ quotedStop input i :=
            fkSkipQuoted_further (fkNext_of_stop quoted.stop).1
          rw [fkMove_quoted quoted (Nat.lt_of_le_of_lt rest.le inside)] at certain reach noKey
          exact ih rest (by omega) (.inl (Nat.le_refl _)) certain reach noKey
      | verbatim tag closed rest =>
          have further : i + 1 ≤ verbatimStop input i := Nat.le_add_right _ _
          rw [fkMove_verbatim tag closed] at certain reach noKey
          exact ih rest (by omega) (past.imp_left fun earlier => by omega) certain reach noKey
      | comment comment rest =>
          have further : i + 1 ≤ fkSkipComment input (i + 1) :=
            Nat.le_succ_of_le (Nat.le_add_right _ _)
          rw [fkMove_comment comment (Nat.le_trans rest.le (Nat.le_of_lt inside))]
            at certain reach noKey
          exact ih rest (by omega) (past.imp_left fun earlier => by omega) certain reach noKey
      | byte notQuoted notTag notComment rest =>
          have before := rest.le
          have past : qend ≤ i + 1 ∨ qend = sizeMax := past.imp_left fun earlier => by omega
          rcases fkMove_byte stop notQuoted notTag notComment with
            move | move | move | move | move <;>
            rw [move] at certain reach noKey
          · cases certain
          · exact ih rest (by omega) past certain reach noKey
          · exact ih rest (by omega) past certain reach noKey
          · -- a scan that ends at the line has not come to the bracket
            cases stack with
            | nil => exact ih rest (by omega) past certain reach noKey
            | cons opened stack => exact absurd reach (Nat.not_le.mpr before)
          · cases stack with
            | nil => exact ih rest (by omega) past certain reach noKey
            | cons opened stack =>
                dsimp only at certain reach noKey
                cases last : stack.isEmpty with
                | true =>
                    rw [last, if_pos rfl] at reach
                    exact absurd reach (Nat.not_le.mpr before)
                | false =>
                    rw [last, if_neg Bool.false_ne_true] at certain reach noKey
                    exact ih rest (by omega) past certain reach noKey

end FkSpan

end

/-! ### Calls -/

namespace Parser

/-- Is the answer for the collection at `offset` taken from the cache? -/
def Covers (p : Parser) (offset : Nat) : Prop :=
  p.fkValid = true ∧ p.fkLo ≤ offset ∧ offset ≤ p.fkHi

/-- The parser with an empty cache. -/
def uncached (p : Parser) : Parser := { p with fkValid := false }

/-- An answer "not a key" from the cache is the one without the cache. -/
def Agrees (p : Parser) (offset : Nat) : Prop :=
  p.Covers offset → (p.flowIsBlockKey offset).1 = false →
    (p.uncached.flowIsBlockKey offset).1 = false

/-- Where the answer for the bracket at `offset` is "not a key", the text from the start of the
scan to the bracket does not end inside of a quoted scalar, a comment or a tag. -/
def Reads (p : Parser) (offset : Nat) : Prop :=
  p.Covers offset → (p.flowIsBlockKey offset).1 = false →
    opensFlow (byteAt p.input offset) = true ∧ FkSpan p.input offset p.fkLo sizeMax

/-- A property of each call of a run, and of the parser that it is made on. -/
def EachCall (P : Parser → Nat → Prop) (p : Parser) : List Nat → Prop
  | [] => True
  | offset :: rest => P p offset ∧ (p.flowIsBlockKey offset).2.EachCall P rest

/-- The cache is what its scan has left. -/
def Cached (p : Parser) : Prop :=
  p.fkValid = true → fkScan p.input p.fkLo =
    { hi := p.fkHi, keys := p.fkKeys, ambiguous := p.fkAmbiguous }

variable {p : Parser} {offset : Nat}

theorem fkCovering_input (p : Parser) (offset : Nat) : (p.fkCovering offset).input = p.input := by
  rw [fkCovering]
  split <;> rfl

theorem Cached.covering (cached : p.Cached) (offset : Nat) : (p.fkCovering offset).Cached := by
  rw [fkCovering]
  split
  · exact fun _ => rfl
  · exact cached

theorem fkCovering_covers (covers : p.Covers offset) : p.fkCovering offset = p := by
  obtain ⟨valid, low, high⟩ := covers
  rw [fkCovering, if_neg]
  simp [valid, low, high]

/-- A call that meets the condition. -/
theorem Cached.agrees (cached : p.Cached) (small : p.input.length ≤ sizeMax)
    (reads : p.Reads offset) : p.Agrees offset := by
  intro covers notKey
  have asked := notKey
  have kept := cached covers.1
  rw [flowIsBlockKey, fkCovering_covers covers] at notKey
  obtain ⟨certain, noKey⟩ := Bool.or_eq_false_iff.mp notKey
  have outer : (fkScan p.input p.fkLo).ambiguous = false ∧
      offset ∉ (fkScan p.input p.fkLo).keys := by
    rw [kept]
    refine ⟨certain, fun member => ?_⟩
    rw [List.contains_eq_mem, decide_eq_false_iff_not] at noKey
    exact noKey member
  have reach : offset ≤ (fkScan p.input p.fkLo).hi := by
    rw [kept]
    exact covers.2.2
  obtain ⟨bracket, span⟩ := reads covers asked
  obtain ⟨fresh, none⟩ := span.fresh bracket small (Nat.lt_succ_self _) (.inr rfl) outer.1
    reach outer.2
  change ((fkScan p.input offset).ambiguous || (fkScan p.input offset).keys.contains offset) = false
  rw [fresh, Bool.false_or, List.contains_eq_mem]
  exact decide_eq_false none

/-- In a run of calls in which every answer "not a key" from the cache is for a bracket that is
in no quoted scalar, comment or tag for the scan, it is what a scan from the bracket would
give. -/
theorem cache_agrees {offsets : List Nat} (small : p.input.length ≤ sizeMax)
    (empty : p.fkValid = false) (reads : p.EachCall Reads offsets) :
    p.EachCall Agrees offsets := by
  have cached : p.Cached := fun valid => Bool.noConfusion (empty.symm.trans valid)
  clear empty
  induction offsets generalizing p with
  | nil => trivial
  | cons offset rest ih =>
      obtain ⟨first, others⟩ := reads
      refine ⟨cached.agrees small first, ih ?_ others (cached.covering offset)⟩
      change (p.fkCovering offset).input.length ≤ sizeMax
      rw [fkCovering_input]
      exact small

/-- `["a", [b], [c]: d]` -/
def nestedText : Bytes := ascii "[\"a\", [b], [c]: d]\n"

theorem nestedText_span : FkSpan nestedText 6 0 sizeMax := by
  refine .byte (by decide) (by decide) (by decide) (.quoted (by decide) ?_)
  have stop : quotedStop nestedText 1 = 4 := by decide
  rw [stop]
  exact .byte (by decide) (by decide) (by decide) (.byte (by decide) (by decide) (by decide) .here)

theorem cache_agrees_nested :
    (Parser.new nestedText).EachCall Agrees [0, 6, 11] ∧
      ((Parser.new nestedText).flowIsBlockKey 0).2.Covers 6 ∧
      (((Parser.new nestedText).flowIsBlockKey 0).2.flowIsBlockKey 6).1 = false := by
  refine ⟨cache_agrees (by decide) rfl ⟨?_, ?_, ?_, trivial⟩, ?_, ?_⟩
  · intro covers
    cases covers.1
  · intro _ _
    exact ⟨by decide, nestedText_span⟩
  · intro _ notKey
    exact absurd notKey (by decide)
  · exact ⟨by decide, by decide, by decide⟩
  · decide

/-- `["a" :'x, ', b]` and, in a second document, `[c]: d`. -/
def misreadText : Bytes := ascii "[\"a\" :'x, ', b]\n---\n[c]: d\n"

/-- The scan takes the second quote for one that opens and goes to the end of the input, so
the key of the second document is not found. -/
theorem cache_agrees_misread :
    (∃ toks s, Scanned misreadText (fun _ => True) toks s ∧
      (toks.filter fun tok => tok.type == .flowSeqStart).map (·.start.offset) = [0, 20]) ∧
    ((Parser.new misreadText).flowIsBlockKey 0).2.Covers 20 ∧
    ¬((Parser.new misreadText).flowIsBlockKey 0).2.Agrees 20 := by
  refine ⟨?_, ?_, ?_⟩
  · exact exists_scanned misreadText (fun _ => True) 15 (fun toks =>
      (toks.filter fun tok => tok.type == .flowSeqStart).map (·.start.offset) = [0, 20])
      (by decide +kernel)
  · exact ⟨by decide, by decide, by decide⟩
  · intro agrees
    have notKey := agrees ⟨by decide, by decide, by decide⟩ (by decide)
    exact absurd notKey (by decide)

end Parser

end Oyl
