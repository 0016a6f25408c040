import Mathlib.Data.List.Chain
import Mathlib.Data.List.DropRight
import Mathlib.Data.List.Count

/-!
# Line folding

A text is cut into units, each a piece of content, a blank or a line break.  Folding
drops the blanks around the breaks and reads the breaks between two contents as one
space or as line feeds.
-/

namespace Oyl

namespace Folding

universe u v

variable {α : Type u}

/-- A piece of a text that is folded. -/
inductive Piece (α : Type u) where
  | solid (content : List α)
  | blank (x : α)
  | newline
  /-- A line break that is removed. -/
  | joined
  deriving DecidableEq, Repr

/-- What lies between two contents: blanks, breaks after a first one, or breaks after
one that is removed. -/
inductive Gap (α : Type u) where
  | blanks (held : List α)
  | breaks (more : Nat)
  | joined (count : Nat)
  deriving DecidableEq, Repr

@[simp] def Gap.blank (x : α) : Gap α → Gap α
  | .blanks held => .blanks (held ++ [x])
  | .breaks more => .breaks more
  | .joined count => .joined count

@[simp] def Gap.newline : Gap α → Gap α
  | .blanks _ => .breaks 0
  | .breaks more => .breaks (more + 1)
  | .joined count => .joined (count + 1)

/-- The gap after a number of breaks. -/
@[simp] def Gap.newlines : Nat → Gap α → Gap α
  | 0, gap => gap
  | count + 1, gap => gap.newline.newlines count

section

variable (space lf : α)

/-- What a gap reads as: one break is a space, further breaks are line feeds. -/
@[simp] def Gap.text : Gap α → List α
  | .blanks held => held
  | .breaks 0 => [space]
  | .breaks (more + 1) => List.replicate (more + 1) lf
  | .joined count => List.replicate count lf

/-- Folding after a gap. -/
@[simp] def foldGap : Gap α → List (Piece α) → List α
  | gap, [] => gap.text space lf
  | gap, .solid content :: rest => gap.text space lf ++ content ++ foldGap (.blanks []) rest
  | gap, .blank x :: rest => foldGap (gap.blank x) rest
  | gap, .newline :: rest => foldGap gap.newline rest
  | gap, .joined :: rest => gap.text space lf ++ foldGap (.joined 0) rest

def fold (pieces : List (Piece α)) : List α := foldGap space lf (.blanks []) pieces

end

/-! ### Units of a text -/

/-- The units of a text.  `unit` reads the unit at the front and says how many elements
past the first belong to it. -/
def units {β : Type v} (unit : List α → β × Nat) : Nat → List α → List β
  | _, [] => []
  | skip + 1, _ :: rest => units unit skip rest
  | 0, x :: rest => (unit (x :: rest)).1 :: units unit (unit (x :: rest)).2 rest

theorem units_skip {β : Type v} (unit : List α → β × Nat) (skip : Nat) (text : List α) :
    units unit skip text = units unit 0 (text.drop skip) := by
  induction text generalizing skip with
  | nil => simp [units]
  | cons x rest ih =>
      cases skip with
      | zero => rfl
      | succ skip => rw [units, List.drop_succ_cons, ih]

theorem units_cons {β : Type v} {unit : List α → β × Nat} {x : α} {rest : List α} {b : β}
    {more : Nat} (isUnit : unit (x :: rest) = (b, more)) :
    units unit 0 (x :: rest) = b :: units unit 0 (rest.drop more) := by
  rw [units, isUnit, units_skip]

/-! ### Reading on inside a line -/

section

variable {space lf : α} {isBlank : α → Bool}

/-- An element of a line. -/
def element (isBlank : α → Bool) (x : α) : Piece α := if isBlank x then .blank x else .solid [x]

/-- What is read after `out`, whose last blanks may still be dropped. -/
def readOn (space lf : α) (isBlank : α → Bool) (out : List α) (pieces : List (Piece α)) : List α :=
  out.rdropWhile isBlank ++ foldGap space lf (.blanks (out.rtakeWhile isBlank)) pieces

theorem readOn_nil (out : List α) : readOn space lf isBlank out [] = out :=
  List.rdropWhile_append_rtakeWhile

theorem readOn_empty (pieces : List (Piece α)) :
    readOn space lf isBlank [] pieces = fold space lf pieces := rfl

theorem readOn_solid (out content : List α) (pieces : List (Piece α)) :
    readOn space lf isBlank out (.solid content :: pieces) =
      out ++ content ++ fold space lf pieces := by
  rw [readOn, foldGap, Gap.text, ← List.append_assoc, ← List.append_assoc,
    List.rdropWhile_append_rtakeWhile]
  rfl

theorem readOn_newline (out : List α) (pieces : List (Piece α)) :
    readOn space lf isBlank out (.newline :: pieces) =
      out.rdropWhile isBlank ++ foldGap space lf (.breaks 0) pieces := rfl

/-- Content that ends in no blank cannot be dropped. -/
theorem readOn_settled {out : List α} (settled : out.rtakeWhile isBlank = [])
    (pieces : List (Piece α)) :
    readOn space lf isBlank out pieces = out ++ fold space lf pieces := by
  have whole := List.rdropWhile_append_rtakeWhile (p := isBlank) (l := out)
  rw [settled, List.append_nil] at whole
  rw [readOn, settled, whole]
  rfl

theorem readOn_element (out : List α) (x : α) (pieces : List (Piece α)) :
    readOn space lf isBlank out (element isBlank x :: pieces) =
      readOn space lf isBlank (out ++ [x]) pieces := by
  unfold element
  cases blank : isBlank x with
  | true =>
      rw [if_pos rfl, readOn, readOn, foldGap, Gap.blank, List.rdropWhile_concat_pos _ _ _ blank,
        List.rtakeWhile_concat_pos _ _ _ blank]
  | false =>
      have solid : ¬isBlank x = true := by simp [blank]
      rw [if_neg Bool.false_ne_true, readOn_solid,
        readOn_settled (List.rtakeWhile_concat_neg _ _ _ solid)]

/-- A run of a line. -/
theorem readOn_elements (out run : List α) (pieces : List (Piece α)) :
    readOn space lf isBlank out (run.map (element isBlank) ++ pieces) =
      readOn space lf isBlank (out ++ run) pieces := by
  induction run generalizing out with
  | nil => rw [List.map_nil, List.nil_append, List.append_nil]
  | cons x run ih =>
      rw [List.map_cons, List.cons_append, readOn_element, ih, List.append_assoc]
      rfl

/-- What follows is content or a removed break, or nothing. -/
def Starts (pieces : List (Piece α)) : Prop :=
  pieces = [] ∨ (∃ content rest, pieces = .solid content :: rest) ∨ ∃ rest, pieces = .joined :: rest

theorem readOn_joined (out : List α) (pieces : List (Piece α)) :
    readOn space lf isBlank out (.joined :: pieces) = out ++ foldGap space lf
      (.joined 0) pieces := by
  rw [readOn, foldGap, Gap.text, ← List.append_assoc, List.rdropWhile_append_rtakeWhile]

variable (isBlank) in
/-- A gap before content. -/
theorem foldGap_starts (gap : Gap α) {pieces : List (Piece α)} (starts : Starts pieces)
    (out : List α) :
    out ++ foldGap space lf gap pieces = readOn space lf isBlank
      (out ++ gap.text space lf) pieces := by
  rcases starts with rfl | ⟨content, rest, rfl⟩ | ⟨rest, rfl⟩
  · rw [readOn_nil, foldGap]
  · rw [readOn_solid, foldGap, fold]
    simp only [List.append_assoc]
  · rw [readOn_joined, foldGap, List.append_assoc]

theorem Gap.newline_blank (gap : Gap α) (x : α) : gap.newline.blank x = gap.newline := by
  cases gap <;> rfl

/-- Blanks after a break are dropped. -/
theorem foldGap_blanks (gap : Gap α) (blanks : List α) (pieces : List (Piece α)) :
    foldGap space lf gap.newline (blanks.map Piece.blank ++ pieces) =
      foldGap space lf gap.newline pieces := by
  induction blanks with
  | nil => rfl
  | cons x blanks ih => rw [List.map_cons, List.cons_append, foldGap, gap.newline_blank, ih]

theorem foldGap_held (held blanks : List α) :
    foldGap space lf (.blanks held) (blanks.map Piece.blank) = held ++ blanks := by
  induction blanks generalizing held with
  | nil => exact (List.append_nil held).symm
  | cons x blanks ih =>
      rw [List.map_cons, foldGap, Gap.blank, ih, List.append_assoc]
      rfl

theorem Gap.newlines_breaks (count more : Nat) :
    (Gap.breaks more : Gap α).newlines count = .breaks (more + count) := by
  induction count generalizing more with
  | zero => rfl
  | succ count ih =>
      rw [Gap.newlines, Gap.newline, ih, Nat.add_assoc, Nat.add_comm 1]

/-- Pieces that are `count` breaks, with the blanks after each. -/
inductive Lines : Nat → List (Piece α) → Prop
  | none : Lines 0 []
  | line {count : Nat} {pieces : List (Piece α)} (blanks : List α) : Lines count pieces →
      Lines (count + 1) (.newline :: (blanks.map Piece.blank ++ pieces))

theorem Lines.foldGap_eq {count : Nat} {lines : List (Piece α)} (isLines : Lines count lines)
    (gap : Gap α) (pieces : List (Piece α)) :
    foldGap space lf gap (lines ++ pieces) = foldGap space lf (gap.newlines count) pieces := by
  induction isLines generalizing gap with
  | none => rfl
  | line blanks _ ih =>
      rw [List.cons_append, foldGap, List.append_assoc, foldGap_blanks, ih, Gap.newlines]

/-- Folding starts anew after content. -/
theorem foldGap_content (gap : Gap α) (before : List (Piece α)) (content : List α)
    (after : List (Piece α)) :
    foldGap space lf gap (before ++ .solid content :: after) =
      foldGap space lf gap (before ++ [.solid content]) ++ fold space lf after := by
  induction before generalizing gap with
  | nil =>
      simp only [List.nil_append, foldGap, Gap.text, List.append_nil]
      rfl
  | cons piece before ih =>
      cases piece with
      | solid other =>
          simp only [List.cons_append, foldGap]
          rw [ih]
          simp only [List.append_assoc]
      | blank x => exact ih (gap.blank x)
      | newline => exact ih gap.newline
      | joined =>
          simp only [List.cons_append, foldGap]
          rw [ih, List.append_assoc]

/-- Folded text ends with its last content. -/
theorem foldGap_last (gap : Gap α) (before : List (Piece α)) (content : List α) :
    ∃ first, foldGap space lf gap (before ++ [.solid content]) = first ++ content := by
  induction before generalizing gap with
  | nil =>
      exact ⟨gap.text space lf, by simp only [List.nil_append, foldGap, Gap.text, List.append_nil]⟩
  | cons piece before ih =>
      cases piece with
      | solid other =>
          obtain ⟨first, isLast⟩ := ih (.blanks [])
          refine ⟨gap.text space lf ++ other ++ first, ?_⟩
          rw [List.cons_append, foldGap, isLast, List.append_assoc]
          simp only [List.append_assoc]
      | blank x => exact ih (gap.blank x)
      | newline => exact ih gap.newline
      | joined =>
          obtain ⟨first, isLast⟩ := ih (.joined 0)
          refine ⟨gap.text space lf ++ first, ?_⟩
          rw [List.cons_append, foldGap, isLast, List.append_assoc]

/-- Blanks and breaks without content. -/
def IsGap (pieces : List (Piece α)) : Prop := ∀ piece ∈ pieces, piece = .newline ∨ ∃ x,
    piece = .blank x

theorem IsGap.tail {piece : Piece α} {pieces : List (Piece α)} (isGap : IsGap (piece :: pieces)) :
    IsGap pieces := fun other member => isGap other (List.mem_cons_of_mem _ member)

variable [DecidableEq α]

theorem IsGap.foldGap_breaks {pieces : List (Piece α)} (isGap : IsGap pieces) (more : Nat) :
    foldGap space lf (.breaks more) pieces =
      (Gap.breaks (more + pieces.count .newline)).text space lf := by
  induction pieces generalizing more with
  | nil => rfl
  | cons piece pieces ih =>
      rcases isGap piece List.mem_cons_self with rfl | ⟨x, rfl⟩
      · rw [foldGap, Gap.newline, ih isGap.tail, List.count_cons_self, Nat.add_assoc,
          Nat.add_comm 1]
      · rw [foldGap, Gap.blank, ih isGap.tail, List.count_cons_of_ne (by simp)]

/-- A gap with breaks. -/
theorem IsGap.foldGap_blanks {pieces : List (Piece α)} (isGap : IsGap pieces) (held : List α)
    {more : Nat} (breaks : pieces.count .newline = more + 1) :
    foldGap space lf (.blanks held) pieces = (Gap.breaks more).text space lf := by
  induction pieces generalizing held with
  | nil => cases breaks
  | cons piece pieces ih =>
      rcases isGap piece List.mem_cons_self with rfl | ⟨x, rfl⟩
      · rw [List.count_cons_self, Nat.succ_inj] at breaks
        rw [foldGap, Gap.newline, isGap.tail.foldGap_breaks, breaks, Nat.zero_add]
      · rw [List.count_cons_of_ne (by simp)] at breaks
        exact ih isGap.tail _ breaks

theorem Lines.count_eq {count : Nat} {pieces : List (Piece α)} (isLines : Lines count pieces) :
    pieces.count .newline = count := by
  induction isLines with
  | none => rfl
  | line blanks _ ih =>
      have noBreak : (blanks.map Piece.blank).count (.newline : Piece α) = 0 := by
        rw [List.count_eq_zero]
        intro member
        obtain ⟨x, _, same⟩ := List.mem_map.mp member
        cases same
      rw [List.count_cons_self, List.count_append, noBreak, Nat.zero_add, ih]

end

/-! ### Removed breaks read as empty content -/

@[simp] def Piece.settle : Piece α → Piece α
  | .solid content => .solid content
  | .blank x => .blank x
  | .newline => .newline
  | .joined => .solid []

@[simp] def Gap.settle : Gap α → Gap α
  | .blanks held => .blanks held
  | .breaks more => .breaks more
  | .joined 0 => .blanks []
  | .joined (count + 1) => .breaks count

/-- The line feeds that are lost where a gap is settled. -/
@[simp] def Gap.lost : Gap α → Nat
  | .blanks _ => 0
  | .breaks _ => 0
  | .joined 0 => 0
  | .joined (_ + 1) => 1

/-- The line feeds that are lost where removed breaks read as empty content. -/
@[simp] def lost : Gap α → List (Piece α) → Nat
  | gap, [] => gap.lost
  | gap, .solid _ :: rest => gap.lost + lost (.blanks []) rest
  | gap, .blank x :: rest => lost (gap.blank x) rest
  | gap, .newline :: rest => lost gap.newline rest
  | gap, .joined :: rest => gap.lost + lost (.joined 0) rest

/-- A removed break is followed by no blank. -/
def Flush (piece next : Piece α) : Prop := piece = .joined → ∀ x, next ≠ .blank x

/-- What is folded after a gap: no blank follows a removed break. -/
structure Follows (gap : Gap α) (pieces : List (Piece α)) : Prop where
  front : gap = .joined 0 → ∀ x, pieces.head? ≠ some (.blank x)
  flush : pieces.IsChain Flush

section

variable {space lf : α} {gap : Gap α} {piece : Piece α} {pieces : List (Piece α)}

theorem Gap.settle_newline (gap : Gap α) : gap.newline.settle = gap.settle.newline := by
  cases gap with
  | blanks held => rfl
  | breaks more => rfl
  | joined count => cases count <;> rfl

theorem Gap.settle_blank (notJoined : gap ≠ .joined 0) (x : α) :
    (gap.blank x).settle = gap.settle.blank x := by
  cases gap with
  | blanks held => rfl
  | breaks more => rfl
  | joined count =>
      cases count with
      | zero => exact absurd rfl notJoined
      | succ count => rfl

theorem Gap.newline_joined (gap : Gap α) : gap.newline ≠ .joined 0 := by
  cases gap <;> intro same <;> cases same

theorem Gap.lost_newline (gap : Gap α) :
    gap.newline.lost = 0 ↔ gap.lost = 0 ∧ gap ≠ .joined 0 := by
  cases gap with
  | blanks held => simp
  | breaks more => simp
  | joined count => cases count <;> simp

theorem Gap.lost_blank (gap : Gap α) (x : α) : (gap.blank x).lost = gap.lost := by
  cases gap <;> rfl

/-- A gap that loses nothing reads the same. -/
theorem Gap.settle_text (whole : gap.lost = 0) : gap.settle.text space lf = gap.text space lf := by
  cases gap with
  | blanks held => rfl
  | breaks more => rfl
  | joined count =>
      cases count with
      | zero => rfl
      | succ count => cases whole

namespace Follows

theorem notJoined {x : α} (follows : Follows gap (.blank x :: pieces)) : gap ≠ .joined 0 :=
  fun joined => follows.front joined x rfl

theorem solid {content : List α} (follows : Follows gap (.solid content :: pieces)) :
    Follows (.blanks []) pieces where
  front joined := by cases joined
  flush := follows.flush.tail

theorem blank {x : α} (follows : Follows gap (.blank x :: pieces)) :
    Follows (gap.blank x) pieces where
  front joined := by
    cases gap with
    | blanks held => cases joined
    | breaks more => cases joined
    | joined count => exact absurd joined follows.notJoined
  flush := follows.flush.tail

theorem newline (follows : Follows gap (.newline :: pieces)) : Follows gap.newline pieces where
  front joined := absurd joined gap.newline_joined
  flush := follows.flush.tail

theorem joined (follows : Follows gap (.joined :: pieces)) : Follows (.joined 0) pieces where
  front _ x isBlank := (List.isChain_cons.mp follows.flush).1 _ isBlank rfl x rfl
  flush := follows.flush.tail

/-- Folding that loses nothing. -/
theorem settle_eq (follows : Follows gap pieces) (whole : lost gap pieces = 0) :
    foldGap space lf gap.settle (pieces.map Piece.settle) = foldGap space lf gap pieces := by
  induction pieces generalizing gap with
  | nil => exact Gap.settle_text whole
  | cons piece pieces ih =>
      cases piece with
      | solid content =>
          obtain ⟨here, later⟩ := Nat.add_eq_zero_iff.mp whole
          rw [List.map_cons, Piece.settle, foldGap, foldGap, Gap.settle_text here,
            ← ih follows.solid later]
          rfl
      | blank x =>
          rw [List.map_cons, Piece.settle, foldGap, foldGap, ← ih follows.blank whole,
            Gap.settle_blank follows.notJoined]
      | newline =>
          rw [List.map_cons, Piece.settle, foldGap, foldGap, ← ih follows.newline whole,
            Gap.settle_newline]
      | joined =>
          obtain ⟨here, later⟩ := Nat.add_eq_zero_iff.mp whole
          rw [List.map_cons, Piece.settle, foldGap, foldGap, Gap.settle_text here,
            ← ih follows.joined later, List.append_nil]
          rfl

/-- Nothing is lost where no break follows a removed one. -/
theorem lost_eq_zero (follows : Follows gap pieces) :
    lost gap pieces = 0 ↔ gap.lost = 0 ∧ (gap = .joined 0 → pieces.head? ≠ some .newline) ∧
      ¬[.joined, .newline] <:+: pieces := by
  have skip {piece : Piece α} (pieces : List (Piece α)) (other : piece ≠ .joined) :
      [.joined, .newline] <:+: piece :: pieces ↔ [.joined, .newline] <:+: pieces := by
    rw [List.infix_cons_iff, List.cons_prefix_cons]
    exact ⟨fun either => either.resolve_left fun both => other both.1.symm, .inr⟩
  induction pieces generalizing gap with
  | nil => simp
  | cons piece pieces ih =>
      cases piece with
      | solid content =>
          have rest := ih follows.solid
          have other := skip pieces (show (.solid content : Piece α) ≠ .joined by simp)
          simp [rest, other]
      | blank x =>
          have rest := ih follows.blank
          have joined := follows.notJoined
          have joined' : gap.blank x ≠ .joined 0 := by
            cases gap with
            | blanks held => simp
            | breaks more => simp
            | joined count => exact joined
          have other := skip pieces (show Piece.blank x ≠ .joined by simp)
          simp only [lost, rest, other, gap.lost_blank, joined, joined', IsEmpty.forall_iff,
            true_and]
      | newline =>
          have rest := ih follows.newline
          have joined := gap.newline_joined
          have other := skip pieces (show (.newline : Piece α) ≠ .joined by simp)
          have front : (Piece.newline :: pieces).head? = some .newline := rfl
          simp only [lost, rest, other, gap.lost_newline, joined, front, and_assoc,
            IsEmpty.forall_iff, true_and, not_true, imp_false, ne_eq]
      | joined =>
          have rest := ih follows.joined
          have front : [.newline] <+: pieces ↔ pieces.head? = some .newline := by
            cases pieces with
            | nil => simp
            | cons next rest => simp [List.cons_prefix_cons, eq_comm]
          simp [rest, List.infix_cons_iff, List.cons_prefix_cons, front]

variable [DecidableEq α]

/-- The line feeds of a folded text, and those that are lost. -/
theorem count_eq (apart : space ≠ lf) (follows : Follows gap pieces) :
    (foldGap space lf gap pieces).count lf =
      (foldGap space lf gap.settle (pieces.map Piece.settle)).count lf + lost gap pieces := by
  have text (gap : Gap α) :
      (gap.text space lf).count lf = (gap.settle.text space lf).count lf + gap.lost := by
    cases gap with
    | blanks held => rfl
    | breaks more => rfl
    | joined count =>
        cases count with
        | zero => rfl
        | succ count =>
            cases count with
            | zero => simp [List.count_eq_zero, apart.symm]
            | succ count => simp
  induction pieces generalizing gap with
  | nil => exact text gap
  | cons piece pieces ih =>
      cases piece with
      | solid content =>
          have rest := ih follows.solid
          have here := text gap
          rw [List.map_cons, Piece.settle, foldGap, foldGap, lost, List.count_append,
            List.count_append, List.count_append, List.count_append, rest, here, Gap.settle]
          omega
      | blank x =>
          have rest := ih follows.blank
          rw [List.map_cons, Piece.settle, foldGap, foldGap, lost, rest,
            Gap.settle_blank follows.notJoined]
      | newline =>
          have rest := ih follows.newline
          rw [List.map_cons, Piece.settle, foldGap, foldGap, lost, rest, Gap.settle_newline]
      | joined =>
          have rest := ih follows.joined
          have here := text gap
          rw [List.map_cons, Piece.settle, foldGap, foldGap, lost, List.count_append,
            List.count_append, List.append_nil, rest, here, Gap.settle]
          omega

/-- Removed breaks read as empty content just where no break follows one. -/
theorem fold_settle (apart : space ≠ lf) (flush : pieces.IsChain Flush) :
    fold space lf (pieces.map Piece.settle) = fold space lf pieces ↔
      ¬[.joined, .newline] <:+: pieces := by
  have follows : Follows (.blanks []) pieces := ⟨fun joined => (by cases joined), flush⟩
  have whole : lost (.blanks []) pieces = 0 ↔ ¬[.joined, .newline] <:+: pieces := by
    rw [follows.lost_eq_zero]
    simp
  rw [← whole]
  constructor
  · intro same
    have count := follows.count_eq apart
    rw [← fold, ← same] at count
    exact Nat.left_eq_add.mp count
  · exact fun whole => follows.settle_eq whole

end Follows

end

end Folding

end Oyl
