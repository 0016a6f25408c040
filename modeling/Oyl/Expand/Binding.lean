import Oyl.Expand.Bind
import Oyl.Expand.MergeOrderly

/-!
# Bound documents

Binding gives every definition of a document a name of its own and keeps the
document's trees.
-/

namespace Oyl

/-- The trees of a document's events; the marks of a document have no anchor. -/
structure DocumentTrees (events : List Event) (trees : List (Tree Event)) : Prop where
  forest : Forest events trees
  marks : ∀ evt ∈ events, evt.type = .docStart → evt.anchorName = none

/-! ### Internal names -/

theorem decimal_inj {m n : Nat} (same : decimal m = decimal n) : m = n := by
  have digits (k : Nat) : ∀ c ∈ Nat.toDigits 10 k, c.isDigit = true :=
    fun c member => Nat.isDigit_of_mem_toDigits (by decide) (Nat.le_refl _) member
  have char {c : Char} (digit : c.isDigit = true) :
      Char.ofNat (UInt8.ofNat c.toNat).toNat = c := by
    have below : c.toNat < 256 := by
      simp only [Char.isDigit, Bool.and_eq_true, decide_eq_true_eq] at digit
      have := UInt32.le_iff_toNat_le.mp digit.2
      simp at this
      omega
    rw [UInt8.toNat_ofNat_of_lt' (by simpa [UInt8.size] using below), Char.ofNat_toNat]
  have back (k : Nat) : (decimal k).map (fun b => Char.ofNat b.toNat) = Nat.toDigits 10 k := by
    rw [decimal, List.map_map]
    exact List.map_congr_left (fun c member => char (digits k c member)) |>.trans (List.map_id _)
  rw [← Nat.ofDigitChars_ten_toDigits (n := m), ← Nat.ofDigitChars_ten_toDigits (n := n),
    ← back m, ← back n, same]

theorem decimal_not_nul {n : Nat} : ∀ c ∈ decimal n, (c != 0) = true := by
  intro c member
  obtain ⟨digit, among, rfl⟩ := List.mem_map.mp member
  have isDigit := Nat.isDigit_of_mem_toDigits (by decide) (Nat.le_refl _) among
  simp only [Char.isDigit, Bool.and_eq_true, decide_eq_true_eq] at isDigit
  have low := UInt32.le_iff_toNat_le.mp isDigit.1
  have high := UInt32.le_iff_toNat_le.mp isDigit.2
  rw [bne_iff_ne]
  intro nul
  have := congrArg UInt8.toNat nul
  rw [UInt8.toNat_ofNat] at this
  change digit.toNat % 2 ^ 8 = 0 at this
  simp at low high
  omega

/-- An internal name tells its serial number. -/
theorem boundName_serial {name other : Bytes} {m n : Nat}
    (same : boundName name m = boundName other n) : m = n := by
  have back (name : Bytes) (k : Nat) :
      (boundName name k).reverse.takeWhile (· != 0) = (decimal k).reverse := by
    rw [boundName, List.reverse_append, List.reverse_cons, List.append_assoc,
      List.takeWhile_append_of_pos fun c member => decimal_not_nul c (List.mem_reverse.mp member)]
    simp
  apply decimal_inj
  rw [← List.reverse_inj, ← back name m, ← back other n, same]

theorem anchorName_boundName (evt : Event) (name : Bytes) (n : Nat) :
    ({ evt with anchor := some (boundName name n) } : Event).anchorName =
      some (boundName name n) := by
  cases name <;> rfl

theorem bindAlias_anchor (st : BindState) (evt : Event) :
    (bindAlias st evt).anchor = evt.anchor ∧ (bindAlias st evt).type = evt.type := by
  unfold bindAlias
  split
  · split <;> exact ⟨rfl, rfl⟩
  · exact ⟨rfl, rfl⟩

/-! ### Names -/

/-- What binding does with the names of anchors. -/
theorem bindEvents_names (st : BindState) (events : List Event)
    (marks : ∀ evt ∈ events, evt.type = .docStart → evt.anchorName = none) :
    ((bindEvents st events).1.filterMap Event.anchorName).Nodup ∧
      ∀ bound ∈ (bindEvents st events).1.filterMap Event.anchorName,
        ∃ name n, st.names.length ≤ n ∧ bound = boundName name n := by
  induction events generalizing st with
  | nil => exact ⟨List.nodup_nil, fun _ member => nomatch member⟩
  | cons evt rest ih =>
      have inner := ih (bindEvent st evt).2
        fun evt' member => marks evt' (List.mem_cons_of_mem _ member)
      have split : bindEvents st (evt :: rest) =
          ((bindEvent st evt).1 :: (bindEvents (bindEvent st evt).2 rest).1,
            (bindEvents (bindEvent st evt).2 rest).2) := rfl
      rw [split]
      dsimp only
      generalize (bindEvents (bindEvent st evt).2 rest).1 = later at inner ⊢
      have anchorName {evt evt' : Event} (same : evt'.anchor = evt.anchor) :
          evt'.anchorName = evt.anchorName := by
        rw [Event.anchorName, same, Event.anchorName]
      by_cases isMark : evt.type = .docStart
      · have step : bindEvent st evt = (evt, { st with slots := [] }) := by
          rw [bindEvent, if_pos (beq_iff_eq.mpr isMark)]
        rw [step] at inner ⊢
        rw [List.filterMap_cons, marks evt List.mem_cons_self isMark]
        exact inner
      have step : bindEvent st evt =
          (bindAlias (bindAnchor st evt).2 (bindAnchor st evt).1, (bindAnchor st evt).2) := by
        rw [bindEvent, if_neg (by simpa using isMark)]
      rw [step] at inner ⊢
      rw [List.filterMap_cons, anchorName (bindAlias_anchor _ _).1]
      cases named : evt.anchorName with
      | none =>
          have same : bindAnchor st evt = (evt, st) := by rw [bindAnchor, named]
          rw [same] at inner ⊢
          rw [named]
          exact inner
      | some name =>
          have fresh : bindAnchor st evt =
              ({ evt with anchor := some (boundName name st.names.length) },
                { slots := (name, boundName name st.names.length) :: st.slots
                  names := st.names ++ [name] }) := by rw [bindAnchor, named]
          rw [fresh] at inner ⊢
          rw [anchorName_boundName]
          obtain ⟨distinct, serials⟩ := inner
          dsimp only at serials
          rw [List.length_append, List.length_singleton] at serials
          refine ⟨List.nodup_cons.mpr ⟨fun member => ?_, distinct⟩, fun bound member => ?_⟩
          · obtain ⟨other, n, later, same⟩ := serials _ member
            have := boundName_serial same
            omega
          · rcases List.mem_cons.mp member with rfl | member
            · exact ⟨name, _, Nat.le_refl _, rfl⟩
            · obtain ⟨other, n, later, same⟩ := serials bound member
              exact ⟨other, n, by omega, same⟩

/-! ### Trees -/

/-- An event and its bound form. -/
structure Rebinds (evt evt' : Event) : Prop where
  type : evt'.type = evt.type
  bare : evt.anchor = none → evt'.anchor = none

theorem bindEvent_rebinds (st : BindState) (evt : Event) : Rebinds evt (bindEvent st evt).1 := by
  unfold bindEvent
  split
  · exact ⟨rfl, id⟩
  · dsimp only
    obtain ⟨anchor, type⟩ := bindAlias_anchor (bindAnchor st evt).2 (bindAnchor st evt).1
    cases named : evt.anchorName with
    | none =>
        have same : bindAnchor st evt = (evt, st) := by rw [bindAnchor, named]
        rw [same] at anchor type ⊢
        exact ⟨type, fun bare => anchor.trans bare⟩
    | some name =>
        have fresh : (bindAnchor st evt).1.type = evt.type := by rw [bindAnchor, named]
        refine ⟨type.trans fresh, fun bare => ?_⟩
        rw [anchorName_of_anchor bare] at named
        cases named

theorem bindEvents_rebinds (st : BindState) (events : List Event) :
    List.Forall₂ Rebinds events (bindEvents st events).1 := by
  induction events generalizing st with
  | nil => exact .nil
  | cons evt rest ih => exact .cons (bindEvent_rebinds st evt) (ih (bindEvent st evt).2)

theorem EventLeaf.rebinds {evt evt' : Event} (leaf : EventLeaf evt) (rebinds : Rebinds evt evt') :
    EventLeaf evt' := by
  refine ⟨rebinds.type ▸ leaf.opens, rebinds.type ▸ leaf.closes, fun isAlias => ?_⟩
  exact rebinds.bare (leaf.bare (rebinds.type ▸ isAlias))

theorem EventPair.rebinds {start start' stop stop' : Event} (pair : EventPair start stop)
    (first : Rebinds start start') (last : Rebinds stop stop') : EventPair start' stop' := by
  refine ⟨first.type ▸ pair.opens, ?_, last.bare pair.anchor⟩
  rw [last.type, first.type]
  exact pair.closes

theorem forall₂_append_left {α β : Type} {R : α → β → Prop} {left right : List α} {out : List β}
    (related : List.Forall₂ R (left ++ right) out) :
    ∃ first last, out = first ++ last ∧ List.Forall₂ R left first ∧ List.Forall₂ R right last := by
  induction left generalizing out with
  | nil => exact ⟨[], out, rfl, .nil, related⟩
  | cons a left ih =>
      obtain ⟨b, rest, one, more, rfl⟩ := List.forall₂_cons_left_iff.mp related
      obtain ⟨first, last, rfl, before, after⟩ := ih more
      exact ⟨b :: first, last, rfl, .cons one before, after⟩

mutual

/-- The bound form of a tree's events is a tree. -/
theorem rebinds_tree {leafOk : Event → Prop}
    (keeps : ∀ evt evt', leafOk evt → Rebinds evt evt' → leafOk evt') (tree : Tree Event)
    (shaped : tree.Shaped leafOk EventPair) (paired : tree.Paired) {out : List Event}
    (rebinds : List.Forall₂ Rebinds tree.flatten out) :
    ∃ tree' : Tree Event, out = tree'.flatten ∧ tree'.Shaped leafOk EventPair ∧ tree'.Paired := by
  cases tree with
  | leaf evt =>
      obtain ⟨evt', rest, one, none, rfl⟩ := List.forall₂_cons_left_iff.mp rebinds
      obtain rfl := List.forall₂_nil_left_iff.mp none
      exact ⟨.leaf evt', rfl, keeps evt evt' shaped one, trivial⟩
  | node start children stop =>
      obtain ⟨start', rest, first, more, rfl⟩ := List.forall₂_cons_left_iff.mp rebinds
      obtain ⟨inner, ending, rfl, within, closes⟩ := forall₂_append_left more
      obtain ⟨stop', rest, last, none, rfl⟩ := List.forall₂_cons_left_iff.mp closes
      obtain rfl := List.forall₂_nil_left_iff.mp none
      obtain ⟨children', rfl, shaped', paired', length⟩ :=
        rebinds_trees keeps children shaped.2 paired.2 within
      have pair : EventPair start stop := shaped.1
      refine ⟨.node start' children' stop', rfl, ⟨pair.rebinds first last, shaped'⟩, ?_, paired'⟩
      intro isMap
      rw [length]
      exact paired.1 (first.type ▸ isMap)

theorem rebinds_trees {leafOk : Event → Prop}
    (keeps : ∀ evt evt', leafOk evt → Rebinds evt evt' → leafOk evt')
    (trees : List (Tree Event)) (shaped : Tree.ShapedList leafOk EventPair trees)
    (paired : Tree.PairedList trees) {out : List Event}
    (rebinds : List.Forall₂ Rebinds (Tree.flattenList trees) out) :
    ∃ trees', out = Tree.flattenList trees' ∧ Tree.ShapedList leafOk EventPair trees' ∧
      Tree.PairedList trees' ∧ trees'.length = trees.length := by
  cases trees with
  | nil =>
      obtain rfl := List.forall₂_nil_left_iff.mp rebinds
      exact ⟨[], rfl, trivial, trivial, rfl⟩
  | cons tree trees =>
      obtain ⟨first, rest, rfl, one, more⟩ := forall₂_append_left rebinds
      obtain ⟨tree', rfl, shapedTree, pairedTree⟩ :=
        rebinds_tree keeps tree shaped.1 paired.1 one
      obtain ⟨trees', rfl, shapedTrees, pairedTrees, length⟩ :=
        rebinds_trees keeps trees shaped.2 paired.2 more
      exact ⟨tree' :: trees', rfl, ⟨shapedTree, shapedTrees⟩, ⟨pairedTree, pairedTrees⟩,
        congrArg (· + 1) length⟩

end

/-- A bound document: its trees, with distinct definitions. -/
structure BoundTrees (events : List Event) (trees : List (Tree Event)) : Prop where
  forest : Forest events trees
  distinct : ((anchoredTrees trees).map (·.1)).Nodup

theorem Parser.bindAnchors_evtLen (p : Parser) : p.bindAnchors.evtLen = p.evtLen := by
  unfold Parser.bindAnchors
  split
  · rfl
  · exact (bindEvents_rebinds {} p.events).length_eq.symm

/-- `bind_anchors` -/
theorem Parser.bindAnchors_bound {p : Parser} {trees : List (Tree Event)}
    (document : DocumentTrees p.events trees) :
    ∃ trees', BoundTrees p.bindAnchors.events trees' := by
  have distinct {events : List Event} {trees : List (Tree Event)} (forest : Forest events trees)
      (names : (events.filterMap Event.anchorName).Nodup) : BoundTrees events trees := by
    refine ⟨forest, ?_⟩
    rw [anchored_namesList trees forest.shaped, ← forest.flat]
    exact names
  unfold Parser.bindAnchors
  split
  · rename_i none
    refine ⟨trees, distinct document.forest ?_⟩
    have noNames : p.events.filterMap Event.anchorName = [] := by
      rw [List.filterMap_eq_nil_iff]
      intro evt member
      simpa using List.all_eq_true.mp none evt member
    rw [noNames]
    exact List.nodup_nil
  · have rebinds := bindEvents_rebinds {} p.events
    have names := (bindEvents_names {} p.events document.marks).1
    generalize bindEvents {} p.events = bound at rebinds names
    obtain ⟨events, st⟩ := bound
    obtain ⟨trees', flat, shaped, paired, _⟩ := rebinds_trees
      (fun _ _ leaf rebinds => EventLeaf.rebinds leaf rebinds) trees document.forest.shaped
      document.forest.paired (document.forest.flat ▸ rebinds)
    exact ⟨trees', distinct ⟨flat, shaped, paired⟩ names⟩

end Oyl
