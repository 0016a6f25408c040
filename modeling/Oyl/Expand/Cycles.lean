import Oyl.Expand.Resolve
import Oyl.Logic.Reachability

/-!
# The cycle search

The depth-first search of `resolve_aliases` stops as soon as it finds a cycle
and leaves the nodes of its path gray.  It still marks exactly the entries
that can reach a cycle: later searches stop at those gray nodes too.
-/

namespace Oyl

open Relation

/-- One entry refers to another. -/
def Targets (targets : Nat → List Nat) (i k : Nat) : Prop := k ∈ targets i

def colourAt (colours : List Colour) (i : Nat) : Colour := colours.getD i .white

/-- Entries the search has not met. -/
def whiteCount (colours : List Colour) : Nat := colours.count .white

/-- What a search of entry `idx` may start from: black entries reach no cycle,
gray ones reach one or lead to `idx`. -/
structure Searchable (targets : Nat → List Nat) (idx : Nat) (colours : List Colour) :
    Prop where
  inside : ∀ i, ∀ k ∈ targets i, k < colours.length
  black : ∀ i, colourAt colours i = .black → ¬ ReachesCycle (Targets targets) i
  gray : ∀ i, colourAt colours i = .gray →
    ReachesCycle (Targets targets) i ∨ ReflTransGen (Targets targets) i idx

/-- What a search leaves: colours given stay, and if it found a cycle every
gray entry reaches one, else there is no new gray entry. -/
structure Searched (targets : Nat → List Nat) (before : List Colour)
    (result : Bool × List Colour) : Prop where
  length : result.2.length = before.length
  kept : ∀ i, colourAt before i ≠ .white → colourAt result.2 i = colourAt before i
  black : ∀ i, colourAt result.2 i = .black → ¬ ReachesCycle (Targets targets) i
  grayFound : result.1 = true →
    ∀ i, colourAt result.2 i = .gray → ReachesCycle (Targets targets) i
  grayNew : result.1 = false →
    ∀ i, colourAt result.2 i = .gray → colourAt before i = .gray

theorem colourAt_set {colours : List Colour} {idx i : Nat} {c : Colour}
    (inside : idx < colours.length) :
    colourAt (colours.set idx c) i = if i = idx then c else colourAt colours i := by
  by_cases same : i = idx
  · subst same
    simp [colourAt, inside]
  · have different : idx ≠ i := fun h => same h.symm
    simp [colourAt, List.getD_eq_getElem?_getD, List.getElem?_set_ne different, same]

theorem whiteCount_set {colours : List Colour} {idx : Nat} {c : Colour}
    (inside : idx < colours.length) (white : colourAt colours idx = .white)
    (coloured : c ≠ .white) : whiteCount (colours.set idx c) + 1 = whiteCount colours := by
  have here : colours[idx] = .white := by simpa [colourAt, inside] using white
  have positive : 0 < colours.count .white :=
    List.count_pos_iff.mpr (here ▸ List.getElem_mem inside)
  simp [whiteCount, List.count_set inside, here, coloured]
  omega

/-- Colouring more entries leaves fewer white ones. -/
theorem whiteCount_le {before after : List Colour} (length : after.length = before.length)
    (kept : ∀ i, colourAt before i ≠ .white → colourAt after i = colourAt before i) :
    whiteCount after ≤ whiteCount before := by
  induction before generalizing after with
  | nil => simp [List.length_eq_zero_iff.mp length]
  | cons b before ih =>
      obtain ⟨a, after, rfl⟩ := List.exists_cons_of_length_eq_add_one length
      have tail := ih (by simpa using length) fun i => by
        simpa [colourAt] using kept (i + 1)
      have first := kept 0
      simp only [colourAt, List.getD_cons_zero] at first
      simp only [whiteCount, List.count_cons] at tail ⊢
      by_cases white : b = .white
      · simp only [white, beq_self_eq_true, if_true]
        split <;> omega
      · simp [first white, white, tail]

/-- The visits of a search: what it does from a white entry. -/
def Visits (targets : Nat → List Nat) (bound : Nat)
    (visit : Nat → List Colour → Bool × List Colour) : Prop :=
  ∀ k colours, k < colours.length → colourAt colours k = .white →
    whiteCount colours ≤ bound → Searchable targets k colours →
    Searched targets colours (visit k colours) ∧
      colourAt (visit k colours).2 k ≠ .white ∧
      ((visit k colours).1 = false → colourAt (visit k colours).2 k = .black)

/-- The loop over the targets of `idx`: unless a cycle is found, all of them
are black in the end. -/
theorem visitTargets_searched {targets : Nat → List Nat} {bound idx : Nat}
    {visit : Nat → List Colour → Bool × List Colour} (visits : Visits targets bound visit)
    (rest : List Nat) (colours : List Colour)
    (edges : ∀ k ∈ rest, Targets targets idx k)
    (few : whiteCount colours ≤ bound) (searchable : Searchable targets idx colours) :
    Searched targets colours (visitTargets visit rest colours) ∧
      ((visitTargets visit rest colours).1 = false →
        ∀ k ∈ rest, colourAt (visitTargets visit rest colours).2 k = .black) := by
  induction rest generalizing colours with
  | nil =>
      exact ⟨⟨rfl, fun _ _ => rfl, searchable.black, by simp [visitTargets],
        fun _ _ gray => gray⟩, by simp⟩
  | cons k rest ih =>
      have edge := edges k (by simp)
      have edges' : ∀ j ∈ rest, Targets targets idx j := fun j member =>
        edges j (by simp [member])
      simp only [visitTargets]
      cases colour : colourAt colours k with
      | gray =>
          -- the target is on the path, or on an earlier path to a cycle
          have back : ReachesCycle (Targets targets) idx :=
            (searchable.gray k colour).elim (.of_edge edge) (.of_back edge)
          rw [colourAt] at colour
          simp only [colour]
          refine ⟨⟨rfl, fun _ _ => rfl, searchable.black, fun _ i gray => ?_, by simp⟩,
            by simp⟩
          exact (searchable.gray i gray).elim id (.of_path · back)
      | black =>
          obtain ⟨searched, blackened⟩ := ih colours edges' few searchable
          have kept := searched.kept k (by simp [colour])
          have here := colour
          rw [colourAt] at here
          simp only [here]
          refine ⟨searched, fun notFound j member => ?_⟩
          rcases List.mem_cons.mp member with rfl | later
          · rw [kept, colour]
          · exact blackened notFound j later
      | white =>
          have inside : k < colours.length := searchable.inside idx k edge
          obtain ⟨searched, met, blackened⟩ := visits k colours inside colour few
            ⟨searchable.inside, searchable.black, fun i gray =>
              (searchable.gray i gray).imp id (·.tail edge)⟩
          have here := colour
          rw [colourAt] at here
          simp only [here]
          cases found : (visit k colours).1 with
          | true =>
              refine ⟨⟨searched.length, searched.kept, searched.black,
                fun _ => searched.grayFound found, by simp⟩, by simp⟩
          | false =>
              have grayOld := searched.grayNew found
              obtain ⟨others, blackOthers⟩ := ih (visit k colours).2 edges'
                ((whiteCount_le searched.length searched.kept).trans few)
                ⟨fun i j member => searched.length ▸ searchable.inside i j member,
                  searched.black, fun i gray => searchable.gray i (grayOld i gray)⟩
              have stays := others.kept k met
              simp only [Bool.false_eq_true, if_false]
              refine ⟨⟨others.length.trans searched.length, fun i coloured => ?_,
                others.black, others.grayFound, fun notFound i gray =>
                  grayOld i (others.grayNew notFound i gray)⟩,
                fun notFound j member => ?_⟩
              · have same := searched.kept i coloured
                rw [others.kept i (by rw [same]; exact coloured), same]
              · rcases List.mem_cons.mp member with rfl | later
                · rw [stays, blackened found]
                · exact blackOthers notFound j later

/-- `alias_has_cycle` searches from a white entry. -/
theorem aliasHasCycle_visits (targets : Nat → List Nat) (fuel : Nat) :
    Visits targets fuel (aliasHasCycle targets fuel) := by
  induction fuel with
  | zero =>
      intro k colours inside white few searchable
      have here : colours[k] = .white := by simpa [colourAt, inside] using white
      have positive : 0 < colours.count .white :=
        List.count_pos_iff.mpr (here ▸ List.getElem_mem inside)
      rw [whiteCount] at few
      omega
  | succ fuel ih =>
      intro k colours inside white few searchable
      have grayAt (i : Nat) : colourAt (colours.set k .gray) i =
          if i = k then .gray else colourAt colours i := colourAt_set inside
      have counted := whiteCount_set (c := .gray) inside white (by simp)
      have searchable' : Searchable targets k (colours.set k .gray) := by
        refine ⟨by simpa using searchable.inside, fun i black => ?_, fun i gray => ?_⟩
        · rw [grayAt] at black
          split at black
          · simp at black
          · exact searchable.black i black
        · rw [grayAt] at gray
          split at gray
          · rename_i same
            exact .inr (same ▸ .refl)
          · exact searchable.gray i gray
      obtain ⟨searched, blackened⟩ := visitTargets_searched ih (targets k)
        (colours.set k .gray) (fun _ member => member) (by omega) searchable'
      have kept (i : Nat) (coloured : colourAt colours i ≠ .white) :
          colourAt (visitTargets (aliasHasCycle targets fuel) (targets k)
            (colours.set k .gray)).2 i = colourAt colours i := by
        have other : i ≠ k := fun same => coloured (same ▸ white)
        have same := grayAt i
        rw [if_neg other] at same
        rw [searched.kept i (by rw [same]; exact coloured), same]
      have length := searched.length.trans (List.length_set ..)
      have grayHere := searched.kept k (by simp [grayAt])
      simp only [grayAt, if_true] at grayHere
      simp only [aliasHasCycle]
      cases found : (visitTargets (aliasHasCycle targets fuel) (targets k)
          (colours.set k .gray)).1 with
      | true =>
          exact ⟨⟨length, kept, searched.black, fun _ => searched.grayFound found, by simp⟩,
            by simp [grayHere], by simp⟩
      | false =>
          have inside' := length ▸ inside
          have acyclic : ¬ ReachesCycle (Targets targets) k := by
            intro reaches
            obtain ⟨j, edge, reaches⟩ := reaches.successor
            exact searched.black j (blackened found j edge) reaches
          simp only [Bool.false_eq_true, if_false]
          refine ⟨⟨by simpa using length, fun i coloured => ?_, fun i black => ?_,
            by simp, fun _ i gray => ?_⟩, ?_, ?_⟩
          · have other : i ≠ k := fun same => coloured (same ▸ white)
            rw [colourAt_set inside', if_neg other, kept i coloured]
          · rw [colourAt_set inside'] at black
            split at black
            · rename_i same
              exact same ▸ acyclic
            · exact searched.black i black
          · rw [colourAt_set inside'] at gray
            split at gray
            · simp at gray
            · rename_i other
              have old := searched.grayNew found i gray
              rwa [grayAt, if_neg other] at old
          · simp [colourAt_set inside']
          · simp [colourAt_set inside']

/-- Searches from every entry: in the end nothing is white, black entries
reach no cycle and gray ones reach one. -/
theorem searchAll_colours (targets : Nat → List Nat) (fuel : Nat) (todo : List Nat)
    (colours : List Colour)
    (inside : ∀ i, ∀ k ∈ targets i, k < colours.length)
    (todoInside : ∀ i ∈ todo, i < colours.length)
    (few : whiteCount colours ≤ fuel)
    (black : ∀ i, colourAt colours i = .black → ¬ ReachesCycle (Targets targets) i)
    (gray : ∀ i, colourAt colours i = .gray → ReachesCycle (Targets targets) i)
    (covered : ∀ i < colours.length, i ∈ todo ∨ colourAt colours i ≠ .white) :
    (searchAll targets fuel todo colours).length = colours.length ∧
      ∀ i < colours.length,
        colourAt (searchAll targets fuel todo colours) i = .gray ↔
          ReachesCycle (Targets targets) i := by
  induction todo generalizing colours with
  | nil =>
      refine ⟨rfl, fun i within => ⟨gray i, fun reaches => ?_⟩⟩
      simp only [searchAll]
      cases colour : colourAt colours i with
      | white => exact absurd colour (by simpa using covered i within)
      | gray => rfl
      | black => exact absurd reaches (black i colour)
  | cons idx todo ih =>
      have within := todoInside idx (by simp)
      have todoInside' : ∀ i ∈ todo, i < colours.length := fun i member =>
        todoInside i (by simp [member])
      rw [searchAll]
      by_cases white : colourAt colours idx = .white
      · obtain ⟨searched, met, blackened⟩ := aliasHasCycle_visits targets fuel idx colours
          within white few ⟨inside, black, fun i h => .inl (gray i h)⟩
        have grayAfter : ∀ i, colourAt (aliasHasCycle targets fuel idx colours).2 i = .gray →
            ReachesCycle (Targets targets) i := by
          cases found : (aliasHasCycle targets fuel idx colours).1 with
          | true => exact searched.grayFound found
          | false => exact fun i h => gray i (searched.grayNew found i h)
        have rest := ih (aliasHasCycle targets fuel idx colours).2
          (fun i k member => searched.length ▸ inside i k member)
          (fun i member => searched.length ▸ todoInside' i member)
          ((whiteCount_le searched.length searched.kept).trans few)
          searched.black grayAfter fun i bound => ?_
        · rw [if_pos (by simpa [colourAt] using white)]
          rwa [searched.length] at rest
        · rcases covered i (searched.length ▸ bound) with member | coloured
          · rcases List.mem_cons.mp member with rfl | later
            · exact .inr met
            · exact .inl later
          · exact .inr (by rw [searched.kept i coloured]; exact coloured)
      · have rest := ih colours inside todoInside' few black gray fun i bound => ?_
        · rwa [if_neg (by simpa [colourAt] using white)]
        · rcases covered i bound with member | coloured
          · rcases List.mem_cons.mp member with rfl | later
            · exact .inr white
            · exact .inl later
          · exact .inr coloured

/-- The flags mark exactly the entries that can reach a cycle. -/
theorem cyclicFlags_iff {events : List Event} {anchors : List AnchorEntry}
    (inside : ∀ i, ∀ k ∈ aliasTargets events anchors i, k < anchors.length)
    {i : Nat} (within : i < anchors.length) :
    (cyclicFlags events anchors).getD i false = true ↔
      ReachesCycle (Targets (aliasTargets events anchors)) i := by
  have white (j : Nat) : colourAt (List.replicate anchors.length .white) j = .white := by
    simp only [colourAt, List.getD_eq_getElem?_getD, List.getElem?_replicate]
    split <;> rfl
  obtain ⟨length, colours⟩ := searchAll_colours (aliasTargets events anchors) anchors.length
    (List.range anchors.length) (List.replicate anchors.length .white)
    (by simpa using inside) (by simp) (by simp [whiteCount]) (by simp [white])
    (by simp [white]) (fun j bound => .inl (by simpa using bound))
  have here := colours i (by simpa using within)
  rw [← here]
  have bound : i < (searchAll (aliasTargets events anchors) anchors.length
      (List.range anchors.length) (List.replicate anchors.length .white)).length := by
    rw [length]
    simpa using within
  simp [cyclicFlags, colourAt, bound]

end Oyl
