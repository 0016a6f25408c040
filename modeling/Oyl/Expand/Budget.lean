import Oyl.Expand.Binding
import Oyl.Expand.Buffers
import Oyl.Expand.Resolution
import Oyl.Parser.Driver

/-!
# The budget of an expansion

Each stage of an expansion takes its budget from the list it starts with.  With
one stage that is the unexpanded list; alias resolution after merging has the
budget of the merged list.
-/

namespace Oyl

open StateError

/-- The expansion stages of `expandDocument`, on a bound document. -/
def expandBound : ParseM Unit := do
  let p ← get
  if p.mergeEnabled then resolveMerges
  if p.resolveEnabled then resolveAliases

/-- The documented bound on the expanded list. -/
def documentedBound (unexpanded : Nat) : Nat := 16 * unexpanded + 100000

/-- The bound and merged trees unfold to more than the documented bound, and to no
more than the budget that alias resolution takes from them. -/
structure Overruns (p : Parser) : Prop where
  merging : p.mergeEnabled = true
  resolving : p.resolveEnabled = true
  overrun : ∃ trees merged out, BoundTrees p.bindAnchors.events trees ∧
    expandMerges maxMergePasses trees = some merged ∧
    FitsPasses (p.expansionLimit p.evtLen) maxMergePasses trees ∧
    Unfolds (Tree.flattenList merged) (Tree.flattenList merged) out ∧
    documentedBound p.evtLen < out.length ∧
    (out.length : Int) ≤ p.expansionLimit (Tree.flattenList merged).length

section

variable {p p' : Parser} {trees merged : List (Tree Event)} {limit : Int}

theorem expansionLimit_le (unlimited : p.maxEvents ≤ 0) (n : Nat) :
    p.expansionLimit n ≤ documentedBound n ∧ p.expansionLimit n ≤ intMax / 2 := by
  unfold Parser.expansionLimit documentedBound
  rw [if_neg (by omega)]
  dsimp only
  split <;> omega

/-- Merging keeps the names of definitions distinct. -/
theorem expandMerges_keeps {n : Nat} {events : List Event} (forest : Forest events trees)
    (distinct : ((anchoredTrees trees).map (·.1)).Nodup)
    (expanded : expandMerges n trees = some merged) :
    EventTrees merged ∧ ((anchoredTrees merged).map (·.1)).Nodup := by
  induction n generalizing events trees with
  | zero =>
      cases expanded
      exact ⟨forest.shaped, distinct⟩
  | succ n ih =>
      obtain ⟨next, passed, rest⟩ := Option.bind_eq_some_iff.mp expanded
      split at rest
      · exact ih (forest.passTrees passed) (distinct_pass forest passed distinct) rest
      · cases rest
        exact ⟨forest.shaped, distinct⟩

/-- Passes that fit the limit end within it, or change nothing. -/
theorem expandMerges_short {n : Nat} (expanded : expandMerges n trees = some merged)
    (fits : FitsPasses limit n trees) :
    merged = trees ∨ ((Tree.flattenList merged).length : Int) ≤ limit := by
  induction n generalizing trees with
  | zero =>
      cases expanded
      exact .inl rfl
  | succ n ih =>
      obtain ⟨next, passed, rest⟩ := Option.bind_eq_some_iff.mp expanded
      obtain ⟨short, later⟩ := fits next passed
      split at rest
      · rename_i merging
        rcases ih rest (later merging) with same | within
        · exact .inr (same ▸ short)
        · exact .inr within
      · cases rest
        exact .inl rfl

/-- `resolve_merges`, where it succeeds, stays within the documented bound. -/
theorem resolveMerges_within (unlimited : p.maxEvents ≤ 0) (forest : Forest p.events trees)
    (ok : resolveMerges p = .ok () p') :
    ∃ merged cursor, expandMerges maxMergePasses trees = some merged ∧
      FitsPasses (p.expansionLimit p.evtLen) maxMergePasses trees ∧
      p' = { p with events := Tree.flattenList merged, evtCursor := cursor } ∧
      ((Tree.flattenList merged).length ≤ documentedBound p.evtLen) ∧
      (p.evtLen < 2 ^ 31 → (Tree.flattenList merged).length < 2 ^ 31) := by
  obtain ⟨merged, cursor, expanded, isNext, _, fits⟩ := mergePasses_spec forest ok
  have fits := fits (expansionLimit_pos p p.evtLen)
  obtain ⟨documented, machine⟩ := expansionLimit_le unlimited p.evtLen
  refine ⟨merged, cursor, expanded, fits, isNext, ?_, ?_⟩
  · rcases expandMerges_short expanded fits with same | short
    · have length : (Tree.flattenList merged).length = p.evtLen := by
        rw [same, ← forest.flat]
        rfl
      rw [length, documentedBound]
      omega
    · omega
  · intro few
    rcases expandMerges_short expanded fits with same | short
    · rw [same, ← forest.flat]
      exact few
    · unfold intMax at machine
      omega

/-- The stages of an expansion, one after the other. -/
theorem expandBound_run (p : Parser) :
    expandBound p =
      match (if p.mergeEnabled then resolveMerges p else .ok () p) with
      | .ok _ q => if p.resolveEnabled then resolveAliases q else .ok () q
      | .error e q => .error e q := by
  rw [expandBound, run_bind_ok (run_get p)]
  cases p.mergeEnabled with
  | false => cases p.resolveEnabled <;> rfl
  | true =>
      rw [if_pos rfl, if_pos rfl, run_bind]
      cases resolveMerges p <;> cases p.resolveEnabled <;> rfl

/-- A bound document whose merged trees overrun is expanded all the same. -/
theorem expandBound_overruns (unlimited : p.maxEvents ≤ 0) (bound : BoundTrees p.events trees)
    (few : p.evtLen < 2 ^ 31) (merging : p.mergeEnabled = true)
    (resolving : p.resolveEnabled = true)
    (expanded : expandMerges maxMergePasses trees = some merged)
    (fits : FitsPasses (p.expansionLimit p.evtLen) maxMergePasses trees)
    (budget : ((unfoldedList merged).length : Int) ≤
      p.expansionLimit (Tree.flattenList merged).length) :
    ∃ cursor, expandBound p =
      .ok () { p with events := unfoldedList merged, evtCursor := cursor } := by
  obtain ⟨shaped, apart⟩ := expandMerges_keeps bound.forest bound.distinct expanded
  have machine (n : Nat) := (expansionLimit_le unlimited n).2
  obtain ⟨q, merges, events⟩ := mergePasses_fits bound.forest expanded
    (by rwa [Int.min_eq_left (machine p.evtLen)])
  obtain ⟨merged', cursor, expanded', _, isNext, _, fewer⟩ :=
    resolveMerges_within unlimited bound.forest merges
  obtain rfl : merged' = merged := Option.some.inj (expanded'.symm.trans expanded)
  subst isNext
  obtain ⟨cursor', resolves⟩ := resolveAliases_fits shaped apart events (fewer few)
    (Int.le_min.mpr ⟨budget, Int.le_trans budget (machine _)⟩)
  have ok := expandBound_run p
  rw [if_pos merging, show resolveMerges p = _ from merges] at ok
  dsimp only at ok
  rw [if_pos resolving, resolves] at ok
  exact ⟨_, ok⟩

/-- Without both stages an expansion stays within the documented bound; with both it
ends with the unfolding of the merged trees, within the budget taken from them. -/
theorem expandBound_within (unlimited : p.maxEvents ≤ 0) (bound : BoundTrees p.events trees)
    (few : p.evtLen < 2 ^ 31) (ok : expandBound p = .ok () p')
    (beyond : documentedBound p.evtLen < p'.evtLen) :
    p.mergeEnabled = true ∧ p.resolveEnabled = true ∧
      ∃ merged, expandMerges maxMergePasses trees = some merged ∧
        FitsPasses (p.expansionLimit p.evtLen) maxMergePasses trees ∧
        Unfolds (Tree.flattenList merged) (Tree.flattenList merged) p'.events ∧
        (p'.evtLen : Int) ≤ p.expansionLimit (Tree.flattenList merged).length := by
  have unchanged : p.evtLen ≤ documentedBound p.evtLen := by
    unfold documentedBound
    omega
  rw [expandBound_run] at ok
  cases merging : p.mergeEnabled with
  | false =>
      rw [merging] at ok
      cases resolving : p.resolveEnabled with
      | false =>
          rw [resolving] at ok
          cases ok
          exact absurd unchanged (Nat.not_le.mpr beyond)
      | true =>
          rw [resolving] at ok
          have ended := resolveAliases_ok bound.forest.shaped bound.distinct bound.forest.flat few
            (expansionLimit_pos p p.evtLen) ok
          have documented := (expansionLimit_le unlimited p.evtLen).1
          rcases ended.2 with same | short
          · have length : p'.evtLen = p.evtLen := congrArg List.length same
            exact absurd unchanged (Nat.not_le.mpr (length ▸ beyond))
          · exact absurd (Int.ofNat_le.mp (Int.le_trans short documented)) (Nat.not_le.mpr beyond)
  | true =>
      rw [merging] at ok
      cases merges : resolveMerges p with
      | error e q =>
          rw [if_pos rfl, merges] at ok
          cases ok
      | ok a q =>
          rw [if_pos rfl, merges] at ok
          obtain ⟨merged, cursor, expanded, fits, isNext, documented, machine⟩ :=
            resolveMerges_within unlimited bound.forest merges
          cases resolving : p.resolveEnabled with
          | false =>
              rw [resolving] at ok
              cases ok
              rw [isNext] at beyond
              exact absurd documented (Nat.not_le.mpr beyond)
          | true =>
              rw [resolving] at ok
              obtain ⟨shaped, apart⟩ := expandMerges_keeps bound.forest bound.distinct expanded
              have few' : q.events.length < 2 ^ 31 := by
                rw [isNext]
                exact machine few
              obtain ⟨ended, short⟩ := resolveAliases_ok shaped apart
                  (show q.events = _ by rw [isNext])
                few' (expansionLimit_pos q q.evtLen) ok
              refine ⟨rfl, rfl, merged, expanded, fits, ?_, ?_⟩
              · rw [ended]
                exact unfolds_unfoldedList shaped apart
              · rcases short with same | short
                · have length : p'.evtLen = (Tree.flattenList merged).length := by
                    rw [Parser.evtLen, same, isNext]
                  exact absurd documented (Nat.not_le.mpr (length ▸ beyond))
                · rw [isNext] at short
                  exact short

/-! ### Documents -/

theorem bindAnchors_eq (p : Parser) :
    ∃ events names, p.bindAnchors = { p with events := events, boundNames := names } := by
  unfold Parser.bindAnchors
  split
  · exact ⟨p.events, p.boundNames, rfl⟩
  · exact ⟨_, _, rfl⟩

theorem checkEagerDepth_ok (ok : checkEagerDepth p = .ok () p') : p' = p := by
  rw [checkEagerDepth, run_bind_ok (run_get p)] at ok
  split at ok
  · obtain ⟨_, _, _, failed⟩ := bind_eq_ok ok
    cases failed
  · cases ok
    rfl

theorem Parser.unbindAnchors_evtLen (p : Parser) : p.unbindAnchors.evtLen = p.evtLen := by
  unfold Parser.unbindAnchors
  split
  · rfl
  · exact List.length_map _

/-- An expansion binds the anchors, runs its stages and restores the names. -/
theorem expandDocument_run (expanding : (p.mergeEnabled || p.resolveEnabled) = true) :
    expandDocument p =
      match expandBound p.bindAnchors with
      | .ok _ q => checkEagerDepth q.unbindAnchors
      | .error e q => .error e q := by
  obtain ⟨events, names, same⟩ := bindAnchors_eq p
  have flags : p.bindAnchors.mergeEnabled = p.mergeEnabled ∧
      p.bindAnchors.resolveEnabled = p.resolveEnabled := by
    rw [same]
    exact ⟨rfl, rfl⟩
  rw [expandBound_run, flags.1, flags.2, expandDocument, run_bind_ok (run_get p), if_pos expanding,
    run_bind_ok (run_set p p.bindAnchors)]
  cases merging : p.mergeEnabled with
  | false =>
      have resolving : p.resolveEnabled = true := by
        rw [merging] at expanding
        exact expanding
      rw [resolving]
      simp only [Bool.false_eq_true, if_false, if_true, Bool.or_true, run_bind]
      cases resolveAliases p.bindAnchors <;> rfl
  | true =>
      simp only [if_true, Bool.true_or, run_bind]
      cases resolveMerges p.bindAnchors with
      | error e q => rfl
      | ok a q =>
          cases p.resolveEnabled with
          | false => rfl
          | true =>
              simp only [if_true, run_bind]
              cases resolveAliases q <;> rfl

/-- What is delivered for a document is what its stages left. -/
theorem expandDocument_delivers (ok : expandDocument p = .ok () p') :
    ∃ q, expandBound p.bindAnchors = .ok () q ∧ p'.evtLen = q.evtLen := by
  cases expanding : p.mergeEnabled || p.resolveEnabled with
  | false =>
      obtain ⟨events, names, same⟩ := bindAnchors_eq p
      have off := Bool.or_eq_false_iff.mp expanding
      refine ⟨p.bindAnchors, ?_, ?_⟩
      · rw [expandBound_run, same]
        simp [off.1, off.2]
      · rw [expandDocument, run_bind_ok (run_get p), expanding, off.1, off.2] at ok
        rw [checkEagerDepth_ok ok, p.bindAnchors_evtLen]
  | true =>
      rw [expandDocument_run expanding] at ok
      cases stages : expandBound p.bindAnchors with
      | error e q =>
          rw [stages] at ok
          cases ok
      | ok a q =>
          rw [stages] at ok
          refine ⟨q, rfl, ?_⟩
          rw [checkEagerDepth_ok ok, Parser.unbindAnchors_evtLen]

/-- The list held or delivered for a document stays within the documented bound,
unless alias resolution overruns it after merging. -/
theorem expandDocument_within_iff (p : Parser) (unlimited : p.maxEvents ≤ 0)
    (document : ∃ trees, DocumentTrees p.events trees) (few : p.evtLen < 2 ^ 31) :
    (∀ q, expandBound p.bindAnchors = .ok () q ∨ expandDocument p = .ok () q →
      q.evtLen ≤ documentedBound p.evtLen) ↔ ¬Overruns p := by
  obtain ⟨trees, document⟩ := document
  obtain ⟨bound, isBound⟩ := Parser.bindAnchors_bound document
  have length := p.bindAnchors_evtLen
  obtain ⟨events, names, same⟩ := bindAnchors_eq p
  have limit (n : Nat) : p.bindAnchors.expansionLimit n = p.expansionLimit n := by
    rw [same]
    rfl
  have maxEvents : p.bindAnchors.maxEvents ≤ 0 := by
    rw [same]
    exact unlimited
  have flags : p.bindAnchors.mergeEnabled = p.mergeEnabled ∧
      p.bindAnchors.resolveEnabled = p.resolveEnabled := by
    rw [same]
    exact ⟨rfl, rfl⟩
  constructor
  · rintro within ⟨merging, resolving, trees, merged, out, isBound, expanded, fits, unfolds,
      beyond, budget⟩
    obtain ⟨shaped, apart⟩ := expandMerges_keeps isBound.forest isBound.distinct expanded
    obtain rfl := eq_unfoldedList shaped apart unfolds
    rw [← length, ← limit] at fits
    rw [← limit] at budget
    obtain ⟨cursor, ok⟩ := expandBound_overruns maxEvents isBound (length ▸ few)
      (flags.1.trans merging) (flags.2.trans resolving) expanded fits budget
    have short := within _ (.inl ok)
    exact absurd beyond (Nat.not_lt.mpr short)
  · intro fine q isResult
    have held {q : Parser} (ok : expandBound p.bindAnchors = .ok () q) :
        q.evtLen ≤ documentedBound p.evtLen := by
      by_contra beyond
      rw [← length] at beyond
      obtain ⟨merging, resolving, merged, expanded, fits, unfolds, budget⟩ :=
        expandBound_within maxEvents isBound (length ▸ few) ok (Nat.lt_of_not_le beyond)
      rw [length, limit] at fits
      rw [limit] at budget
      rw [length] at beyond
      exact fine ⟨flags.1.symm.trans merging, flags.2.symm.trans resolving, bound, merged, q.events,
        isBound, expanded, fits, unfolds, Nat.lt_of_not_le beyond, budget⟩
    rcases isResult with ok | ok
    · exact held ok
    · obtain ⟨q', ok', delivered⟩ := expandDocument_delivers ok
      rw [delivered]
      exact held ok'

end

/-- `[&a , *a]` without its brackets, to be resolved. -/
def resolvedPair : Parser :=
  { Parser.new [] with
    events := [{ type := .scalar, anchor := some (ascii "a") },
      { type := .alias, value := ascii "a" }]
    maxEvents := 0
    resolveEnabled := true }

theorem expandDocument_within_iff_resolve :
    ¬Overruns resolvedPair ∧ ∀ q, expandBound resolvedPair.bindAnchors = .ok () q ∨
      expandDocument resolvedPair = .ok () q → q.evtLen ≤ documentedBound 2 := by
  have fine : ¬Overruns resolvedPair := fun overruns => Bool.noConfusion overruns.merging
  have trees : ∃ trees, DocumentTrees resolvedPair.events trees :=
    ⟨[.leaf { type := .scalar, anchor := some (ascii "a") },
      .leaf { type := .alias, value := ascii "a" }], ⟨rfl, by decide, by decide⟩, by decide⟩
  exact ⟨fine, (expandDocument_within_iff resolvedPair (Int.le_refl 0) trees (by decide)).mpr fine⟩

/-! ### A document that overruns

    [&a [x, x, x, x, x, x, x, x], &b [*a, *a, *a, *a, *a, *a, *a, *a],
     &c [*b, ..., *b], &d [*c, ..., *c], &e [*d, ..., *d],
     &f {[]: [x, ..., x]}, {<<: *f}, *e, *d, *d, *c, *b]
-/

def sequenceOf (anchor : Option Bytes) (items : List (Tree Event)) : Tree Event :=
  .node { type := .sequenceStart, anchor := anchor } items { type := .sequenceEnd }

def mappingOf (anchor : Option Bytes) (items : List (Tree Event)) : Tree Event :=
  .node { type := .mappingStart, anchor := anchor } items { type := .mappingEnd }

def scalarOf (value : String) : Tree Event := .leaf { type := .scalar, value := ascii value }

def aliasOf (name : Bytes) : Tree Event := .leaf { type := .alias, value := name }

/-- An entry with a key that merging does not compare. -/
def copiedEntry : List (Tree Event) :=
  [sequenceOf none [], sequenceOf none (List.replicate 30 (scalarOf "x"))]

/-- The document, under the names of its anchors and with the entry of `{<<: *f}`. -/
def growingTrees (name : Nat → Bytes) (entry : List (Tree Event)) : List (Tree Event) :=
  [.leaf { type := .streamStart }, .leaf { type := .docStart },
    sequenceOf none [
      sequenceOf (some (name 1)) (List.replicate 8 (scalarOf "x")),
      sequenceOf (some (name 2)) (List.replicate 8 (aliasOf (name 1))),
      sequenceOf (some (name 3)) (List.replicate 8 (aliasOf (name 2))),
      sequenceOf (some (name 4)) (List.replicate 8 (aliasOf (name 3))),
      sequenceOf (some (name 5)) (List.replicate 8 (aliasOf (name 4))),
      mappingOf (some (name 6)) copiedEntry,
      mappingOf none entry,
      aliasOf (name 5), aliasOf (name 4), aliasOf (name 4), aliasOf (name 3), aliasOf (name 2)]]

/-- The names `a` to `f`, and what binding makes of them. -/
def letterName (n : Nat) : Bytes := [UInt8.ofNat (96 + n)]

def boundLetter (n : Nat) : Bytes := boundName (letterName n) n

def growingDocument : List (Tree Event) :=
  growingTrees letterName [scalarOf "<<", aliasOf (letterName 6)]

def growingBound : List (Tree Event) :=
  growingTrees boundLetter [scalarOf "<<", aliasOf (boundLetter 6)]

def growingMerged : List (Tree Event) := growingTrees boundLetter copiedEntry

theorem growingBound_trees :
    BoundTrees (bindEvents {} (Tree.flattenList growingDocument)).1 growingBound :=
  ⟨⟨by decide +kernel, by decide +kernel, by decide +kernel⟩, by decide +kernel⟩

theorem growingMerged_trees :
    EventTrees growingMerged ∧ ((anchoredTrees growingMerged).map (·.1)).Nodup :=
  ⟨by decide +kernel, by decide +kernel⟩

theorem growingBound_pass : passTrees growingBound = some growingMerged := rfl

theorem growingMerged_pass : ∃ next, passTrees growingMerged = some next :=
  Option.isSome_iff_exists.mp rfl

/-- Merging makes the one copy. -/
theorem growingBound_merged : expandMerges maxMergePasses growingBound = some growingMerged := by
  obtain ⟨next, again⟩ := growingMerged_pass
  have merging : Tree.hasMergingList growingBound = true := rfl
  have done : Tree.hasMergingList growingMerged = false := rfl
  rw [maxMergePasses, expandMerges, growingBound_pass, Option.bind_some, if_pos merging,
    expandMerges, again, Option.bind_some, done, if_neg Bool.false_ne_true]

theorem growingBound_fits : FitsPasses 101584 maxMergePasses growingBound := by
  intro merged passed
  obtain rfl := Option.some.inj (growingBound_pass.symm.trans passed)
  refine ⟨by decide +kernel, fun _ => ?_⟩
  intro next again
  have short : ∀ trees, passTrees growingMerged = some trees →
      ((Tree.flattenList trees).length : Int) ≤ 101584 := by
    intro trees isNext
    have length : (passTrees growingMerged).map (fun t => (Tree.flattenList t).length) =
        some 131 := rfl
    rw [isNext, Option.map_some] at length
    have := Option.some.inj length
    omega
  refine ⟨short next again, fun merging => ?_⟩
  have done : Tree.hasMergingList growingMerged = false := rfl
  rw [done] at merging
  cases merging

/-- The length of the unfolding of `*a`, `*b` and so on. -/
def unfoldedLength : Nat → Nat
  | 0 => 1
  | k + 1 => 8 * unfoldedLength k + 2

theorem length_unfold_letter (k n : Nat) (isName : k < 5) (deep : k < n) :
    ((aliasRefs growingMerged).unfold n
      { type := .alias, value := boundLetter (k + 1) }).flatten.length = unfoldedLength
        (k + 1) := by
  obtain ⟨shaped, apart⟩ := growingMerged_trees
  obtain ⟨n, rfl⟩ : ∃ m, n = m + 1 := ⟨n - 1, by omega⟩
  induction k generalizing n with
  | zero =>
      have body : (aliasBody growingMerged { type := .alias, value := boundLetter 1 }).map
          Tree.flatten =
          some (sequenceOf (some (boundLetter 1)) (List.replicate 8 (scalarOf "x"))).flatten := by
        decide +kernel
      rw [length_unfold shaped body]
      simp [sequenceOf, scalarOf, Tree.flatten, Tree.flattenList, List.replicate, unfoldedLength,
        length_unfold_other]
  | succ k ih =>
      have bodies : ∀ k < 4, (aliasBody growingMerged
          { type := .alias, value := boundLetter (k + 2) }).map Tree.flatten =
          some (sequenceOf (some (boundLetter (k + 2)))
            (List.replicate 8 (aliasOf (boundLetter (k + 1))))).flatten := by
        decide +kernel
      rw [length_unfold shaped (bodies k (by omega))]
      obtain ⟨n, rfl⟩ : ∃ m, n = m + 1 := ⟨n - 1, by omega⟩
      have inner := ih (by omega) n (by omega)
      simp [sequenceOf, aliasOf, Tree.flatten, Tree.flattenList, List.replicate, unfoldedLength,
        length_unfold_other, inner]
      omega

/-- Which of the names `a` to `e` an alias has, from 1. -/
def letterIndex (evt : Event) : Nat :=
  ([1, 2, 3, 4, 5].find? fun k => evt.type == .alias && evt.value == boundLetter k).getD 0

theorem growingMerged_length : (unfoldedList growingMerged).length = 101624 := by
  have aliases : ∀ evt ∈ Tree.flattenList growingMerged, evt.type = .alias →
      ∃ k < 5, evt = { type := .alias, value := boundLetter (k + 1) } ∧ letterIndex evt =
        k + 1 := by
    decide +kernel
  have deep : (anchoredTrees growingMerged).length + 1 = 7 := by decide +kernel
  have each : ∀ evt ∈ Tree.flattenList growingMerged,
      ((aliasRefs growingMerged).unfold 7 evt).flatten.length =
        unfoldedLength (letterIndex evt) := by
    intro evt member
    by_cases isAlias : evt.type = .alias
    · obtain ⟨k, isName, rfl, index⟩ := aliases evt member isAlias
      rw [index]
      exact length_unfold_letter k 7 isName (by omega)
    · have index : letterIndex evt = 0 := by simp [letterIndex, isAlias]
      rw [index]
      exact length_unfold_other isAlias 7
  calc (unfoldedList growingMerged).length
      = ((Tree.flattenList growingMerged).map fun evt => unfoldedLength (letterIndex evt)).sum := by
        rw [length_unfoldedList growingMerged_trees.1, deep, List.map_congr_left each]
    _ = 101624 := by decide +kernel

/-- The document has 99 events, and 101624 are delivered for it. -/
theorem expandDocument_not_within :
    ∃ p q : Parser, p.maxEvents ≤ 0 ∧ (∃ trees, DocumentTrees p.events trees) ∧
      expandDocument p = .ok () q ∧ documentedBound p.evtLen < q.evtLen := by
  let p : Parser :=
    { Parser.new [] with
      events := Tree.flattenList growingDocument
      maxEvents := 0
      maxDepth := 0
      mergeEnabled := true
      resolveEnabled := true }
  have document : DocumentTrees p.events growingDocument :=
    ⟨⟨rfl, by decide +kernel, by decide +kernel⟩, by decide +kernel⟩
  have named : p.events.all (·.anchorName.isNone) = false := by decide +kernel
  have isBound : p.bindAnchors = { p with
      events := (bindEvents {} p.events).1
      boundNames := some (bindEvents {} p.events).2.names } := by
    rw [Parser.bindAnchors, named]
    rfl
  have length : p.bindAnchors.evtLen = 99 := by
    rw [p.bindAnchors_evtLen]
    rfl
  have trees : BoundTrees p.bindAnchors.events growingBound := by
    rw [isBound]
    exact growingBound_trees
  have limits (n : Nat) : p.bindAnchors.expansionLimit n = p.expansionLimit n := by
    rw [isBound]
    rfl
  have merged : (Tree.flattenList growingMerged).length = 131 := rfl
  obtain ⟨cursor, stages⟩ := expandBound_overruns (p := p.bindAnchors)
    (by rw [isBound]) trees (by rw [length]; decide) (by rw [isBound]) (by rw [isBound])
    growingBound_merged
    (by rw [length, limits]; exact growingBound_fits)
    (by rw [growingMerged_length, merged, limits]; decide)
  have ok := expandDocument_run (p := p) rfl
  rw [stages, isBound] at ok
  refine ⟨p, _, Int.le_refl 0, ⟨growingDocument, document⟩, ok, ?_⟩
  have delivered : ({ p with
      events := unfoldedList growingMerged
      evtCursor := cursor
      boundNames := some (bindEvents {} p.events).2.names } : Parser).evtLen = 101624 :=
    growingMerged_length
  rw [Parser.unbindAnchors_evtLen, delivered]
  decide +kernel

end Oyl
