import Oyl.Expand.Documents
import Oyl.Expand.Merge

/-!
# One merge pass on trees

A pass of `resolve_merges` seen on the trees of a document: each outermost
mapping with a merge key gets the entries of its merge sources, as they were
before the pass, after its own.
-/

namespace Oyl

abbrev Pair := Tree Event × Tree Event

/-- The keys and values of a mapping's children. -/
def pairsOf : List (Tree Event) → List Pair
  | key :: value :: rest => (key, value) :: pairsOf rest
  | _ => []

theorem pairsOf_induction {motive : List (Tree Event) → Prop} (nil : motive [])
    (single : ∀ tree, motive [tree])
    (pair : ∀ key value rest, motive rest → motive (key :: value :: rest)) :
    ∀ trees, motive trees
  | [] => nil
  | [tree] => single tree
  | key :: value :: rest =>
      pair key value rest (pairsOf_induction nil single pair rest)

def unpair : List Pair → List (Tree Event)
  | [] => []
  | (key, value) :: rest => key :: value :: unpair rest

/-- An entry whose key is `<<`. -/
def mergeKeyed (pair : Pair) : Bool := isMergeKey pair.1.head

/-- The text of a scalar key. -/
def keyText (key : Tree Event) : Option Bytes :=
  if key.head.type == .scalar then some key.head.value else none

def Tree.children : Tree Event → List (Tree Event)
  | .leaf _ => []
  | .node _ children _ => children

def Tree.pairs (tree : Tree Event) : List Pair := pairsOf tree.children

/-- A mapping with a merge key. -/
def Tree.merging (tree : Tree Event) : Bool :=
  tree.head.type == .mappingStart && tree.pairs.any mergeKeyed

/-- The mapping that a merge source stands for. -/
def sourceOf (defs : Bytes → Option (Tree Event)) (source : Tree Event) :
    Option (Tree Event) :=
  if source.head.type == .mappingStart then some source
  else if source.head.type == .alias then
    (defs source.head.value).filter fun tree => tree.head.type == .mappingStart
  else none

/-- The sources in the value of a merge key: the value, or the nodes of a
sequence. -/
def candidates (value : Tree Event) : List (Tree Event) :=
  if value.head.type == .sequenceStart then value.children else [value]

/-- All merge sources of a mapping's entries, in order. -/
def sourcesOf (defs : Bytes → Option (Tree Event)) (pairs : List Pair) :
    Option (List (Tree Event)) :=
  ((pairs.filter mergeKeyed).flatMap fun pair => candidates pair.2).mapM (sourceOf defs)

/-- Leave out the entries whose scalar key was seen. -/
def dedup : List Bytes → List Pair → List Pair
  | _, [] => []
  | seen, pair :: rest =>
      match keyText pair.1 with
      | none => pair :: dedup seen rest
      | some text =>
          if seen.contains text then dedup seen rest
          else pair :: dedup (seen ++ [text]) rest

/-- The scalar keys of some entries. -/
def keyTexts (pairs : List Pair) : List Bytes := pairs.filterMap fun pair => keyText pair.1

def Pair.copy (pair : Pair) : Pair := (pair.1.map Event.copy, pair.2.map Event.copy)

/-- The entries a mapping gets from its merge sources. -/
def inherited (explicit : List Pair) (sources : List (Tree Event)) : List Pair :=
  (dedup (keyTexts explicit) (sources.flatMap Tree.pairs)).map Pair.copy

/-- The entries of a mapping after its merge keys were processed once. -/
def mergedPairs (defs : Bytes → Option (Tree Event)) (pairs : List Pair) :
    Option (List Pair) :=
  let explicit := pairs.filter fun pair => !mergeKeyed pair
  (sourcesOf defs pairs).map fun sources => explicit ++ inherited explicit sources

mutual

/-- One pass over a tree. -/
def mergeTree (defs : Bytes → Option (Tree Event)) : Tree Event → Option (Tree Event)
  | .leaf evt => some (.leaf evt)
  | .node start children stop =>
      if start.type == .mappingStart && (pairsOf children).any mergeKeyed then
        (mergedPairs defs (pairsOf children)).map fun pairs =>
          .node start (unpair pairs) stop
      else (mergeTrees defs children).map fun children => .node start children stop

def mergeTrees (defs : Bytes → Option (Tree Event)) :
    List (Tree Event) → Option (List (Tree Event))
  | [] => some []
  | tree :: trees =>
      (mergeTree defs tree).bind fun tree =>
        (mergeTrees defs trees).map fun trees => tree :: trees

end

mutual

/-- Does a tree have a mapping with a merge key? -/
def Tree.hasMerging : Tree Event → Bool
  | .leaf _ => false
  | .node start children stop =>
      (Tree.node start children stop).merging || hasMergingList children

def Tree.hasMergingList : List (Tree Event) → Bool
  | [] => false
  | tree :: trees => tree.hasMerging || hasMergingList trees

end

/-- The latest definition of a name. -/
def definition (trees : List (Tree Event)) (name : Bytes) : Option (Tree Event) :=
  ((anchoredTrees trees).reverse.find? fun d => d.1 == name).map (·.2)

mutual

/-- Every mapping has a value for each key. -/
def Tree.Paired : Tree Event → Prop
  | .leaf _ => True
  | .node start children _ =>
      (start.type = .mappingStart → children.length % 2 = 0) ∧ PairedList children

def Tree.PairedList : List (Tree Event) → Prop
  | [] => True
  | tree :: trees => tree.Paired ∧ PairedList trees

end

mutual

def Tree.decPaired : (tree : Tree Event) → Decidable tree.Paired
  | .leaf _ => inferInstanceAs (Decidable True)
  | .node start children _ =>
      have : Decidable (Tree.PairedList children) := decPairedList children
      inferInstanceAs (Decidable
        ((start.type = .mappingStart → children.length % 2 = 0) ∧ Tree.PairedList children))

def Tree.decPairedList : (trees : List (Tree Event)) → Decidable (Tree.PairedList trees)
  | [] => inferInstanceAs (Decidable True)
  | tree :: trees =>
      have : Decidable tree.Paired := decPaired tree
      have : Decidable (Tree.PairedList trees) := decPairedList trees
      inferInstanceAs (Decidable (tree.Paired ∧ Tree.PairedList trees))

end

instance (trees : List (Tree Event)) : Decidable (Tree.PairedList trees) :=
  Tree.decPairedList trees

theorem Tree.pairedList_iff {trees : List (Tree Event)} :
    Tree.PairedList trees ↔ ∀ tree ∈ trees, tree.Paired := by
  induction trees with
  | nil => simp [Tree.PairedList]
  | cons tree trees ih => simp [Tree.PairedList, ih]

/-! ### Positions -/

/-- The linear form of `trees` starts at index `pos`. -/
def LiesAt (events : List Event) (pos : Nat) (trees : List (Tree Event)) : Prop :=
  ∃ before after, events = before ++ (Tree.flattenList trees ++ after) ∧ before.length = pos

namespace LiesAt

variable {events : List Event} {pos : Nat} {tree : Tree Event} {trees : List (Tree Event)}

theorem tail (lies : LiesAt events pos (tree :: trees)) :
    LiesAt events (pos + tree.flatten.length) trees := by
  obtain ⟨before, after, whole, rfl⟩ := lies
  exact ⟨before ++ tree.flatten, after, by simp [whole, Tree.flattenList], by simp⟩

theorem first (lies : LiesAt events pos (tree :: trees)) : LiesAt events pos [tree] := by
  obtain ⟨before, after, whole, here⟩ := lies
  exact ⟨before, Tree.flattenList trees ++ after, by simp [whole, Tree.flattenList], here⟩

theorem inner {start stop : Event} {children : List (Tree Event)}
    (lies : LiesAt events pos [.node start children stop]) :
    LiesAt events (pos + 1) children := by
  obtain ⟨before, after, whole, rfl⟩ := lies
  exact ⟨before ++ [start], stop :: after,
    by simp [whole, Tree.flattenList, Tree.flatten], by simp⟩

theorem eventAt_eq (lies : LiesAt events pos (tree :: trees)) :
    eventAt events pos = tree.head := by
  obtain ⟨before, after, whole, rfl⟩ := lies
  rw [whole, Tree.flattenList, List.append_assoc]
  exact eventAt_flatten before tree (Tree.flattenList trees ++ after)

theorem nodeEnd_eq (lies : LiesAt events pos (tree :: trees)) (shaped : EventTree tree) :
    nodeEnd events pos = pos + tree.flatten.length := by
  obtain ⟨before, after, whole, rfl⟩ := lies
  rw [whole, Tree.flattenList, List.append_assoc]
  exact nodeEnd_flatten before tree shaped (Tree.flattenList trees ++ after)

theorem slice_eq (lies : LiesAt events pos trees) :
    slice events pos (pos + (Tree.flattenList trees).length) = Tree.flattenList trees := by
  obtain ⟨before, after, whole, rfl⟩ := lies
  simp [slice, whole]

/-- The event that closes a node. -/
theorem eventAt_close {start stop : Event} {children : List (Tree Event)}
    (lies : LiesAt events pos (.node start children stop :: trees)) :
    eventAt events (pos + (Tree.node start children stop).flatten.length - 1) = stop := by
  obtain ⟨before, after, whole, rfl⟩ := lies
  have split : events = (before ++ start :: Tree.flattenList children) ++
      stop :: (Tree.flattenList trees ++ after) := by
    simp [whole, Tree.flattenList, Tree.flatten]
  have length : before.length + (Tree.node start children stop).flatten.length - 1 =
      (before ++ start :: Tree.flattenList children).length := by
    simp [Tree.flatten]
  rw [length, split, eventAt_append]

theorem bound (lies : LiesAt events pos trees) :
    pos + (Tree.flattenList trees).length ≤ events.length := by
  obtain ⟨before, after, whole, rfl⟩ := lies
  simp [whole]

end LiesAt

end Oyl
