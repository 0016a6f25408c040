import Mathlib.Data.List.Basic

/-!
# Bracketed trees

Ordered trees whose inner nodes carry an opening and a closing label, their
linear form, and the substitution of trees for leaves.
-/

namespace Oyl

universe u

/-- A leaf, or a node between its opening and its closing label. -/
inductive Tree (α : Type u) where
  | leaf (a : α)
  | node (start : α) (children : List (Tree α)) (stop : α)

namespace Tree

variable {α : Type u}

/-- The label a tree starts with. -/
def head : Tree α → α
  | .leaf a => a
  | .node start _ _ => start

mutual

/-- The labels from left to right. -/
def flatten : Tree α → List α
  | .leaf a => [a]
  | .node start children stop => start :: (flattenList children ++ [stop])

def flattenList : List (Tree α) → List α
  | [] => []
  | tree :: trees => tree.flatten ++ flattenList trees

end

mutual

/-- Replace each leaf by a tree. -/
def bind (f : α → Tree α) : Tree α → Tree α
  | .leaf a => f a
  | .node start children stop => .node start (bindList f children) stop

def bindList (f : α → Tree α) : List (Tree α) → List (Tree α)
  | [] => []
  | tree :: trees => tree.bind f :: bindList f trees

end

mutual

/-- Relabel a tree. -/
def map (g : α → α) : Tree α → Tree α
  | .leaf a => .leaf (g a)
  | .node start children stop => .node (g start) (mapList g children) (g stop)

def mapList (g : α → α) : List (Tree α) → List (Tree α)
  | [] => []
  | tree :: trees => tree.map g :: mapList g trees

end

mutual

/-- The labels of the leaves from left to right. -/
def leaves : Tree α → List α
  | .leaf a => [a]
  | .node _ children _ => leavesList children

def leavesList : List (Tree α) → List α
  | [] => []
  | tree :: trees => tree.leaves ++ leavesList trees

end

mutual

/-- The subtrees in the order in which they start, the tree itself first. -/
def subtrees : Tree α → List (Tree α)
  | .leaf a => [.leaf a]
  | .node start children stop => .node start children stop :: subtreesList children

def subtreesList : List (Tree α) → List (Tree α)
  | [] => []
  | tree :: trees => tree.subtrees ++ subtreesList trees

end

mutual

/-- Every leaf label satisfies `leafOk`, and the labels of every node are
matched by `pairOk`. -/
def Shaped (leafOk : α → Prop) (pairOk : α → α → Prop) : Tree α → Prop
  | .leaf a => leafOk a
  | .node start children stop =>
      pairOk start stop ∧ ShapedList leafOk pairOk children

def ShapedList (leafOk : α → Prop) (pairOk : α → α → Prop) : List (Tree α) → Prop
  | [] => True
  | tree :: trees =>
      tree.Shaped leafOk pairOk ∧ ShapedList leafOk pairOk trees

end

mutual

def decShaped {leafOk : α → Prop} {pairOk : α → α → Prop} [DecidablePred leafOk]
    [DecidableRel pairOk] : (tree : Tree α) → Decidable (tree.Shaped leafOk pairOk)
  | .leaf a => inferInstanceAs (Decidable (leafOk a))
  | .node start children stop =>
      have : Decidable (ShapedList leafOk pairOk children) := decShapedList children
      inferInstanceAs (Decidable (pairOk start stop ∧ ShapedList leafOk pairOk children))

def decShapedList {leafOk : α → Prop} {pairOk : α → α → Prop} [DecidablePred leafOk]
    [DecidableRel pairOk] : (trees : List (Tree α)) → Decidable (ShapedList leafOk pairOk trees)
  | [] => inferInstanceAs (Decidable True)
  | tree :: trees =>
      have : Decidable (tree.Shaped leafOk pairOk) := decShaped tree
      have : Decidable (ShapedList leafOk pairOk trees) := decShapedList trees
      inferInstanceAs
        (Decidable (tree.Shaped leafOk pairOk ∧ ShapedList leafOk pairOk trees))

end

instance {leafOk : α → Prop} {pairOk : α → α → Prop} [DecidablePred leafOk]
    [DecidableRel pairOk] (trees : List (Tree α)) :
    Decidable (ShapedList leafOk pairOk trees) :=
  decShapedList trees

/-! ### Lists of trees -/

@[simp] theorem flattenList_append (left right : List (Tree α)) :
    flattenList (left ++ right) = flattenList left ++ flattenList right := by
  induction left with
  | nil => rfl
  | cons tree trees ih => simp [flattenList, ih]

theorem mapList_eq_map (g : α → α) (trees : List (Tree α)) :
    mapList g trees = trees.map (map g) := by
  induction trees with
  | nil => rfl
  | cons tree trees ih => simp [mapList, ih]

theorem bindList_eq_map (f : α → Tree α) (trees : List (Tree α)) :
    bindList f trees = trees.map (bind f) := by
  induction trees with
  | nil => rfl
  | cons tree trees ih => simp [bindList, ih]

theorem shapedList_iff {leafOk : α → Prop} {pairOk : α → α → Prop}
    {trees : List (Tree α)} :
    ShapedList leafOk pairOk trees ↔ ∀ tree ∈ trees, tree.Shaped leafOk pairOk := by
  induction trees with
  | nil => simp [ShapedList]
  | cons tree trees ih => simp [ShapedList, ih]

/-! ### Linear forms -/

theorem flatten_length_pos (tree : Tree α) : 0 < tree.flatten.length := by
  cases tree <;> simp [flatten]

theorem flatten_eq_cons (tree : Tree α) :
    ∃ rest, tree.flatten = tree.head :: rest := by
  cases tree with
  | leaf a => exact ⟨[], rfl⟩
  | node start children stop => exact ⟨_, rfl⟩

mutual

theorem flatten_map (g : α → α) (tree : Tree α) :
    (tree.map g).flatten = tree.flatten.map g := by
  cases tree with
  | leaf a => rfl
  | node start children stop =>
      simp [map, flatten, flattenList_map g children]

theorem flattenList_map (g : α → α) (trees : List (Tree α)) :
    flattenList (mapList g trees) = (flattenList trees).map g := by
  cases trees with
  | nil => rfl
  | cons tree trees =>
      simp [mapList, flattenList, flatten_map g tree, flattenList_map g trees]

end

mutual

/-- Substitution only makes a linear form longer. -/
theorem flatten_length_le_bind (f : α → Tree α) (tree : Tree α) :
    tree.flatten.length ≤ (tree.bind f).flatten.length := by
  cases tree with
  | leaf a => exact flatten_length_pos (f a)
  | node start children stop =>
      have inner := flattenList_length_le_bind f children
      simpa [bind, flatten] using inner

theorem flattenList_length_le_bind (f : α → Tree α) (trees : List (Tree α)) :
    (flattenList trees).length ≤ (flattenList (bindList f trees)).length := by
  cases trees with
  | nil => simp [bindList]
  | cons tree trees =>
      have first := flatten_length_le_bind f tree
      have others := flattenList_length_le_bind f trees
      simp only [bindList, flattenList, List.length_append]
      omega

end

mutual

/-- The linear form of a substitution replaces each leaf label in place, if
`expand` tells the leaves from the brackets. -/
theorem flatten_bind {leafOk : α → Prop} {pairOk : α → α → Prop}
    {f : α → Tree α} {expand : α → List α}
    (onLeaf : ∀ a, leafOk a → expand a = (f a).flatten)
    (onPair : ∀ a b, pairOk a b → expand a = [a] ∧ expand b = [b])
    (tree : Tree α) (shaped : tree.Shaped leafOk pairOk) :
    (tree.bind f).flatten = tree.flatten.flatMap expand := by
  cases tree with
  | leaf a => simp [bind, flatten, onLeaf a shaped]
  | node start children stop =>
      have inner := flattenList_bind onLeaf onPair children shaped.2
      have brackets := onPair start stop shaped.1
      simp [bind, flatten, inner, brackets.1, brackets.2]

theorem flattenList_bind {leafOk : α → Prop} {pairOk : α → α → Prop}
    {f : α → Tree α} {expand : α → List α}
    (onLeaf : ∀ a, leafOk a → expand a = (f a).flatten)
    (onPair : ∀ a b, pairOk a b → expand a = [a] ∧ expand b = [b])
    (trees : List (Tree α)) (shaped : ShapedList leafOk pairOk trees) :
    flattenList (bindList f trees) = (flattenList trees).flatMap expand := by
  cases trees with
  | nil => rfl
  | cons tree trees =>
      simp [bindList, flattenList,
        flatten_bind onLeaf onPair tree shaped.1,
        flattenList_bind onLeaf onPair trees shaped.2]

end

mutual

theorem mem_flatten_of_mem_leaves {a : α} (tree : Tree α) (member : a ∈ tree.leaves) :
    a ∈ tree.flatten := by
  cases tree with
  | leaf b => simpa [leaves, flatten] using member
  | node start children stop =>
      have inner := mem_flattenList_of_mem_leaves children member
      simp [flatten, inner]

theorem mem_flattenList_of_mem_leaves {a : α} (trees : List (Tree α))
    (member : a ∈ leavesList trees) : a ∈ flattenList trees := by
  cases trees with
  | nil => simp [leavesList] at member
  | cons tree trees =>
      simp only [leavesList, flattenList, List.mem_append] at member ⊢
      exact member.imp (mem_flatten_of_mem_leaves tree)
        (mem_flattenList_of_mem_leaves trees)

end

mutual

/-- A label that no bracket carries labels a leaf. -/
theorem mem_leaves_of_mem_flatten {leafOk : α → Prop} {pairOk : α → α → Prop} {a : α}
    (notBracket : ∀ b c, pairOk b c → a ≠ b ∧ a ≠ c)
    (tree : Tree α) (shaped : tree.Shaped leafOk pairOk) (member : a ∈ tree.flatten) :
    a ∈ tree.leaves := by
  cases tree with
  | leaf b => simpa [leaves, flatten] using member
  | node start children stop =>
      have different := notBracket start stop shaped.1
      simp only [flatten, List.mem_cons, List.mem_append, List.not_mem_nil, or_false,
        different.1, different.2, false_or] at member
      exact mem_leavesList_of_mem_flatten notBracket children shaped.2 member

theorem mem_leavesList_of_mem_flatten {leafOk : α → Prop} {pairOk : α → α → Prop} {a : α}
    (notBracket : ∀ b c, pairOk b c → a ≠ b ∧ a ≠ c)
    (trees : List (Tree α)) (shaped : ShapedList leafOk pairOk trees)
    (member : a ∈ flattenList trees) : a ∈ leavesList trees := by
  cases trees with
  | nil => simp [flattenList] at member
  | cons tree trees =>
      simp only [leavesList, flattenList, List.mem_append] at member ⊢
      exact member.imp (mem_leaves_of_mem_flatten notBracket tree shaped.1)
        (mem_leavesList_of_mem_flatten notBracket trees shaped.2)

end

/-! ### Substitution -/

mutual

theorem bind_assoc (f g : α → Tree α) (tree : Tree α) :
    (tree.bind f).bind g = tree.bind fun a => (f a).bind g := by
  cases tree with
  | leaf a => rfl
  | node start children stop => simp [bind, bindList_assoc f g children]

theorem bindList_assoc (f g : α → Tree α) (trees : List (Tree α)) :
    bindList g (bindList f trees) = bindList (fun a => (f a).bind g) trees := by
  cases trees with
  | nil => rfl
  | cons tree trees =>
      simp [bindList, bind_assoc f g tree, bindList_assoc f g trees]

end

mutual

theorem bind_congr {f g : α → Tree α} (tree : Tree α)
    (same : ∀ a ∈ tree.leaves, f a = g a) : tree.bind f = tree.bind g := by
  cases tree with
  | leaf a => exact same a (by simp [leaves])
  | node start children stop => simp [bind, bindList_congr children same]

theorem bindList_congr {f g : α → Tree α} (trees : List (Tree α))
    (same : ∀ a ∈ leavesList trees, f a = g a) : bindList f trees = bindList g trees := by
  cases trees with
  | nil => rfl
  | cons tree trees =>
      have first := bind_congr tree fun a member =>
        same a (by simp [leavesList, member])
      have others := bindList_congr trees fun a member =>
        same a (by simp [leavesList, member])
      simp [bindList, first, others]

end

mutual

@[simp] theorem bind_leaf (tree : Tree α) : tree.bind .leaf = tree := by
  cases tree with
  | leaf a => rfl
  | node start children stop => simp [bind, bindList_leaf children]

@[simp] theorem bindList_leaf (trees : List (Tree α)) : bindList .leaf trees = trees := by
  cases trees with
  | nil => rfl
  | cons tree trees => simp [bindList, bind_leaf tree, bindList_leaf trees]

end

mutual

theorem bind_map (g : α → α) (f : α → Tree α)
    (commutes : ∀ a, f (g a) = (f a).map g) (tree : Tree α) :
    (tree.map g).bind f = (tree.bind f).map g := by
  cases tree with
  | leaf a => exact commutes a
  | node start children stop => simp [bind, map, bindList_map g f commutes children]

theorem bindList_map (g : α → α) (f : α → Tree α)
    (commutes : ∀ a, f (g a) = (f a).map g) (trees : List (Tree α)) :
    bindList f (mapList g trees) = mapList g (bindList f trees) := by
  cases trees with
  | nil => rfl
  | cons tree trees =>
      simp [bindList, mapList, bind_map g f commutes tree,
        bindList_map g f commutes trees]

end

mutual

theorem map_map (g h : α → α) (tree : Tree α) :
    (tree.map g).map h = tree.map (h ∘ g) := by
  cases tree with
  | leaf a => rfl
  | node start children stop => simp [map, mapList_map g h children]

theorem mapList_map (g h : α → α) (trees : List (Tree α)) :
    mapList h (mapList g trees) = mapList (h ∘ g) trees := by
  cases trees with
  | nil => rfl
  | cons tree trees => simp [mapList, map_map g h tree, mapList_map g h trees]

end

mutual

theorem leaves_map (g : α → α) (tree : Tree α) :
    (tree.map g).leaves = tree.leaves.map g := by
  cases tree with
  | leaf a => rfl
  | node start children stop => simp [map, leaves, leavesList_map g children]

theorem leavesList_map (g : α → α) (trees : List (Tree α)) :
    leavesList (mapList g trees) = (leavesList trees).map g := by
  cases trees with
  | nil => rfl
  | cons tree trees =>
      simp [mapList, leavesList, leaves_map g tree, leavesList_map g trees]

end

mutual

theorem leaves_bind (f : α → Tree α) (tree : Tree α) :
    (tree.bind f).leaves = tree.leaves.flatMap fun a => (f a).leaves := by
  cases tree with
  | leaf a => simp [bind, leaves]
  | node start children stop => simp [bind, leaves, leavesList_bind f children]

theorem leavesList_bind (f : α → Tree α) (trees : List (Tree α)) :
    leavesList (bindList f trees) = (leavesList trees).flatMap fun a => (f a).leaves := by
  cases trees with
  | nil => rfl
  | cons tree trees =>
      simp [bindList, leavesList, leaves_bind f tree, leavesList_bind f trees]

end

/-! ### Subtrees -/

mutual

theorem subtrees_map (g : α → α) (tree : Tree α) :
    (tree.map g).subtrees = tree.subtrees.map (map g) := by
  cases tree with
  | leaf a => rfl
  | node start children stop =>
      simp [map, subtrees, subtreesList_map g children]

theorem subtreesList_map (g : α → α) (trees : List (Tree α)) :
    subtreesList (mapList g trees) = (subtreesList trees).map (map g) := by
  cases trees with
  | nil => rfl
  | cons tree trees =>
      simp [mapList, subtreesList, subtrees_map g tree, subtreesList_map g trees]

end

@[simp] theorem head_map (g : α → α) (tree : Tree α) : (tree.map g).head = g tree.head := by
  cases tree <;> rfl

mutual

/-- A subtree's linear form is a segment of the tree's. -/
theorem flatten_of_mem_subtrees {sub : Tree α} (tree : Tree α)
    (member : sub ∈ tree.subtrees) :
    ∃ before after, tree.flatten = before ++ (sub.flatten ++ after) := by
  cases tree with
  | leaf a =>
      rw [List.mem_singleton.mp member]
      exact ⟨[], [], by simp⟩
  | node start children stop =>
      rcases List.mem_cons.mp member with rfl | inner
      · exact ⟨[], [], by simp⟩
      · obtain ⟨before, after, split⟩ := flattenList_of_mem_subtrees children inner
        exact ⟨start :: before, after ++ [stop], by simp [flatten, split]⟩

theorem flattenList_of_mem_subtrees {sub : Tree α} (trees : List (Tree α))
    (member : sub ∈ subtreesList trees) :
    ∃ before after, flattenList trees = before ++ (sub.flatten ++ after) := by
  cases trees with
  | nil => simp [subtreesList] at member
  | cons tree trees =>
      rcases List.mem_append.mp member with first | later
      · obtain ⟨before, after, split⟩ := flatten_of_mem_subtrees tree first
        exact ⟨before, after ++ flattenList trees, by simp [flattenList, split]⟩
      · obtain ⟨before, after, split⟩ := flattenList_of_mem_subtrees trees later
        exact ⟨tree.flatten ++ before, after, by simp [flattenList, split]⟩

end

mutual

/-- Selecting subtrees commutes with a substitution under which no new subtree
is selected. -/
theorem filterMap_subtrees_bind {β : Type u} {f : α → Tree α} {select : Tree α → Option β}
    {change : β → β}
    (onNode : ∀ start children stop,
      select ((node start children stop).bind f) =
        (select (node start children stop)).map change)
    (tree : Tree α)
    (onLeaf : ∀ a ∈ tree.leaves,
      (f a).subtrees.filterMap select = ((select (leaf a)).map change).toList) :
    (tree.bind f).subtrees.filterMap select =
      (tree.subtrees.filterMap select).map change := by
  cases tree with
  | leaf a =>
      rw [bind, onLeaf a (by simp [leaves])]
      cases selected : select (leaf a) <;> simp [subtrees, selected]
  | node start children stop =>
      have inner := filterMap_subtreesList_bind onNode children onLeaf
      have here := onNode start children stop
      rw [bind] at here
      cases selected : select (node start children stop) <;>
        simp [bind, subtrees, inner, here, selected]

theorem filterMap_subtreesList_bind {β : Type u} {f : α → Tree α}
    {select : Tree α → Option β} {change : β → β}
    (onNode : ∀ start children stop,
      select ((node start children stop).bind f) =
        (select (node start children stop)).map change)
    (trees : List (Tree α))
    (onLeaf : ∀ a ∈ leavesList trees,
      (f a).subtrees.filterMap select = ((select (leaf a)).map change).toList) :
    (subtreesList (bindList f trees)).filterMap select =
      ((subtreesList trees).filterMap select).map change := by
  cases trees with
  | nil => rfl
  | cons tree trees =>
      have first := filterMap_subtrees_bind onNode tree fun a member =>
        onLeaf a (by simp [leavesList, member])
      have others := filterMap_subtreesList_bind onNode trees fun a member =>
        onLeaf a (by simp [leavesList, member])
      simp [bindList, subtreesList, first, others]

end

/-! ### Shape -/

mutual

theorem Shaped.bind {leafOk : α → Prop} {pairOk : α → α → Prop} {f : α → Tree α}
    (shapedLeaf : ∀ a, leafOk a → (f a).Shaped leafOk pairOk)
    (tree : Tree α) (shaped : tree.Shaped leafOk pairOk) :
    (tree.bind f).Shaped leafOk pairOk := by
  cases tree with
  | leaf a => exact shapedLeaf a shaped
  | node start children stop =>
      exact ⟨shaped.1, ShapedList.bindList shapedLeaf children shaped.2⟩

theorem ShapedList.bindList {leafOk : α → Prop} {pairOk : α → α → Prop}
    {f : α → Tree α} (shapedLeaf : ∀ a, leafOk a → (f a).Shaped leafOk pairOk)
    (trees : List (Tree α)) (shaped : ShapedList leafOk pairOk trees) :
    ShapedList leafOk pairOk (bindList f trees) := by
  cases trees with
  | nil => trivial
  | cons tree trees =>
      exact ⟨Shaped.bind shapedLeaf tree shaped.1,
        ShapedList.bindList shapedLeaf trees shaped.2⟩

end

mutual

theorem Shaped.map {leafOk leafOk' : α → Prop} {pairOk pairOk' : α → α → Prop} {g : α → α}
    (ofLeaf : ∀ a, leafOk a → leafOk' (g a))
    (ofPair : ∀ a b, pairOk a b → pairOk' (g a) (g b))
    (tree : Tree α) (shaped : tree.Shaped leafOk pairOk) :
    (tree.map g).Shaped leafOk' pairOk' := by
  cases tree with
  | leaf a => exact ofLeaf a shaped
  | node start children stop =>
      exact ⟨ofPair start stop shaped.1,
        ShapedList.mapList ofLeaf ofPair children shaped.2⟩

theorem ShapedList.mapList {leafOk leafOk' : α → Prop} {pairOk pairOk' : α → α → Prop}
    {g : α → α} (ofLeaf : ∀ a, leafOk a → leafOk' (g a))
    (ofPair : ∀ a b, pairOk a b → pairOk' (g a) (g b))
    (trees : List (Tree α)) (shaped : ShapedList leafOk pairOk trees) :
    ShapedList leafOk' pairOk' (mapList g trees) := by
  cases trees with
  | nil => trivial
  | cons tree trees =>
      exact ⟨Shaped.map ofLeaf ofPair tree shaped.1,
        ShapedList.mapList ofLeaf ofPair trees shaped.2⟩

end

mutual

theorem Shaped.imp {leafOk leafOk' : α → Prop} {pairOk pairOk' : α → α → Prop}
    (ofLeaf : ∀ a, leafOk a → leafOk' a) (ofPair : ∀ a b, pairOk a b → pairOk' a b)
    (tree : Tree α) (shaped : tree.Shaped leafOk pairOk) : tree.Shaped leafOk' pairOk' := by
  cases tree with
  | leaf a => exact ofLeaf a shaped
  | node start children stop =>
      exact ⟨ofPair start stop shaped.1, ShapedList.imp ofLeaf ofPair children shaped.2⟩

theorem ShapedList.imp {leafOk leafOk' : α → Prop} {pairOk pairOk' : α → α → Prop}
    (ofLeaf : ∀ a, leafOk a → leafOk' a) (ofPair : ∀ a b, pairOk a b → pairOk' a b)
    (trees : List (Tree α)) (shaped : ShapedList leafOk pairOk trees) :
    ShapedList leafOk' pairOk' trees := by
  cases trees with
  | nil => trivial
  | cons tree trees =>
      exact ⟨Shaped.imp ofLeaf ofPair tree shaped.1, ShapedList.imp ofLeaf ofPair trees shaped.2⟩

end

mutual

theorem Shaped.leaves {leafOk : α → Prop} {pairOk : α → α → Prop} (tree : Tree α)
    (shaped : tree.Shaped leafOk pairOk) : ∀ a ∈ tree.leaves, leafOk a := by
  cases tree with
  | leaf a => simpa [Tree.leaves, Shaped] using shaped
  | node start children stop => exact ShapedList.leaves children shaped.2

theorem ShapedList.leaves {leafOk : α → Prop} {pairOk : α → α → Prop}
    (trees : List (Tree α)) (shaped : ShapedList leafOk pairOk trees) :
    ∀ a ∈ leavesList trees, leafOk a := by
  cases trees with
  | nil => simp [leavesList]
  | cons tree trees =>
      intro a member
      simp only [leavesList, List.mem_append] at member
      exact member.elim (Shaped.leaves tree shaped.1 a)
        (ShapedList.leaves trees shaped.2 a)

end

mutual

theorem Shaped.subtrees {leafOk : α → Prop} {pairOk : α → α → Prop} (tree : Tree α)
    (shaped : tree.Shaped leafOk pairOk) :
    ∀ sub ∈ tree.subtrees, sub.Shaped leafOk pairOk := by
  cases tree with
  | leaf a =>
      intro sub member
      rw [List.mem_singleton.mp member]
      exact shaped
  | node start children stop =>
      intro sub member
      rcases List.mem_cons.mp member with rfl | inner
      · exact shaped
      · exact ShapedList.subtrees children shaped.2 sub inner

theorem ShapedList.subtrees {leafOk : α → Prop} {pairOk : α → α → Prop}
    (trees : List (Tree α)) (shaped : ShapedList leafOk pairOk trees) :
    ∀ sub ∈ subtreesList trees, sub.Shaped leafOk pairOk := by
  cases trees with
  | nil => simp [subtreesList]
  | cons tree trees =>
      intro sub member
      simp only [subtreesList, List.mem_append] at member
      exact member.elim (Shaped.subtrees tree shaped.1 sub)
        (ShapedList.subtrees trees shaped.2 sub)

end

end Tree

end Oyl
