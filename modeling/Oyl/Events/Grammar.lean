import Oyl.Expand.MergeTrees

/-!
# The grammar of event streams

A stream is a list of documents with one node each.  The grammar derives event
types; an automaton that keeps the open collections on a stack accepts the
same streams event by event.
-/

namespace Oyl

mutual

/-- The events of a node. -/
inductive NodeEvents : List EventType → Prop
  | scalar : NodeEvents [.scalar]
  | alias : NodeEvents [.alias]
  | sequence {items : List EventType} : ItemEvents items →
      NodeEvents (.sequenceStart :: (items ++ [.sequenceEnd]))
  | mapping {entries : List EventType} : EntryEvents entries →
      NodeEvents (.mappingStart :: (entries ++ [.mappingEnd]))

/-- The events of a sequence's items. -/
inductive ItemEvents : List EventType → Prop
  | nil : ItemEvents []
  | cons {item items : List EventType} : NodeEvents item → ItemEvents items →
      ItemEvents (item ++ items)

/-- The events of a mapping's entries, each with a key and a value. -/
inductive EntryEvents : List EventType → Prop
  | nil : EntryEvents []
  | cons {key value entries : List EventType} : NodeEvents key → NodeEvents value →
      EntryEvents entries → EntryEvents (key ++ (value ++ entries))

end

/-- The events of documents. -/
inductive DocumentEvents : List EventType → Prop
  | nil : DocumentEvents []
  | cons {root documents : List EventType} : NodeEvents root → DocumentEvents documents →
      DocumentEvents (.docStart :: (root ++ .docEnd :: documents))

/-- `STREAM_START (DOC_START node DOC_END)* STREAM_END` -/
def WellFormedStream (types : List EventType) : Prop :=
  ∃ documents, DocumentEvents documents ∧ types = .streamStart :: (documents ++ [.streamEnd])

/-! ### The automaton -/

/-- What an open construct waits for. -/
inductive Cell where
  | document
  | closed
  | items
  | key
  | value
  deriving DecidableEq, Repr

/-- A construct after one more node; a document has only one. -/
def Cell.filled : Cell → Option Cell
  | .document => some .closed
  | .closed => none
  | .items => some .items
  | .key => some .value
  | .value => some .key

/-- A place in a stream: in a document, the open constructs, innermost first. -/
inductive Place where
  | start
  | between
  | inside (cells : List Cell)
  | ended
  deriving DecidableEq, Repr

namespace Place

/-- A whole node in the innermost construct, which `opened` is put on. -/
def fill (opened : List Cell) : Place → Option Place
  | .inside (cell :: cells) => cell.filled.map fun cell => .inside (opened ++ cell :: cells)
  | _ => none

/-- The place after an event. -/
def feed (place : Place) : EventType → Option Place
  | .streamStart => if place = .start then some .between else none
  | .streamEnd => if place = .between then some .ended else none
  | .docStart => if place = .between then some (.inside [.document]) else none
  | .docEnd => if place = .inside [.closed] then some .between else none
  | .scalar | .alias => place.fill []
  | .sequenceStart => place.fill [.items]
  | .mappingStart => place.fill [.key]
  | .sequenceEnd =>
      match place with
      | .inside (.items :: cells) => some (.inside cells)
      | _ => none
  | .mappingEnd =>
      match place with
      | .inside (.key :: cells) => some (.inside cells)
      | _ => none
  | .none => none

def feedAll (place : Place) : List EventType → Option Place
  | [] => some place
  | type :: types => (place.feed type).bind fun next => next.feedAll types

/-- Number of open collections. -/
def depth : Place → Int
  | .inside cells => cells.length - 1
  | _ => 0

theorem feedAll_append (place : Place) (left right : List EventType) :
    place.feedAll (left ++ right) = (place.feedAll left).bind fun next => next.feedAll right := by
  induction left generalizing place with
  | nil => rfl
  | cons type types ih =>
      rw [List.cons_append, feedAll, feedAll, Option.bind_assoc]
      congr 1
      funext next
      exact ih next

theorem feedAll_trans {first last : Place} (next : Place) {left right : List EventType}
    (before : first.feedAll left = some next) (after : next.feedAll right = some last) :
    first.feedAll (left ++ right) = some last := by
  rw [feedAll_append, before, Option.bind_some, after]

theorem feedAll_singleton (place : Place) (type : EventType) :
    place.feedAll [type] = place.feed type := by
  rw [feedAll]
  cases place.feed type <;> rfl

end Place

/-! ### Accepted streams are derived -/

/-- What completes the open constructs of a document, and the stream. -/
def Completes : List Cell → List EventType → Prop
  | [], _ => False
  | .document :: _, types => ∃ root documents, NodeEvents root ∧ DocumentEvents documents ∧
      types = root ++ .docEnd :: (documents ++ [.streamEnd])
  | .closed :: _, types => ∃ documents, DocumentEvents documents ∧
      types = .docEnd :: (documents ++ [.streamEnd])
  | .items :: cells, types => ∃ items rest, ItemEvents items ∧ Completes cells rest ∧
      types = items ++ .sequenceEnd :: rest
  | .key :: cells, types => ∃ entries rest, EntryEvents entries ∧ Completes cells rest ∧
      types = entries ++ .mappingEnd :: rest
  | .value :: cells, types => ∃ value entries rest, NodeEvents value ∧ EntryEvents entries ∧
      Completes cells rest ∧ types = value ++ (entries ++ .mappingEnd :: rest)

/-- What completes a stream from a place on. -/
def Place.Completes : Place → List EventType → Prop
  | .start, types => WellFormedStream types
  | .between, types => ∃ documents, DocumentEvents documents ∧
      types = documents ++ [.streamEnd]
  | .inside cells, types => Oyl.Completes cells types
  | .ended, types => types = []

/-- A node goes before what completes the construct that it fills. -/
theorem Completes.node {cell cell' : Cell} {cells : List Cell} {node types : List EventType}
    (filled : cell.filled = some cell') (derived : NodeEvents node)
    (completes : Completes (cell' :: cells) types) :
    Completes (cell :: cells) (node ++ types) := by
  cases cell <;> cases filled
  · obtain ⟨documents, rest, rfl⟩ := completes
    exact ⟨node, documents, derived, rest, rfl⟩
  · obtain ⟨items, rest, derivedItems, after, rfl⟩ := completes
    exact ⟨node ++ items, rest, .cons derived derivedItems, after, by simp⟩
  · obtain ⟨value, entries, rest, derivedValue, derivedEntries, after, rfl⟩ := completes
    exact ⟨node ++ (value ++ entries), rest, .cons derived derivedValue derivedEntries, after,
      by simp⟩
  · obtain ⟨entries, rest, derivedEntries, after, rfl⟩ := completes
    exact ⟨node, entries, rest, derived, derivedEntries, after, rfl⟩

theorem Place.fill_eq_some {place next : Place} {opened : List Cell}
    (filled : place.fill opened = some next) :
    ∃ cell cell' cells, place = .inside (cell :: cells) ∧ cell.filled = some cell' ∧
      next = .inside (opened ++ cell' :: cells) := by
  cases place with
  | inside cells =>
      cases cells with
      | nil => cases filled
      | cons cell cells =>
          obtain ⟨cell', known, rfl⟩ := Option.map_eq_some_iff.mp filled
          exact ⟨cell, cell', cells, rfl, known, rfl⟩
  | start => cases filled
  | between => cases filled
  | ended => cases filled

theorem Place.Completes.feed {place next : Place} {type : EventType} {types : List EventType}
    (fed : place.feed type = some next) (completes : next.Completes types) :
    place.Completes (type :: types) := by
  cases type <;> simp only [Place.feed] at fed
  case none => cases fed
  case streamStart =>
    split at fed <;> cases fed
    subst place
    obtain ⟨documents, derived, rfl⟩ := completes
    exact ⟨documents, derived, rfl⟩
  case streamEnd =>
    split at fed <;> cases fed
    subst place
    obtain rfl : types = [] := completes
    exact ⟨[], .nil, rfl⟩
  case docStart =>
    split at fed <;> cases fed
    subst place
    obtain ⟨root, documents, derived, rest, rfl⟩ := completes
    exact ⟨.docStart :: (root ++ .docEnd :: documents), .cons derived rest, by simp⟩
  case docEnd =>
    split at fed <;> cases fed
    subst place
    obtain ⟨documents, derived, rfl⟩ := completes
    exact ⟨documents, derived, rfl⟩
  case scalar =>
    obtain ⟨cell, cell', cells, rfl, filled, rfl⟩ := Place.fill_eq_some fed
    exact Oyl.Completes.node filled .scalar completes
  case «alias» =>
    obtain ⟨cell, cell', cells, rfl, filled, rfl⟩ := Place.fill_eq_some fed
    exact Oyl.Completes.node filled .alias completes
  case sequenceStart =>
    obtain ⟨cell, cell', cells, rfl, filled, rfl⟩ := Place.fill_eq_some fed
    obtain ⟨items, rest, derived, after, rfl⟩ := completes
    have whole := Oyl.Completes.node filled (.sequence derived) after
    rw [List.cons_append, List.append_assoc] at whole
    exact whole
  case mappingStart =>
    obtain ⟨cell, cell', cells, rfl, filled, rfl⟩ := Place.fill_eq_some fed
    obtain ⟨entries, rest, derived, after, rfl⟩ := completes
    have whole := Oyl.Completes.node filled (.mapping derived) after
    rw [List.cons_append, List.append_assoc] at whole
    exact whole
  case sequenceEnd =>
    split at fed <;> cases fed
    exact ⟨[], types, .nil, completes, rfl⟩
  case mappingEnd =>
    split at fed <;> cases fed
    exact ⟨[], types, .nil, completes, rfl⟩

theorem Place.completes_of_feedAll {place : Place} {types : List EventType}
    (fed : place.feedAll types = some .ended) : place.Completes types := by
  induction types generalizing place with
  | nil =>
      cases fed
      rfl
  | cons type types ih =>
      obtain ⟨next, first, rest⟩ := Option.bind_eq_some_iff.mp fed
      exact Place.Completes.feed first (ih rest)

/-- A stream that the automaton accepts is derived by the grammar. -/
theorem wellFormed_of_feedAll {types : List EventType}
    (fed : Place.start.feedAll types = some .ended) : WellFormedStream types :=
  Place.completes_of_feedAll fed

/-! ### Derived streams are accepted -/

/-- The automaton takes these events as one node. -/
def TakesNode (types : List EventType) : Prop :=
  ∀ cell cell' cells, cell.filled = some cell' →
    (Place.inside (cell :: cells)).feedAll types = some (.inside (cell' :: cells))

/-- The automaton stays in this construct. -/
def StaysIn (cell : Cell) (types : List EventType) : Prop :=
  ∀ cells, (Place.inside (cell :: cells)).feedAll types = some (.inside (cell :: cells))

theorem takesNode_leaf {type : EventType} (fed : ∀ place : Place, place.feed type = place.fill []) :
    TakesNode [type] := by
  intro cell cell' cells filled
  rw [Place.feedAll_singleton, fed, Place.fill, filled]
  rfl

theorem takesNode_collection {first last : EventType} {inner : Cell} {types : List EventType}
    (opens : ∀ place : Place, place.feed first = place.fill [inner]) (stays : StaysIn inner types)
    (closes : ∀ cells, (Place.inside (inner :: cells)).feed last = some (.inside cells)) :
    TakesNode (first :: (types ++ [last])) := by
  intro cell cell' cells filled
  have opened : (Place.inside (cell :: cells)).feed first =
      some (.inside (inner :: cell' :: cells)) := by
    rw [opens, Place.fill, filled]
    rfl
  rw [Place.feedAll, opened, Option.bind_some]
  refine Place.feedAll_trans _ (stays (cell' :: cells)) ?_
  rw [Place.feedAll_singleton, closes]

theorem StaysIn.item {item items : List EventType} (node : TakesNode item)
    (stays : StaysIn .items items) : StaysIn .items (item ++ items) :=
  fun cells => Place.feedAll_trans _ (node .items .items cells rfl) (stays cells)

theorem StaysIn.entry {key value entries : List EventType} (first : TakesNode key)
    (second : TakesNode value) (stays : StaysIn .key entries) :
    StaysIn .key (key ++ (value ++ entries)) :=
  fun cells => Place.feedAll_trans _ (first .key .value cells rfl)
    (Place.feedAll_trans _ (second .value .key cells rfl) (stays cells))

theorem NodeEvents.takes {types : List EventType} (node : NodeEvents types) : TakesNode types :=
  @NodeEvents.rec (fun types _ => TakesNode types) (fun types _ => StaysIn .items types)
    (fun types _ => StaysIn .key types) (takesNode_leaf fun _ => rfl) (takesNode_leaf fun _ => rfl)
    (fun _ stays => takesNode_collection (fun _ => rfl) stays fun _ => rfl)
    (fun _ stays => takesNode_collection (fun _ => rfl) stays fun _ => rfl)
    (fun _ => rfl) (fun _ _ node stays => StaysIn.item node stays)
    (fun _ => rfl) (fun _ _ _ first second stays => StaysIn.entry first second stays) types node

theorem DocumentEvents.feedAll {types : List EventType} (documents : DocumentEvents types) :
    Place.between.feedAll types = some .between := by
  induction documents with
  | nil => rfl
  | cons root _ ih =>
      rw [Place.feedAll]
      exact Place.feedAll_trans (.inside [.closed]) (root.takes .document .closed [] rfl) ih

/-- The automaton accepts what the grammar derives. -/
theorem feedAll_of_wellFormed {types : List EventType} (wellFormed : WellFormedStream types) :
    Place.start.feedAll types = some .ended := by
  obtain ⟨documents, derived, rfl⟩ := wellFormed
  exact Place.feedAll_trans .between derived.feedAll rfl

/-! ### Trees -/

/-- A scalar or an alias; an alias carries no anchor. -/
structure NodeLeaf (evt : Event) : Prop where
  type : evt.type = .scalar ∨ evt.type = .alias
  bare : evt.type = .alias → evt.anchor = none

/-- A tree whose linear form is a node. -/
structure NodeTree (tree : Tree Event) : Prop where
  shaped : tree.Shaped NodeLeaf EventPair
  paired : tree.Paired

theorem NodeLeaf.leaf {evt : Event} (leaf : NodeLeaf evt) : EventLeaf evt where
  opens := by rcases leaf.type with type | type <;> rw [type] <;> rfl
  closes := by rcases leaf.type with type | type <;> rw [type] <;> rfl
  bare := leaf.bare

def Tree.types (tree : Tree Event) : List EventType := tree.flatten.map (·.type)

theorem Place.feed_leaf {evt : Event} (leaf : NodeLeaf evt) (place : Place) :
    place.feed evt.type = place.fill [] := by
  rcases leaf.type with type | type <;> rw [type] <;> rfl

namespace NodeTree

theorem child {start stop : Event} {children : List (Tree Event)}
    (node : NodeTree (.node start children stop)) : ∀ tree ∈ children, NodeTree tree := by
  intro tree member
  exact ⟨Tree.shapedList_iff.mp node.shaped.2 tree member,
    Tree.pairedList_iff.mp node.paired.2 tree member⟩

theorem sequence {start stop : Event} {children : List (Tree Event)}
    (isSeq : start.type = .sequenceStart) (pair : EventPair start stop)
    (nodes : ∀ tree ∈ children, NodeTree tree) : NodeTree (.node start children stop) where
  shaped := ⟨pair, Tree.shapedList_iff.mpr fun tree member => (nodes tree member).shaped⟩
  paired := ⟨fun isMap => absurd (isSeq.symm.trans isMap) (by decide),
    Tree.pairedList_iff.mpr fun tree member => (nodes tree member).paired⟩

theorem mapping {start stop : Event} {children : List (Tree Event)}
    (pair : EventPair start stop) (even : children.length % 2 = 0)
    (nodes : ∀ tree ∈ children, NodeTree tree) : NodeTree (.node start children stop) where
  shaped := ⟨pair, Tree.shapedList_iff.mpr fun tree member => (nodes tree member).shaped⟩
  paired := ⟨fun _ => even,
    Tree.pairedList_iff.mpr fun tree member => (nodes tree member).paired⟩

end NodeTree

/-- A construct after `n` more nodes. -/
def Cell.filledBy : Nat → Cell → Option Cell
  | 0, cell => some cell
  | n + 1, cell => cell.filled.bind (filledBy n)

theorem Cell.filledBy_items (n : Nat) : Cell.filledBy n .items = some .items := by
  induction n with
  | zero => rfl
  | succ n ih => exact ih

theorem Cell.filledBy_key (n : Nat) : Cell.filledBy (2 * n) .key = some .key := by
  induction n with
  | zero => rfl
  | succ n ih => exact ih

mutual

/-- The automaton takes a node as one. -/
theorem NodeTree.feedAll (tree : Tree Event) (node : NodeTree tree) {cell cell' : Cell}
    (filled : cell.filled = some cell') (cells : List Cell) :
    (Place.inside (cell :: cells)).feedAll tree.types = some (.inside (cell' :: cells)) := by
  cases tree with
  | leaf evt =>
      rw [Tree.types, Tree.flatten, List.map_singleton, Place.feedAll_singleton,
        Place.feed_leaf node.shaped, Place.fill, filled]
      rfl
  | node start children stop =>
      obtain ⟨opens, closes, _⟩ := node.shaped.1
      have split : (Tree.node start children stop).types =
          [start.type] ++ ((Tree.flattenList children).map (·.type) ++ [stop.type]) := by
        simp [Tree.types, Tree.flatten]
      have inner (opened : Cell) (whole : Cell.filledBy children.length opened = some opened) :=
        NodeTree.feedAllList children node.child whole (cell' :: cells)
      rw [split]
      cases type : start.type <;> rw [type] at opens closes <;> try cases opens
      · have even : 2 * (children.length / 2) = children.length := by
          have := node.paired.1 type
          omega
        refine Place.feedAll_trans (.inside (.key :: cell' :: cells)) ?_
          (Place.feedAll_trans _ (inner .key (even ▸ Cell.filledBy_key _)) ?_)
        · rw [Place.feedAll_singleton, Place.feed, Place.fill, filled]
          rfl
        · rw [closes]
          rfl
      · refine Place.feedAll_trans (.inside (.items :: cell' :: cells)) ?_
          (Place.feedAll_trans _ (inner .items (Cell.filledBy_items _)) ?_)
        · rw [Place.feedAll_singleton, Place.feed, Place.fill, filled]
          rfl
        · rw [closes]
          rfl

theorem NodeTree.feedAllList (trees : List (Tree Event)) (nodes : ∀ tree ∈ trees, NodeTree tree)
    {cell cell' : Cell} (filled : Cell.filledBy trees.length cell = some cell')
    (cells : List Cell) :
    (Place.inside (cell :: cells)).feedAll ((Tree.flattenList trees).map (·.type)) =
      some (.inside (cell' :: cells)) := by
  cases trees with
  | nil =>
      cases filled
      rfl
  | cons tree trees =>
      obtain ⟨next, first, others⟩ := Option.bind_eq_some_iff.mp filled
      rw [Tree.flattenList, List.map_append]
      exact Place.feedAll_trans _
        (NodeTree.feedAll tree (nodes tree List.mem_cons_self) first cells)
        (NodeTree.feedAllList trees (fun t member => nodes t (List.mem_cons_of_mem tree member))
          others cells)

end

end Oyl
