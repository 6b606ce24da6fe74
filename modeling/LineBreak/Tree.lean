-- The tree of layouts that a search or a caller builds up: every layout but
-- the start is stored with a link to the one it extends, so a path is read
-- back by climbing.
import LineBreak.Layout

namespace LineBreak

/-- The place of a node in its tree. -/
abbrev NodeId := Nat

namespace NodeId

def start : NodeId := 0

/-- The 32-bit number that stands for no node. -/
def absentCode : Nat := 4294967295

def ofCode? (code : Nat) : Option NodeId := if code = absentCode then none else some code

/-- How an id, or the lack of one, is shown. -/
def describe : Option NodeId → String
  | some id => s!"StateId({id})"
  | none => "StateId::INVALID"

end NodeId

/-- A layout, with its own id once it is stored and the id of the layout it extends. -/
structure Node where
  id : Option NodeId
  parent : Option NodeId
  layout : Layout
  deriving DecidableEq

namespace Node

def start : Node := ⟨none, none, Layout.start⟩

/-- The node with one more boundary filled, not yet stored. -/
def next (node : Node) (limit : Limit) (split : Split) (boundary : Boundary) : Except Fault Node :=
  (node.layout.step limit split boundary).map (⟨none, node.id, ·⟩)

end Node

structure Tree where
  nodes : Array Node
  deriving DecidableEq

namespace Tree

def size (tree : Tree) : Nat := tree.nodes.size

def get? (tree : Tree) (id : NodeId) : Option Node := tree.nodes[id]?

/-- The node with that id; the start where there is none. -/
def get (tree : Tree) (id : NodeId) : Node := (tree.get? id).getD Node.start

/-- Stores a node under the next id. -/
def store (tree : Tree) (node : Node) : Tree × NodeId :=
  let id := tree.size
  (⟨tree.nodes.push { node with id := some id }⟩, id)

@[simp]
theorem size_store (tree : Tree) (node : Node) : (tree.store node).1.size = tree.size + 1 := by
  simp [store, size]

@[simp]
theorem store_snd (tree : Tree) (node : Node) : (tree.store node).2 = tree.size := rfl

/-- Storing a node changes no other. -/
theorem get?_store (tree : Tree) (node : Node) (id : NodeId) :
    (tree.store node).1.get? id =
      if id = tree.size then some { node with id := some id } else tree.get? id := by
  unfold store get?
  rw [Array.getElem?_push]
  by_cases h : id = tree.size
  · subst h
    simp [size]
  · simp [h, show ¬ id = tree.nodes.size from h]

theorem get_store_of_lt {tree : Tree} {id : NodeId} (node : Node) (h : id < tree.size) :
    (tree.store node).1.get id = tree.get id := by
  unfold get
  rw [get?_store, if_neg (Nat.ne_of_lt h)]

theorem get_store_size (tree : Tree) (node : Node) :
    (tree.store node).1.get tree.size = { node with id := some tree.size } := by
  unfold get
  rw [get?_store, if_pos rfl]
  rfl

/-- The tree that holds the start alone. -/
def initial : Tree := (store ⟨#[]⟩ Node.start).1

/-- Extends a stored node and stores the result. -/
def next (tree : Tree) (id : NodeId) (limit : Limit) (split : Split) (boundary : Boundary) :
    Except Fault (Tree × NodeId) :=
  ((tree.get id).next limit split boundary).map tree.store

/-! ## Reading paths back -/

/-- The first `count` ids above `id`, the parent first. -/
def climb (tree : Tree) : Nat → NodeId → List NodeId
  | 0, _ => []
  | count + 1, id =>
    match (tree.get id).parent with
    | none => []
    | some parent => parent :: tree.climb count parent

/-- The ids from the start to the parent. A node has as many ancestors as boundaries filled. -/
def ancestors (tree : Tree) (id : NodeId) : List NodeId :=
  (tree.climb (tree.get id).layout.depth id).reverse

/-- The ids from the start to the node itself. -/
def path (tree : Tree) (id : NodeId) : List NodeId := tree.ancestors id ++ [id]

/-- The last split of `id`, then those of the nodes above it, `count` at most. It ends at a node
without a last split or without a parent. -/
def unwind (tree : Tree) : Nat → NodeId → List Split
  | 0, _ => []
  | count + 1, id =>
    match (tree.get id).layout.last with
    | none => []
    | some split =>
      match (tree.get id).parent with
      | none => [split]
      | some parent => split :: tree.unwind count parent

/-- The splits taken from the start to the node, with what their lines cost on top. -/
def history (tree : Tree) (id : NodeId) : List Split :=
  (tree.unwind (tree.get id).layout.depth id).reverse

end Tree

end LineBreak
