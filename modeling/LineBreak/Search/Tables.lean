-- What a search keeps: the layouts met so far, those still to be extended, and
-- two tables by which a new layout is dropped. One table holds the best layout
-- of each outlook, the other the least cost at which each marker was met.
import LineBreak.Event
import LineBreak.Search.Entry
import LineBreak.Search.Outlook
import LineBreak.Search.Slot
import Std.Data.TreeMap

namespace LineBreak

/-- A marker met after a number of splits. -/
structure Milestone where
  marker : Marker
  depth : Nat
  deriving DecidableEq

namespace Milestone

instance : Ord Milestone := ⟨compareLex (compareOn marker) (compareOn depth)⟩

instance : Std.TransOrd Milestone := inferInstanceAs (Std.TransCmp (compareLex _ _))

instance : Std.LawfulEqOrd Milestone where
  eq_of_compare {a b} h := by
    obtain ⟨hmarker, hdepth⟩ := Ordering.then_eq_eq.mp h
    cases a
    cases b
    simp_all [compareOn]

end Milestone

structure Search where
  tree : Tree
  /-- For each node the place of the split that it took last, in the offer of its slot. -/
  choices : Array Nat
  frontier : Heap Entry
  /-- The node kept for each outlook. -/
  best : Std.TreeMap Outlook NodeId
  /-- The least cost at which each milestone was met. -/
  cheapest : Std.TreeMap Milestone Cost
  expanded : Nat
  pruned : Nat
  events : Array Event

namespace Search

/-- The start is in the tree and in the frontier, and in no table. -/
def initial (events : Array Event) : Search where
  tree := Tree.initial
  choices := #[0]
  frontier := Heap.empty.push ⟨Layout.start.priority, NodeId.start⟩
  best := ∅
  cheapest := ∅
  expanded := 0
  pruned := 0
  events

def log (search : Search) (event : Event) : Search :=
  { search with events := search.events.push event }

/-- Tells that no split is admitted, where that is so. -/
def logConflict (search : Search) (slot : Slot) (layout : Layout) : Search :=
  if slot.admitted layout.constraints = [] then search.log (.constraintsIgnored layout.depth)
  else search

def store (search : Search) (node : Node) (choice : Nat) : Search × NodeId :=
  let (tree, id) := search.tree.store node
  ({ search with tree, choices := search.choices.push choice }, id)

/-- Another node has taken the place of `id` for its outlook. -/
def isSuperseded (search : Search) (id : NodeId) : Bool :=
  match search.best[(search.tree.get id).layout.outlook]? with
  | none => false
  | some kept => kept != id

/-! ## Taking up a new layout -/

/-- The milestone at which a layout arrives with its last split. -/
def milestone? (child : Layout) (split : Split) : Option Milestone :=
  match split.marker with
  | none => none
  | some marker =>
    if child.marks.Reached marker (child.depth - 1) then some ⟨marker, child.depth - 1⟩ else none

/-- The milestone was met before at no greater cost. -/
def isOutrun (search : Search) (child : Layout) (split : Split) : Bool :=
  match milestone? child split with
  | none => false
  | some milestone =>
    match search.cheapest[milestone]? with
    | none => false
    | some seen => seen ≤ child.cost

/-- Notes the cost at which the milestone is met now. -/
def noteMilestone (search : Search) (child : Layout) (split : Split) : Search :=
  match milestone? child split with
  | none => search
  | some milestone => { search with cheapest := search.cheapest.insert milestone child.cost }

/-- The node kept for the same outlook is at least as good. -/
def isDominated (search : Search) (child : Layout) : Bool :=
  match search.best[child.outlook]? with
  | none => false
  | some kept => (search.tree.get kept).layout.Dominates child

def prune (search : Search) : Search := { search with pruned := search.pruned + 1 }

/-- Stores a node, makes it the best of its outlook and puts it into the frontier. -/
def keep (search : Search) (child : Node) (choice : Nat) : Search :=
  let (search, id) := search.store child choice
  { search with
    best := search.best.insert child.layout.outlook id
    frontier := search.frontier.push ⟨child.layout.priority, id⟩ }

/-- Drops a node that is outrun or dominated and keeps any other. The cost at a milestone is
noted even if the node is then dominated. -/
def takeUp (search : Search) (child : Node) (split : Split) (choice : Nat) : Search :=
  if search.isOutrun child.layout split then search.prune
  else
    let search := search.noteMilestone child.layout split
    if search.isDominated child.layout then search.prune else search.keep child choice

/-- Takes up what becomes of a node by each of the options, until one is at fault. -/
def branch (limit : Limit) (node : Node) (boundary : Boundary) :
    List (Split × Nat) → Search → Search × Option Fault
  | [], search => (search, none)
  | (split, choice) :: options, search =>
    match node.next limit split boundary with
    | .error fault => (search, some fault)
    | .ok child => branch limit node boundary options (search.takeUp child split choice)

/-- Extends a node by every split it may take. -/
def expand (search : Search) (limit : Limit) (node : Node) (slot : Slot) : Search × Option Fault :=
  let search := { search with expanded := search.expanded + 1 }
  let search := search.log (.expanding node.layout.depth node.layout.cost)
  let search := search.logConflict slot node.layout
  branch limit node slot.boundary (slot.options node.layout.constraints) search

/-! ## Completing a layout -/

/-- Of two nodes the one of the higher priority, of equals the first. -/
def prefer (seen : Option (Node × Nat)) (child : Node) (choice : Nat) : Option (Node × Nat) :=
  match seen with
  | none => some (child, choice)
  | some (node, _) =>
    if compare child.layout.priority node.layout.priority = .gt then some (child, choice) else seen

/-- What becomes of a node by the option that gives it the highest priority. -/
def greediest (limit : Limit) (node : Node) (boundary : Boundary) (options : List (Split × Nat)) :
    Except Fault (Option (Node × Nat)) :=
  options.foldlM (fun seen option =>
    (node.next limit option.1 boundary).map (prefer seen · option.2)) none

/-- Fills the boundaries ahead one by one, each as it looks best. -/
def complete (limit : Limit) : List Slot → NodeId → Search → Search × Except Fault NodeId
  | [], id, search => (search, .ok id)
  | slot :: ahead, id, search =>
    let node := search.tree.get id
    let search := search.logConflict slot node.layout
    match greediest limit node slot.boundary (slot.options node.layout.constraints) with
    | .error fault => (search, .error fault)
    | .ok none => (search, .error (.exhausted search.expanded))
    | .ok (some (child, choice)) =>
      let (search, id) := search.store child choice
      complete limit ahead id search

end Search

end LineBreak
