-- The searches on offer: the cheapest layout of a list of slots, its text, and
-- what the search tells on its way.
import LineBreak.Rendering
import LineBreak.Search.Run

namespace LineBreak

structure Solution where
  /-- One split for each slot, as it was offered. -/
  splits : List Split
  cost : Cost
  ending : Ending
  expanded : Nat
  /-- The limit that the search ran under. -/
  limit : Limit
  deriving DecidableEq

/-- The events of a search, and its solution or the fault that ended it. -/
structure Report where
  events : Array Event
  result : Except Fault Solution

namespace Search

/-- The split that a stored node took last, as it was offered. -/
def choice? (search : Search) (slots : Array Slot) (id : NodeId) : Option Split := do
  let slot ← slots[(search.tree.get id).layout.depth - 1]?
  let choice ← search.choices[id]?
  slot.splits[choice]?

/-- The path to a node as a solution. -/
def solution (search : Search) (problem : Problem) (id : NodeId) (ending : Ending) : Solution where
  splits := (search.tree.path id).tail.filterMap (search.choice? problem.slots)
  cost := (search.tree.get id).layout.cost
  ending
  expanded := search.expanded
  limit := problem.limit

end Search

namespace Solution

def isOptimal (solution : Solution) : Bool := solution.ending == .optimal

/-- Fills the slots with the splits chosen. -/
def rendering (solution : Solution) (slots : List Slot) : Except Fault Rendering :=
  Rendering.ofPath (Slot.boundaries slots) solution.splits solution.limit

end Solution

namespace Report

/-- What is told before a search starts. -/
def preamble (slots : List Slot) (settings : Settings) (limit : Limit) : Array Event :=
  let started := Event.searchStarted slots.length limit.width limit.penalty
  let floor := Slot.penaltyFloor slots
  if settings.overflowPenalty < floor then #[.penaltyRaised settings.overflowPenalty floor, started]
  else #[started]

/-- What is told after a search that found a solution. -/
def finished (search : Search) (solution : Solution) : Event :=
  .searchFinished solution.cost solution.expanded search.pruned search.tree.size solution.isOptimal

/-- Searches well-formed slots under a limit. -/
def ofProblem (problem : Problem) (cap : Nat) (told : Array Event) : Report :=
  match (Search.initial told).run problem cap with
  | (search, .error fault) => ⟨search.events, .error fault⟩
  | (search, .ok (id, ending)) =>
    let solution := search.solution problem id ending
    ⟨search.events.push (finished search solution), .ok solution⟩

/-- Searches the cheapest way to fill the slots. -/
def ofSlots (slots : List Slot) (settings : Settings) : Report :=
  match Slot.check slots, Slot.effectiveLimit slots settings with
  | .error fault, _ => ⟨#[], .error fault⟩
  | .ok (), .error fault => ⟨#[], .error fault⟩
  | .ok (), .ok limit =>
    ofProblem ⟨slots.toArray, limit⟩ settings.maxExpansions (preamble slots settings limit)

end Report

/-- The cheapest way to fill the slots, as far as the settings allow. -/
def search (slots : List Slot) (settings : Settings) : Except Fault Solution :=
  (Report.ofSlots slots settings).result

/-- Searches streams of slots, one by one. -/
def searchAll (streams : List (List Slot)) (settings : Settings) : List (Except Fault Solution) :=
  streams.map (search · settings)

/-- The text of the cheapest layout. -/
def format (slots : List Slot) (settings : Settings) : Except Fault String := do
  let solution ← search slots settings
  let rendering ← solution.rendering slots
  return rendering.text (Slot.boundaries slots)

end LineBreak
