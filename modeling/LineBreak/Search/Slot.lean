-- The input of a search: boundaries, each with the splits on offer, what makes
-- such a list well formed, and the limit a search of it runs under.
import LineBreak.Layout

namespace LineBreak

/-- A boundary and the splits on offer there. -/
structure Slot where
  boundary : Boundary
  splits : List Split
  deriving DecidableEq

namespace Slot

/-- The splits with their places in the offer. -/
def numbered (slot : Slot) : List (Split × Nat) := slot.splits.zipIdx

/-- The splits that constraints admit. -/
def admitted (slot : Slot) (constraints : Constraints) : List (Split × Nat) :=
  slot.numbered.filter fun option => constraints.admits option.1.filling slot.boundary

/-- The splits to choose from. Constraints that leave none are ignored, since the boundary
has to be filled. -/
def options (slot : Slot) (constraints : Constraints) : List (Split × Nat) :=
  if slot.admitted constraints = [] then slot.numbered else slot.admitted constraints

/-- The cost of the dearest split. -/
def dearest (slot : Slot) : Cost := (slot.splits.map (·.cost)).foldl max 0

/-- Checks slots from the one numbered `index` on: each offers a split, its tokens are in
order, and its left token ends no earlier than the one before. -/
def checkFrom (index previous : Nat) : List Slot → Except Fault Unit
  | [] => .ok ()
  | slot :: slots =>
    if slot.splits = [] then .error (.noSplits index)
    else if ¬ slot.boundary.Ordered ∨ slot.boundary.left.stop < previous then
      .error (.tokenOrder index)
    else checkFrom (index + 1) slot.boundary.left.stop slots

def check (slots : List Slot) : Except Fault Unit := checkFrom 0 0 slots

def boundaries (slots : List Slot) : List Boundary := slots.map (·.boundary)

/-- One more than the dearest splits cost together, so no path that stays within the width
costs more. -/
def penaltyFloor (slots : List Slot) : Cost := (slots.map dearest).foldl (· + ·) 0 + 1

/-- The limit of a search: no path that stays within the width costs more than one that
does not. -/
def effectiveLimit (slots : List Slot) (settings : Settings) : Except Fault Limit :=
  settings.limit.map (·.raisePenalty (penaltyFloor slots))

end Slot

end LineBreak
