-- Indentation scopes: columns added to the indentation of the lines that start
-- while the scope is live. A scope ends at a source position.
import LineBreak.Boundary

namespace LineBreak

/-- The token of a boundary that a scope watches. -/
inductive Side where
  | left
  | right
  deriving DecidableEq

/-- Where the watched token ends. -/
def Side.stop (side : Side) (boundary : Boundary) : Nat :=
  match side with
  | .left => boundary.left.stop
  | .right => boundary.right.stop

structure Scope where
  /-- The columns the scope adds. -/
  length : Width
  side : Side
  /-- The last source position at which the watched token may end. -/
  position : Nat
  deriving DecidableEq

namespace Scope

/-- A scope is live as long as the watched token ends no later than its position. -/
def LiveAt (scope : Scope) (boundary : Boundary) : Prop := scope.side.stop boundary ≤ scope.position

instance (scope : Scope) (boundary : Boundary) : Decidable (scope.LiveAt boundary) :=
  inferInstanceAs (Decidable (scope.side.stop boundary ≤ scope.position))

/-- The scope that is live up to and with `boundary`. -/
def through (length : Width) (side : Side) (boundary : Boundary) : Scope :=
  ⟨length, side, side.stop boundary⟩

end Scope

/-- A scope in force, with the column and the indentation at which it was opened. -/
structure OpenScope where
  scope : Scope
  column : Width
  indentation : Width
  deriving DecidableEq

/-- The columns that open scopes add up to. -/
def OpenScope.total (scopes : List OpenScope) : Width :=
  (scopes.map (·.scope.length)).foldl (· + ·) 0

end LineBreak
