-- Splits: the ways to fill a boundary that are on offer, each with its cost,
-- the indentation it opens and what it asks of the rest of the path.
import LineBreak.Constraint
import LineBreak.Scope

namespace LineBreak

/-- A tag on splits after which the cheapest path so far is known to be the best one. -/
abbrev Marker := Nat

structure Split where
  filling : Filling
  cost : Cost
  scopes : List Scope := []
  constraint : Option Constraint := none
  marker : Option Marker := none
  deriving DecidableEq

namespace Split

def space (cost : Cost) : Split := ⟨.space, cost, [], none, none⟩

def newline (cost : Cost) : Split := ⟨.newline false false, cost, [], none, none⟩

def nothing (cost : Cost) : Split := ⟨.nothing, cost, [], none, none⟩

def literal (text : String) (cost : Cost) : Split := ⟨.literal text, cost, [], none, none⟩

/-- Adds an empty line to a line break. -/
def withBlankLine (split : Split) : Split :=
  match split.filling with
  | .newline _ noIndent => { split with filling := .newline true noIndent }
  | _ => split

/-- Leaves the indentation out after a line break. -/
def withoutIndent (split : Split) : Split :=
  match split.filling with
  | .newline blankLine _ => { split with filling := .newline blankLine true }
  | _ => split

def withScope (split : Split) (scope : Scope) : Split :=
  { split with scopes := split.scopes ++ [scope] }

def withConstraint (split : Split) (constraint : Constraint) : Split :=
  { split with constraint := some constraint }

def withMarker (split : Split) (marker : Marker) : Split := { split with marker := some marker }

def withCost (split : Split) (cost : Cost) : Split := { split with cost }

def isNewline (split : Split) : Bool := split.filling.isNewline

def width (split : Split) : Width := split.filling.width

/-- All scopes that the split opens are live where it opens them. -/
def OpensAt (split : Split) (boundary : Boundary) : Prop :=
  ∀ scope ∈ split.scopes, scope.LiveAt boundary

instance (split : Split) (boundary : Boundary) : Decidable (split.OpensAt boundary) :=
  inferInstanceAs (Decidable (∀ scope ∈ split.scopes, scope.LiveAt boundary))

end Split

end LineBreak
