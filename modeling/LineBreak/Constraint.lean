-- Constraints on the splits that may follow: a stretch of source is kept on
-- one line, or every boundary in it breaks the line.
import LineBreak.Boundary
import LineBreak.Filling

namespace LineBreak

inductive Constraint where
  /-- No line break up to the source position `reach`. -/
  | unbroken (reach : Nat)
  /-- Only line breaks up to the source position `reach`. -/
  | broken (reach : Nat)
  deriving DecidableEq

namespace Constraint

def reach : Constraint → Nat
  | unbroken position => position
  | broken position => position

def Covers (constraint : Constraint) (boundary : Boundary) : Prop :=
  boundary.left.stop ≤ constraint.reach

instance (constraint : Constraint) (boundary : Boundary) : Decidable (constraint.Covers boundary) :=
  inferInstanceAs (Decidable (boundary.left.stop ≤ constraint.reach))

/-- Whether a filling keeps the constraint where the constraint holds. -/
def permits (constraint : Constraint) (filling : Filling) : Bool :=
  match constraint with
  | unbroken _ => !filling.isNewline
  | broken _ => filling.isNewline

/-- A constraint admits everything at the boundaries it does not cover. -/
def admits (constraint : Constraint) (filling : Filling) (boundary : Boundary) : Bool :=
  if constraint.Covers boundary then constraint.permits filling else true

theorem admits_eq_true_iff {constraint : Constraint} {filling : Filling} {boundary : Boundary} :
    constraint.admits filling boundary = true ↔
      (constraint.Covers boundary → constraint.permits filling = true) := by
  unfold admits
  by_cases h : constraint.Covers boundary <;> simp [h]

end Constraint

/-- The constraints in force on a path, oldest first. -/
abbrev Constraints := List Constraint

namespace Constraints

/-- Takes up a new constraint and lets go of those that end before `cutoff`. A constraint
already in force is not taken up twice. -/
def combine (constraints : Constraints) (added : Option Constraint) (cutoff : Nat) : Constraints :=
  let kept := constraints.filter (cutoff ≤ ·.reach)
  match added with
  | none => kept
  | some constraint =>
    if cutoff ≤ constraint.reach ∧ constraint ∉ kept then kept ++ [constraint] else kept

def admits (constraints : Constraints) (filling : Filling) (boundary : Boundary) : Bool :=
  constraints.all (·.admits filling boundary)

end Constraints

end LineBreak
