-- The markers met on a path, each with the depths at which it was met. Markers
-- and depths stand in increasing order.
import LineBreak.Split

namespace LineBreak

/-- Puts a number at its place in an increasing list, unless it is there. -/
def insertIncreasing (n : Nat) : List Nat → List Nat
  | [] => [n]
  | m :: rest =>
    if n < m then n :: m :: rest
    else if n = m then m :: rest
    else m :: insertIncreasing n rest

theorem mem_insertIncreasing {n k : Nat} {ns : List Nat} :
    k ∈ insertIncreasing n ns ↔ k = n ∨ k ∈ ns := by
  induction ns with
  | nil => simp [insertIncreasing]
  | cons m rest ih =>
    unfold insertIncreasing
    split
    · simp
    · split
      · rename_i heq
        subst heq
        simp
      · simp only [List.mem_cons, ih]
        exact or_left_comm

abbrev Marks := List (Marker × List Nat)

namespace Marks

def record (marker : Marker) (depth : Nat) : Marks → Marks
  | [] => [(marker, [depth])]
  | (other, depths) :: rest =>
    if marker < other then (marker, [depth]) :: (other, depths) :: rest
    else if marker = other then (other, insertIncreasing depth depths) :: rest
    else (other, depths) :: record marker depth rest

/-- The depths at which a marker was met. -/
def depths (marks : Marks) (marker : Marker) : List Nat := (marks.lookup marker).getD []

/-- The marker was met after exactly `depth` splits. -/
def Reached (marks : Marks) (marker : Marker) (depth : Nat) : Prop := depth ∈ marks.depths marker

instance (marks : Marks) (marker : Marker) (depth : Nat) : Decidable (marks.Reached marker depth) :=
  inferInstanceAs (Decidable (depth ∈ marks.depths marker))

end Marks

end LineBreak
