-- The order in which a search takes up layouts: the cheaper first, then the
-- one with more boundaries filled, then the one with less indentation.
import LineBreak.Layout

namespace LineBreak

/-- Of two priorities the greater one comes first. -/
structure Priority where
  cost : Cost
  depth : Nat
  indentation : Width
  deriving DecidableEq

namespace Priority

instance : Ord Priority where
  compare := compareLex (fun a b => compare b.cost a.cost)
    (compareLex (compareOn depth) (fun a b => compare b.indentation a.indentation))

instance : Std.TransCmp (fun a b : Priority => compare b.cost a.cost) :=
  inferInstanceAs (Std.TransCmp (fun a b => compareOn cost b a))

instance : Std.TransCmp (fun a b : Priority => compare b.indentation a.indentation) :=
  inferInstanceAs (Std.TransCmp (fun a b => compareOn indentation b a))

instance : Std.TransOrd Priority :=
  inferInstanceAs (Std.TransCmp (compareLex _ (compareLex _ _)))

instance : Std.LawfulEqOrd Priority where
  eq_of_compare {a b} h := by
    obtain ⟨hcost, hrest⟩ := Ordering.then_eq_eq.mp h
    obtain ⟨hdepth, hindentation⟩ := Ordering.then_eq_eq.mp hrest
    cases a
    cases b
    simp_all [compareOn]

/-- The first costs less, or as much and is deeper, or is as deep too and less indented. -/
def Before (p q : Priority) : Prop :=
  p.cost < q.cost ∨ p.cost = q.cost ∧
    (q.depth < p.depth ∨ p.depth = q.depth ∧ p.indentation < q.indentation)

theorem compare_eq_gt_iff {p q : Priority} : compare p q = .gt ↔ p.Before q := by
  have hcost : compare q.cost p.cost = .gt ↔ p.cost < q.cost := Nat.compare_eq_gt
  have hindentation : compare q.indentation p.indentation = .gt ↔ p.indentation < q.indentation :=
    Nat.compare_eq_gt
  show (compare q.cost p.cost).then ((compare p.depth q.depth).then
    (compare q.indentation p.indentation)) = .gt ↔ _
  rw [Ordering.then_eq_gt, Ordering.then_eq_gt, hcost, hindentation, Nat.compare_eq_gt,
    Nat.compare_eq_eq, Std.compare_eq_iff_eq, eq_comm (a := q.cost)]
  rfl

end Priority

def Layout.priority (layout : Layout) : Priority := ⟨layout.cost, layout.depth, layout.indentation⟩

end LineBreak
