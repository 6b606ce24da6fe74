-- The entries of a search's frontier. The greatest is taken up first: the
-- layout of the highest priority, and of equals the one stored first.
import LineBreak.Heap
import LineBreak.Priority
import LineBreak.Tree

namespace LineBreak

structure Entry where
  priority : Priority
  id : NodeId
  deriving DecidableEq

namespace Entry

instance : Ord Entry := ⟨compareLex (compareOn priority) (fun a b => compare b.id a.id)⟩

instance : Std.TransCmp (fun a b : Entry => compare b.id a.id) :=
  inferInstanceAs (Std.TransCmp (fun a b => compareOn id b a))

instance : Std.TransOrd Entry := inferInstanceAs (Std.TransCmp (compareLex _ _))

instance : Std.LawfulEqOrd Entry where
  eq_of_compare {a b} h := by
    obtain ⟨hpriority, hid⟩ := Ordering.then_eq_eq.mp h
    cases a
    cases b
    simp_all [compareOn]

variable {entry other : Entry}

theorem compare_eq_gt_iff : compare entry other = .gt ↔
    entry.priority.Before other.priority ∨
      entry.priority = other.priority ∧ entry.id < other.id := by
  show (compare entry.priority other.priority).then (compare other.id entry.id) = .gt ↔ _
  rw [Ordering.then_eq_gt, Priority.compare_eq_gt_iff, Std.compare_eq_iff_eq, Nat.compare_eq_gt]

end Entry

end LineBreak
