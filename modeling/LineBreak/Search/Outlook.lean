-- What shapes the future of a layout besides its cost. Two layouts with one
-- outlook can go on in the same ways, so a search keeps one of them.
import LineBreak.Layout

namespace LineBreak

/-! ## Orders on the parts of an outlook

The order itself means nothing; it lets outlooks be the keys of a search tree. -/

namespace Side

instance : Ord Side := ⟨compareOn (· == right)⟩

instance : Std.TransOrd Side := inferInstanceAs (Std.TransCmp (compareOn (· == right)))

instance : Std.LawfulEqOrd Side where
  eq_of_compare {a b} h := by
    cases a <;> cases b
    · rfl
    · exact nomatch h
    · exact nomatch h
    · rfl

end Side

namespace Scope

instance : Ord Scope where
  compare := compareLex (compareOn length) (compareLex (compareOn side) (compareOn position))

instance : Std.TransOrd Scope := inferInstanceAs (Std.TransCmp (compareLex _ (compareLex _ _)))

instance : Std.LawfulEqOrd Scope where
  eq_of_compare {a b} h := by
    obtain ⟨hlength, hrest⟩ := Ordering.then_eq_eq.mp h
    obtain ⟨hside, hposition⟩ := Ordering.then_eq_eq.mp hrest
    cases a
    cases b
    simp_all [compareOn]

end Scope

namespace Constraint

/-- Whether the constraint asks for line breaks. -/
def isBroken : Constraint → Bool
  | unbroken _ => false
  | broken _ => true

instance : Ord Constraint := ⟨compareLex (compareOn isBroken) (compareOn reach)⟩

instance : Std.TransOrd Constraint := inferInstanceAs (Std.TransCmp (compareLex _ _))

instance : Std.LawfulEqOrd Constraint where
  eq_of_compare {a b} h := by
    obtain ⟨hkind, hreach⟩ := Ordering.then_eq_eq.mp h
    cases a <;> cases b <;> simp_all [compareOn, isBroken, reach]

end Constraint

/-! ## Outlooks -/

structure Outlook where
  depth : Nat
  column : Width
  constraints : Constraints
  /-- The scopes in force, without where they were opened. -/
  scopes : List Scope
  deriving DecidableEq

namespace Outlook

instance : Ord Outlook where
  compare := compareLex (compareOn depth) (compareLex (compareOn column)
    (compareLex (compareOn constraints) (compareOn scopes)))

instance : Std.TransOrd Outlook :=
  inferInstanceAs (Std.TransCmp (compareLex _ (compareLex _ (compareLex _ _))))

instance : Std.LawfulEqOrd Outlook where
  eq_of_compare {a b} h := by
    obtain ⟨hdepth, h⟩ := Ordering.then_eq_eq.mp h
    obtain ⟨hcolumn, h⟩ := Ordering.then_eq_eq.mp h
    obtain ⟨hconstraints, hscopes⟩ := Ordering.then_eq_eq.mp h
    cases a
    cases b
    simp_all [compareOn]

end Outlook

def Layout.outlook (layout : Layout) : Outlook :=
  ⟨layout.depth, layout.column, layout.constraints, layout.scopes.map (·.scope)⟩

end LineBreak
