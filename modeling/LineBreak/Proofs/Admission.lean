-- Letting go of constraints loses nothing. A constraint that ends before a
-- cutoff covers no boundary past the cutoff, so what is kept admits there just
-- what all constraints ever passed admit.
import LineBreak.Proofs.Outcome
import Mathlib.Data.List.Nodup

namespace LineBreak

/-- A constraint that ended before the boundary admits everything there. -/
theorem Constraint.admits_of_reach_lt {constraint : Constraint} {boundary : Boundary}
    (h : constraint.reach < boundary.left.stop) (filling : Filling) :
    constraint.admits filling boundary = true := by
  rw [admits_eq_true_iff]
  intro hcovers
  exact absurd hcovers (Nat.not_le_of_lt h)

namespace Constraints

variable {constraints : Constraints} {added : Option Constraint} {cutoff : Nat}
  {constraint : Constraint} {filling : Filling} {boundary : Boundary}

theorem admits_iff : constraints.admits filling boundary = true ↔
    ∀ constraint ∈ constraints, constraint.admits filling boundary = true := by
  simp [admits]

/-! ## Taking up one constraint -/

theorem mem_combine : constraint ∈ constraints.combine added cutoff ↔
    cutoff ≤ constraint.reach ∧ (constraint ∈ constraints ∨ added = some constraint) := by
  cases added with
  | none => simp [combine, and_comm]
  | some new =>
    simp only [combine]
    split
    · grind
    · grind

theorem nodup_combine (h : constraints.Nodup) (added : Option Constraint) (cutoff : Nat) :
    (constraints.combine added cutoff).Nodup := by
  have hkept := h.filter (cutoff ≤ ·.reach)
  cases added with
  | none => exact hkept
  | some new =>
    simp only [combine]
    split
    · rename_i hnew
      exact hkept.append (List.nodup_singleton new) (List.disjoint_singleton.mpr hnew.2)
    · exact hkept

theorem combine_sublist (constraints : Constraints) (added : Option Constraint) (cutoff : Nat) :
    (constraints.combine added cutoff).Sublist (constraints ++ added.toList) := by
  have hkept : (constraints.filter (cutoff ≤ ·.reach)).Sublist constraints := List.filter_sublist
  cases added with
  | none => simp [combine]
  | some new =>
    simp only [combine]
    split
    · exact hkept.append (List.Sublist.refl _)
    · exact hkept.trans (List.sublist_append_left _ _)

/-- Past the cutoff, the constraints in force admit what they did, as far as the new one does. -/
theorem admits_combine (h : cutoff ≤ boundary.left.stop) :
    (constraints.combine added cutoff).admits filling boundary = true ↔
      constraints.admits filling boundary = true ∧
        ∀ constraint ∈ added, constraint.admits filling boundary = true := by
  rw [admits_iff, admits_iff]
  constructor
  · intro hadmits
    -- a constraint that was in force or is new admits the filling, kept or not
    have hall (constraint : Constraint)
        (hmem : constraint ∈ constraints ∨ added = some constraint) :
        constraint.admits filling boundary = true := by
      by_cases hreach : cutoff ≤ constraint.reach
      · exact hadmits constraint (mem_combine.mpr ⟨hreach, hmem⟩)
      · exact constraint.admits_of_reach_lt (by omega) filling
    exact ⟨fun constraint hmem => hall constraint (.inl hmem),
      fun constraint hmem => hall constraint (.inr hmem)⟩
  · rintro ⟨hold, hnew⟩ constraint hmem
    rcases (mem_combine.mp hmem).2 with hmem | hmem
    · exact hold constraint hmem
    · exact hnew constraint hmem

/-! ## Taking up many -/

/-- The constraints in force after a list of calls, each with the constraint that it passes, if
any, and its cutoff. -/
def combineAll (constraints : Constraints) (calls : List (Option Constraint × Nat)) :
    Constraints :=
  calls.foldl (fun constraints call => constraints.combine call.1 call.2) constraints

/-- The constraints that the calls pass. -/
def passed (calls : List (Option Constraint × Nat)) : List Constraint := calls.filterMap (·.1)

variable {calls : List (Option Constraint × Nat)}

theorem nodup_combineAll (h : constraints.Nodup) (calls : List (Option Constraint × Nat)) :
    (constraints.combineAll calls).Nodup := by
  induction calls generalizing constraints with
  | nil => exact h
  | cons call calls ih => exact ih (nodup_combine h call.1 call.2)

theorem combineAll_sublist (constraints : Constraints) (calls : List (Option Constraint × Nat)) :
    (constraints.combineAll calls).Sublist (constraints ++ passed calls) := by
  induction calls generalizing constraints with
  | nil => simp [combineAll, passed]
  | cons call calls ih =>
    have hfirst := combine_sublist constraints call.1 call.2
    have hpassed : passed (call :: calls) = call.1.toList ++ passed calls := by
      cases hcall : call.1 <;> simp [passed, hcall]
    rw [hpassed, ← List.append_assoc]
    exact (ih _).trans (hfirst.append (List.Sublist.refl _))

/-- No constraint in force ends before the last cutoff. -/
theorem le_reach_of_mem_combineAll {call : Option Constraint × Nat}
    (hcall : calls.getLast? = some call) (h : constraint ∈ constraints.combineAll calls) :
    call.2 ≤ constraint.reach := by
  obtain ⟨earlier, rfl⟩ := List.getLast?_eq_some_iff.mp hcall
  unfold combineAll at h
  rw [List.foldl_append] at h
  exact (mem_combine.mp h).1

/-- Past all cutoffs, the constraints in force admit what the first ones and all that were passed
admit. -/
theorem admits_combineAll (h : ∀ call ∈ calls, call.2 ≤ boundary.left.stop) :
    (constraints.combineAll calls).admits filling boundary = true ↔
      constraints.admits filling boundary = true ∧
        ∀ constraint ∈ passed calls, constraint.admits filling boundary = true := by
  induction calls generalizing constraints with
  | nil => simp [combineAll, passed]
  | cons call calls ih =>
    obtain ⟨hcall, hcalls⟩ := List.forall_mem_cons.mp h
    show ((constraints.combine call.1 call.2).combineAll calls).admits filling boundary = true ↔ _
    rw [ih hcalls, admits_combine hcall]
    cases hpassed : call.1 <;> simp [passed, hpassed, and_assoc]

end Constraints

/-! ## Along a path -/

/-- What each step of a path passes on: the constraint of its split, with the end of the left token
as the cutoff. -/
def Layout.calls (path : List (Boundary × Split)) : List (Option Constraint × Nat) :=
  path.map fun step => (step.2.constraint, step.1.left.stop)

theorem Layout.constraints_of_follow {limit : Limit} {layout after : Layout}
    {path : List (Boundary × Split)} (h : layout.follow limit path = .ok after) :
    after.constraints = layout.constraints.combineAll (calls path) := by
  induction path generalizing layout with
  | nil =>
    cases h
    rfl
  | cons step path ih => exact ih (follow_cons_eq_ok h)

/-- In well-formed slots, left tokens never end before earlier ones. -/
theorem Slot.pairwise_of_checkFrom {slots : List Slot} {index previous : Nat}
    (h : checkFrom index previous slots = .ok ()) :
    (∀ slot ∈ slots, previous ≤ slot.boundary.left.stop) ∧
      slots.Pairwise fun slot later => slot.boundary.left.stop ≤ later.boundary.left.stop := by
  induction slots generalizing index previous with
  | nil => simp
  | cons first slots ih =>
    obtain ⟨_, _, hprevious, hrest⟩ := checkFrom_cons_eq_ok_iff.mp h
    obtain ⟨hlater, hsorted⟩ := ih hrest
    refine ⟨List.forall_mem_cons.mpr ⟨hprevious, ?_⟩, List.pairwise_cons.mpr ⟨hlater, hsorted⟩⟩
    intro slot hslot
    exact Nat.le_trans hprevious (hlater slot hslot)

theorem Slot.stop_le_of_check {filled rest : List Slot} {next : Slot}
    (h : check (filled ++ next :: rest) = .ok ()) :
    ∀ slot ∈ filled, slot.boundary.left.stop ≤ next.boundary.left.stop := by
  have hsorted := (pairwise_of_checkFrom h).2
  intro slot hslot
  exact (List.pairwise_append.mp hsorted).2.2 slot hslot next List.mem_cons_self

/-- At a boundary that no left token of the path ends past, the constraints of the layout admit what
those of all splits taken admit. -/
theorem Layout.admits_of_follow {limit : Limit} {layout : Layout} {path : List (Boundary × Split)}
    {boundary : Boundary} (h : start.follow limit path = .ok layout)
    (hstops : ∀ step ∈ path, step.1.left.stop ≤ boundary.left.stop) (filling : Filling) :
    layout.constraints.admits filling boundary = true ↔
      ∀ step ∈ path, ∀ constraint ∈ step.2.constraint,
        constraint.admits filling boundary = true := by
  have hcutoffs : ∀ call ∈ calls path, call.2 ≤ boundary.left.stop :=
    List.forall_mem_map.mpr hstops
  have hpassed : Constraints.passed (calls path) = path.filterMap (·.2.constraint) := by
    simp [Constraints.passed, calls, List.filterMap_map]
  rw [constraints_of_follow h, Constraints.admits_combineAll hcutoffs, hpassed]
  constructor
  · rintro ⟨_, hall⟩ step hstep constraint hconstraint
    exact hall constraint (List.mem_filterMap.mpr ⟨step, hstep, hconstraint⟩)
  · intro hall
    refine ⟨rfl, ?_⟩
    intro constraint hconstraint
    obtain ⟨step, hstep, hcarries⟩ := List.mem_filterMap.mp hconstraint
    exact hall step hstep constraint hcarries

/-- Letting go of constraints loses nothing. However constraints are passed and whatever the
cutoffs, those in force at the end stand in the order in which they were passed, none of them
twice, and none ends before the last cutoff. At a boundary past all cutoffs they admit a split just
if every constraint ever passed does. So along well-formed slots, whichever splits were taken, the
constraints of a layout admit a split at the next boundary just if those of all splits taken do. -/
theorem letting_go_of_constraints_loses_nothing :
    (∀ calls : List (Option Constraint × Nat),
      (Constraints.combineAll [] calls).Nodup ∧
      (Constraints.combineAll [] calls).Sublist (Constraints.passed calls) ∧
      (∀ call ∈ calls.getLast?, ∀ constraint ∈ Constraints.combineAll [] calls,
        call.2 ≤ constraint.reach) ∧
      ∀ (split : Split) (boundary : Boundary), (∀ call ∈ calls, call.2 ≤ boundary.left.stop) →
        ((Constraints.combineAll [] calls).admits split.filling boundary = true ↔
          ∀ constraint ∈ Constraints.passed calls,
            constraint.admits split.filling boundary = true)) ∧
    ∀ (filled : List Slot) (next : Slot) (rest : List Slot) (limit : Limit) (taken : List Split)
      (layout : Layout), Slot.check (filled ++ next :: rest) = .ok () →
      taken.length = filled.length →
      Layout.start.follow limit ((Slot.boundaries filled).zip taken) = .ok layout →
      ∀ split : Split, layout.constraints.admits split.filling next.boundary = true ↔
        ∀ earlier ∈ taken, ∀ constraint ∈ earlier.constraint,
          constraint.admits split.filling next.boundary = true := by
  constructor
  · intro calls
    refine ⟨Constraints.nodup_combineAll List.nodup_nil calls,
      Constraints.combineAll_sublist [] calls, ?_, ?_⟩
    · intro call hcall constraint hmem
      exact Constraints.le_reach_of_mem_combineAll hcall hmem
    · intro split boundary hcutoffs
      rw [Constraints.admits_combineAll hcutoffs]
      simp [Constraints.admits]
  · intro filled next rest limit taken layout hcheck hlength hfollow split
    have hstops : ∀ step ∈ (Slot.boundaries filled).zip taken,
        step.1.left.stop ≤ next.boundary.left.stop := by
      intro step hstep
      obtain ⟨slot, hslot, hboundary⟩ := List.mem_map.mp (List.of_mem_zip hstep).1
      rw [← hboundary]
      exact Slot.stop_le_of_check hcheck slot hslot
    have htaken : ((Slot.boundaries filled).zip taken).map (·.2) = taken :=
      List.map_snd_zip (by simp [Slot.boundaries, hlength])
    rw [Layout.admits_of_follow hfollow hstops]
    conv_rhs => rw [← htaken]
    rw [List.forall_mem_map]

/-- A constraint that is let go of, passed again and let go of again, and one that reaches no
further than its own cutoff. -/
def passedAgain : List (Option Constraint × Nat) :=
  [(some (.unbroken 5), 2), (none, 6), (some (.unbroken 5), 3), (some (.broken 7), 7)]

/-- A token that has to be followed by another one on its line. -/
def leading : Slot := ⟨⟨⟨"", 0⟩, ⟨"f", 1⟩⟩, [(Split.nothing 0).withConstraint (.unbroken 1)]⟩

/-- Both constraints are asked at the last cutoff, though one of them is no longer in force, and the
constraint of the leading token still holds at its end. -/
theorem a_constraint_let_go_of_is_not_missed :
    Constraints.combineAll [] passedAgain = [.broken 7] ∧
      ((Constraints.combineAll [] passedAgain).admits .space ⟨⟨"x", 7⟩, ⟨"y", 8⟩⟩ = true ↔
        ∀ constraint ∈ Constraints.passed passedAgain,
          constraint.admits .space ⟨⟨"x", 7⟩, ⟨"y", 8⟩⟩ = true) ∧
      ∃ layout, Layout.start.follow ⟨50, 9, by decide⟩
          ((Slot.boundaries [leading]).zip leading.splits) = .ok layout ∧
        (layout.constraints.admits (.newline false false) ⟨⟨"f", 1⟩, ⟨"x", 2⟩⟩ = true ↔
          ∀ earlier ∈ leading.splits, ∀ constraint ∈ earlier.constraint,
            constraint.admits (.newline false false) ⟨⟨"f", 1⟩, ⟨"x", 2⟩⟩ = true) := by
  obtain ⟨hcalls, hpaths⟩ := letting_go_of_constraints_loses_nothing
  refine ⟨by decide, ?_, _, rfl, ?_⟩
  · exact (hcalls passedAgain).2.2.2 (.space 0) _ (by decide)
  · exact hpaths [leading] ⟨⟨⟨"f", 1⟩, ⟨"x", 2⟩⟩, [.newline 0]⟩ [] _ _ _ (by decide) rfl rfl
      (.newline 0)

end LineBreak
