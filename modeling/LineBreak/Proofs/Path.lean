-- Paths through slots: one split for each slot, each of them allowed by the
-- constraints collected on the way. They are what a search chooses from, and
-- what its solutions are measured against.
import LineBreak.Search.Solution
import Mathlib.Data.List.Forall2

namespace LineBreak

/-! ## The splits that a layout may take -/

namespace Slot

/-- The constraints admit the split, or they admit none of the splits on offer. -/
def Allows (slot : Slot) (constraints : Constraints) (split : Split) : Prop :=
  split ∈ slot.splits ∧
    (constraints.admits split.filling slot.boundary = true ∨
      ∀ other ∈ slot.splits, constraints.admits other.filling slot.boundary = false)

theorem mem_admitted_iff {slot : Slot} {constraints : Constraints} {option : Split × Nat} :
    option ∈ slot.admitted constraints ↔ slot.splits[option.2]? = some option.1 ∧
      constraints.admits option.1.filling slot.boundary = true := by
  unfold admitted numbered
  rw [List.mem_filter, List.mk_mem_zipIdx_iff_getElem?]

theorem admitted_eq_nil_iff {slot : Slot} {constraints : Constraints} :
    slot.admitted constraints = [] ↔
      ∀ other ∈ slot.splits, constraints.admits other.filling slot.boundary = false := by
  rw [List.eq_nil_iff_forall_not_mem]
  constructor
  · intro hnone other hother
    obtain ⟨i, hi⟩ := List.mem_iff_getElem?.mp hother
    have h := hnone (other, i)
    rw [mem_admitted_iff] at h
    simpa [hi] using h
  · intro hnone option hoption
    obtain ⟨hget, hadmits⟩ := mem_admitted_iff.mp hoption
    rw [hnone _ (List.mem_of_getElem? hget)] at hadmits
    cases hadmits

/-- The options of a slot are the splits that it allows, each with its place in the offer. -/
theorem mem_options_iff {slot : Slot} {constraints : Constraints} {option : Split × Nat} :
    option ∈ slot.options constraints ↔
      slot.splits[option.2]? = some option.1 ∧ slot.Allows constraints option.1 := by
  unfold options Allows
  by_cases hnone : slot.admitted constraints = []
  · rw [if_pos hnone, numbered, List.mk_mem_zipIdx_iff_getElem?]
    have hall := admitted_eq_nil_iff.mp hnone
    exact ⟨fun hget => ⟨hget, List.mem_of_getElem? hget, Or.inr hall⟩, fun h => h.1⟩
  · rw [if_neg hnone, mem_admitted_iff]
    constructor
    · rintro ⟨hget, hadmits⟩
      exact ⟨hget, List.mem_of_getElem? hget, Or.inl hadmits⟩
    · rintro ⟨hget, _, hadmits | hall⟩
      · exact ⟨hget, hadmits⟩
      · exact absurd (admitted_eq_nil_iff.mpr hall) hnone

theorem Allows.exists_option {slot : Slot} {constraints : Constraints} {split : Split}
    (h : slot.Allows constraints split) :
    ∃ choice, (split, choice) ∈ slot.options constraints := by
  obtain ⟨choice, hchoice⟩ := List.mem_iff_getElem?.mp h.1
  exact ⟨choice, mem_options_iff.mpr ⟨hchoice, h⟩⟩

/-- A slot with a split on offer has an option, whatever the constraints. -/
theorem options_ne_nil {slot : Slot} (constraints : Constraints) (h : slot.splits ≠ []) :
    slot.options constraints ≠ [] := by
  unfold options
  split
  · simpa [numbered] using h
  · assumption

/-- None of the options of the slot is at fault for the layout. -/
def Passable (slot : Slot) (limit : Limit) (layout : Layout) : Prop :=
  ∀ option ∈ slot.options layout.constraints,
    ∃ after, layout.step limit option.1 slot.boundary = .ok after

end Slot

/-! ## Following steps -/

namespace Layout

variable {limit : Limit} {layout after : Layout} {boundary : Boundary} {split : Split}
  {path : List (Boundary × Split)}

theorem follow_cons_eq_ok (h : layout.follow limit ((boundary, split) :: path) = .ok after) :
    (layout.extend limit split boundary).follow limit path = .ok after := by
  cases hstep : layout.step limit split boundary with
  | error fault =>
    unfold follow at h
    rw [List.foldlM_cons, hstep] at h
    cases h
  | ok middle =>
    rw [follow_cons hstep] at h
    obtain ⟨_, _, rfl⟩ := step_eq_ok_iff.mp hstep
    exact h

theorem cost_le_of_follow (h : layout.follow limit path = .ok after) :
    layout.cost ≤ after.cost := by
  induction path generalizing layout with
  | nil =>
    cases h
    exact Nat.le_refl _
  | cons step path ih =>
    exact Nat.le_trans (Capped.le_add_right _ _) (ih (follow_cons_eq_ok h))

end Layout

/-! ## Paths -/

/-- `Path limit before slots splits after`: the slots, filled by the splits one after the
other, lead from the layout `before` to the layout `after`. Every split is one that its slot
allows, and no step is at fault. -/
inductive Path (limit : Limit) : Layout → List Slot → List Split → Layout → Prop
  | nil (layout : Layout) : Path limit layout [] [] layout
  | cons {before middle after : Layout} {slot : Slot} {slots : List Slot} {split : Split}
      {splits : List Split} (allowed : slot.Allows before.constraints split)
      (step : before.step limit split slot.boundary = .ok middle)
      (rest : Path limit middle slots splits after) :
      Path limit before (slot :: slots) (split :: splits) after

namespace Path

variable {limit : Limit} {before middle after : Layout} {slots slots' : List Slot}
  {splits splits' : List Split}

theorem append (h : Path limit before slots splits middle)
    (h' : Path limit middle slots' splits' after) :
    Path limit before (slots ++ slots') (splits ++ splits') after := by
  induction h with
  | nil => exact h'
  | cons allowed step _ ih => exact cons allowed step (ih h')

theorem snoc {slot : Slot} {split : Split} (h : Path limit before slots splits middle)
    (allowed : slot.Allows middle.constraints split)
    (step : middle.step limit split slot.boundary = .ok after) :
    Path limit before (slots ++ [slot]) (splits ++ [split]) after :=
  h.append (cons allowed step (nil after))

/-- Every split of a path is one of those that its slot offers. -/
theorem forall₂_mem (h : Path limit before slots splits after) :
    List.Forall₂ (fun slot split => split ∈ slot.splits) slots splits := by
  induction h with
  | nil => exact List.Forall₂.nil
  | cons allowed _ _ ih => exact List.Forall₂.cons allowed.1 ih

theorem length_eq (h : Path limit before slots splits after) : slots.length = splits.length :=
  h.forall₂_mem.length_eq

theorem depth_eq (h : Path limit before slots splits after) :
    after.depth = before.depth + slots.length := by
  induction h with
  | nil => rfl
  | cons _ step _ ih =>
    obtain ⟨_, _, rfl⟩ := Layout.step_eq_ok_iff.mp step
    rw [ih, List.length_cons]
    show _ + 1 + _ = _
    omega

/-! ## Replaying a path -/

theorem follow_eq (h : Path limit before slots splits after) :
    before.follow limit ((Slot.boundaries slots).zip splits) = .ok after := by
  induction h with
  | nil => rfl
  | cons _ step _ ih => exact (Layout.follow_cons step _).trans ih

/-- A longer path costs no less. -/
theorem cost_le (h : Path limit before slots splits after) : before.cost ≤ after.cost :=
  Layout.cost_le_of_follow h.follow_eq

/-- Where a path has come to a slot, it takes a split that the slot allows there. -/
theorem exists_step (h : Path limit before slots splits after) {i : Nat} {slot : Slot}
    (hslot : slots[i]? = some slot) :
    ∃ split here next, splits[i]? = some split ∧
      before.follow limit (((Slot.boundaries slots).zip splits).take i) = .ok here ∧
      slot.Allows here.constraints split ∧ here.step limit split slot.boundary = .ok next := by
  induction h generalizing i with
  | nil => cases hslot
  | @cons before middle _ first _ split _ allowed step _ ih =>
    cases i with
    | zero =>
      cases hslot
      exact ⟨split, before, middle, rfl, rfl, allowed, step⟩
    | succ i =>
      obtain ⟨split', here, next, hsplit, hfollow, hrest⟩ := ih hslot
      exact ⟨split', here, next, hsplit, (Layout.follow_cons step _).trans hfollow, hrest⟩

theorem walk_eq (h : Path limit before slots splits after) :
    ∃ layouts, before.walk limit ((Slot.boundaries slots).zip splits) = (layouts, none) ∧
      layouts.getLastD before = after := by
  induction h with
  | nil => exact ⟨[], rfl, rfl⟩
  | @cons _ middle _ _ _ _ _ _ step _ ih =>
    obtain ⟨layouts, hwalk, hlast⟩ := ih
    refine ⟨middle :: layouts, ?_, ?_⟩
    · simp only [Slot.boundaries, List.map_cons, List.zip_cons_cons, Layout.walk, step]
      unfold Slot.boundaries at hwalk
      rw [hwalk]
    · rw [List.getLastD_cons, hlast]

/-- A path from the start can be rendered, at the cost of the layout that it leads to. -/
theorem rendering_eq (h : Path limit Layout.start slots splits after) :
    ∃ rendering, Rendering.ofPath (Slot.boundaries slots) splits limit = .ok rendering ∧
      rendering.cost = after.cost := by
  obtain ⟨layouts, hwalk, hlast⟩ := h.walk_eq
  have hlength : (Slot.boundaries slots).length = splits.length := by
    simpa [Slot.boundaries] using h.length_eq
  unfold Rendering.ofPath
  rw [if_neg (not_not_intro hlength), hwalk]
  exact ⟨_, rfl, congrArg Layout.cost hlast⟩

end Path

end LineBreak
