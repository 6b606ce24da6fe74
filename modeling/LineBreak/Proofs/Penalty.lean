-- What a path costs that stays within the width, and what one that does not
-- costs at least: the penalty of a search is raised above the dearest splits
-- together, so the second is never the cheaper.
import LineBreak.Proofs.Outcome
import Mathlib

namespace LineBreak

/-! ## Sums and maxima that stop at a ceiling -/

namespace Capped

variable {ceiling : Nat}

/-- Stopping on the way comes to the same as stopping at the end. -/
theorem val_foldl_add (terms : List (Capped ceiling)) (first : Capped ceiling) :
    (terms.foldl (· + ·) first).val = min (first.val + (terms.map (·.val)).sum) ceiling := by
  induction terms generalizing first with
  | nil =>
    have := first.val_le
    rw [List.foldl_nil, List.map_nil, List.sum_nil]
    omega
  | cons term terms ih =>
    rw [List.foldl_cons, ih, val_add, List.map_cons, List.sum_cons]
    omega

theorem le_foldl_max (terms : List (Capped ceiling)) (first : Capped ceiling) :
    first ≤ terms.foldl max first ∧ ∀ term ∈ terms, term ≤ terms.foldl max first := by
  induction terms generalizing first with
  | nil => exact ⟨Nat.le_refl _, fun _ h => nomatch h⟩
  | cons term terms ih =>
    obtain ⟨hfirst, hterms⟩ := ih (max first term)
    rw [le_iff, val_max] at hfirst
    refine ⟨Nat.le_trans (Nat.le_max_left _ _) hfirst, fun other hother => ?_⟩
    rcases List.mem_cons.mp hother with rfl | hrest
    · exact Nat.le_trans (Nat.le_max_right _ _) hfirst
    · exact hterms other hrest

end Capped

/-! ## The raised penalty -/

namespace Slot

theorem cost_le_dearest {slot : Slot} {split : Split} (h : split ∈ slot.splits) :
    split.cost ≤ slot.dearest :=
  (Capped.le_foldl_max _ _).2 _ (List.mem_map_of_mem h)

theorem val_penaltyFloor (slots : List Slot) :
    (penaltyFloor slots).val =
      min ((slots.map (·.dearest.val)).sum + 1) 18446744073709551615 := by
  unfold penaltyFloor
  rw [Capped.val_add, Capped.val_foldl_add, List.map_map, Capped.val_zero]
  show min (min (0 + (slots.map (·.dearest.val)).sum) _ + 1) _ = _
  omega

theorem effectiveLimit_eq_ok {slots : List Slot} {settings : Settings} {limit : Limit}
    (h : effectiveLimit slots settings = .ok limit) :
    limit.width = settings.maxWidth ∧
      limit.penalty = max settings.overflowPenalty (penaltyFloor slots) := by
  unfold effectiveLimit Settings.limit Limit.make at h
  split at h
  · cases h
    exact ⟨rfl, rfl⟩
  · cases h

end Slot

/-! ## Within the width -/

namespace Layout

/-- No line of the path reaches the width. -/
def Inside (limit : Limit) (layout : Layout) : List (Boundary × Split) → Prop
  | [] => True
  | (boundary, split) :: path =>
    layout.lineEnd split boundary < limit.width ∧
      Inside limit (layout.extend limit split boundary) path

variable {limit : Limit} {layout after : Layout}

/-- Within the width nothing is charged but the splits. -/
theorem cost_le_of_inside {slots : List Slot} {splits : List Split}
    (hoffered : List.Forall₂ (fun slot split => split ∈ slot.splits) slots splits)
    (h : layout.follow limit ((Slot.boundaries slots).zip splits) = .ok after)
    (hinside : layout.Inside limit ((Slot.boundaries slots).zip splits)) :
    after.cost.val ≤ layout.cost.val + (slots.map (·.dearest.val)).sum := by
  induction hoffered generalizing layout with
  | nil =>
    cases h
    exact Nat.le_add_right _ _
  | @cons slot split slots splits hsplit _ ih =>
    obtain ⟨hend, hrest⟩ := hinside
    have hle := ih (follow_cons_eq_ok h) hrest
    have hcost : (layout.extend limit split slot.boundary).cost = layout.cost + split.cost := by
      show layout.cost + limit.penalize split.cost _ = _
      unfold Limit.penalize
      rw [if_pos hend]
    have hdearest := Capped.le_iff.mp (Slot.cost_le_dearest hsplit)
    rw [hcost, Capped.val_add] at hle
    rw [List.map_cons, List.sum_cons]
    omega

/-- One line that reaches the width costs the penalty. -/
theorem penalty_le_of_not_inside {path : List (Boundary × Split)}
    (h : layout.follow limit path = .ok after)
    (hinside : ¬ layout.Inside limit path) : limit.penalty ≤ after.cost := by
  induction path generalizing layout with
  | nil => exact absurd trivial hinside
  | cons step path ih =>
    obtain ⟨boundary, split⟩ := step
    by_cases hend : layout.lineEnd split boundary < limit.width
    · exact ih (follow_cons_eq_ok h) fun hrest => hinside ⟨hend, hrest⟩
    · refine Nat.le_trans ?_ (cost_le_of_follow (follow_cons_eq_ok h))
      have hpenalty := limit.penalty.val_le
      show limit.penalty.val ≤ (layout.cost + limit.penalize split.cost _).val
      unfold Limit.penalize
      rw [if_neg hend, Capped.val_add, Capped.val_add, Capped.val_add]
      omega

/-- The penalty is at least one more than all that the dearest splits cost together, up to the
greatest cost. -/
theorem dearest_lt_penalty {slots : List Slot} {settings : Settings}
    (hlimit : Slot.effectiveLimit slots settings = .ok limit) :
    min ((slots.map (·.dearest.val)).sum + 1) 18446744073709551615 ≤ limit.penalty.val := by
  rw [(Slot.effectiveLimit_eq_ok hlimit).2, Capped.val_max, Slot.val_penaltyFloor]
  exact Nat.le_max_right _ _

/-- A path that stays within the width is cheaper than one that does not, unless even the
dearest splits come to the greatest cost. -/
theorem cost_lt_of_inside {slots : List Slot} {settings : Settings} {splits splits' : List Split}
    {last last' : Layout} (hlimit : Slot.effectiveLimit slots settings = .ok limit)
    (hcosts : (slots.map (·.dearest.val)).sum < 18446744073709551615)
    (hoffered : List.Forall₂ (fun slot split => split ∈ slot.splits) slots splits)
    (h : start.follow limit ((Slot.boundaries slots).zip splits) = .ok last)
    (hinside : start.Inside limit ((Slot.boundaries slots).zip splits))
    (h' : start.follow limit ((Slot.boundaries slots).zip splits') = .ok last')
    (hoverflow : ¬ start.Inside limit ((Slot.boundaries slots).zip splits')) :
    last.cost < last'.cost := by
  have hcost := cost_le_of_inside hoffered h hinside
  have hfloor := dearest_lt_penalty hlimit
  have hpenalty := Capped.le_iff.mp (penalty_le_of_not_inside h' hoverflow)
  rw [show start.cost.val = 0 from rfl] at hcost
  rw [Capped.lt_iff]
  omega

/-- Where the dearest splits come to the greatest cost, the path that does not stay within the
width costs that much, so even then it is not the cheaper. -/
theorem cost_le_of_inside_of_not_inside {slots : List Slot} {settings : Settings}
    {splits splits' : List Split} {last last' : Layout}
    (hlimit : Slot.effectiveLimit slots settings = .ok limit)
    (hoffered : List.Forall₂ (fun slot split => split ∈ slot.splits) slots splits)
    (h : start.follow limit ((Slot.boundaries slots).zip splits) = .ok last)
    (hinside : start.Inside limit ((Slot.boundaries slots).zip splits))
    (h' : start.follow limit ((Slot.boundaries slots).zip splits') = .ok last')
    (hoverflow : ¬ start.Inside limit ((Slot.boundaries slots).zip splits')) :
    last.cost ≤ last'.cost := by
  by_cases hcosts : (slots.map (·.dearest.val)).sum < 18446744073709551615
  · exact Nat.le_of_lt (cost_lt_of_inside hlimit hcosts hoffered h hinside h' hoverflow)
  · have hfloor := dearest_lt_penalty hlimit
    have hpenalty := Capped.le_iff.mp (penalty_le_of_not_inside h' hoverflow)
    have hmost := last.cost.val_le
    rw [Capped.le_iff]
    omega

/-! ## Where the lines end -/

/-- How far each step of the path takes its line. -/
def lineEnds (limit : Limit) (layout : Layout) : List (Boundary × Split) → List Width
  | [] => []
  | (boundary, split) :: path =>
    layout.lineEnd split boundary :: (layout.extend limit split boundary).lineEnds limit path

theorem inside_iff {path : List (Boundary × Split)} :
    layout.Inside limit path ↔ ∀ column ∈ layout.lineEnds limit path, column < limit.width := by
  induction path generalizing layout with
  | nil => simp [Inside, lineEnds]
  | cons step path ih => simp [Inside, lineEnds, ih]

end Layout

/-- Under the raised penalty, filling the slots with splits on offer so that no line reaches the
width never costs more than filling them in any way by which some line does, and it costs less
unless the dearest splits together come to the greatest cost. Whether the constraints admit the
splits plays no part. -/
theorem staying_within_the_width_pays (slots : List Slot) (settings : Settings)
    (hwidth : 0 < settings.maxWidth.val) :
    ∃ limit, Slot.effectiveLimit slots settings = .ok limit ∧
      ∀ splits splits' last last',
        List.Forall₂ (fun slot split => split ∈ slot.splits) slots splits →
        List.Forall₂ (fun slot split => split ∈ slot.splits) slots splits' →
        Layout.start.follow limit ((Slot.boundaries slots).zip splits) = .ok last →
        Layout.start.follow limit ((Slot.boundaries slots).zip splits') = .ok last' →
        (∀ column ∈ Layout.start.lineEnds limit ((Slot.boundaries slots).zip splits),
          column < limit.width) →
        (∃ column ∈ Layout.start.lineEnds limit ((Slot.boundaries slots).zip splits'),
          limit.width ≤ column) →
        last.cost ≤ last'.cost ∧
          ((slots.map (·.dearest.val)).sum < 18446744073709551615 → last.cost < last'.cost) := by
  obtain ⟨limit, hlimit⟩ := Slot.exists_effectiveLimit slots hwidth
  refine ⟨limit, hlimit, ?_⟩
  intro splits splits' last last' hoffered _ h h' hshort hlong
  have hinside := Layout.inside_iff.mpr hshort
  have hoverflow : ¬ Layout.start.Inside limit ((Slot.boundaries slots).zip splits') := by
    intro hinside'
    obtain ⟨column, hcolumn, hreaches⟩ := hlong
    exact Nat.not_lt_of_le hreaches (Layout.inside_iff.mp hinside' column hcolumn)
  constructor
  · exact Layout.cost_le_of_inside_of_not_inside hlimit hoffered h hinside h' hoverflow
  · intro hcosts
    exact Layout.cost_lt_of_inside hlimit hcosts hoffered h hinside h' hoverflow

/-- A line break that costs more than the penalty set, or a space. -/
def dearBreak : List Slot :=
  [⟨⟨⟨"", 0⟩, ⟨"let", 3⟩⟩, [.nothing 0]⟩, ⟨⟨⟨"let", 3⟩, ⟨"x", 4⟩⟩, [.space 0, .newline 700]⟩]

/-- With five columns the space makes the line too long, and then the dear line break is the
cheaper way, for the penalty is raised from one to 701. -/
theorem a_dear_break_is_cheaper_than_a_long_line :
    ∃ limit last last', Slot.effectiveLimit dearBreak ⟨5, 1, 10⟩ = .ok limit ∧
      Layout.start.follow limit ((Slot.boundaries dearBreak).zip [.nothing 0, .newline 700]) =
        .ok last ∧
      Layout.start.follow limit ((Slot.boundaries dearBreak).zip [.nothing 0, .space 0]) =
        .ok last' ∧
      last.cost < last'.cost := by
  obtain ⟨limit, hlimit, hpays⟩ :=
    staying_within_the_width_pays dearBreak ⟨5, 1, 10⟩ (by decide)
  obtain rfl : limit = ⟨5, 701, by decide⟩ := Except.ok.inj (hlimit.symm.trans (by rfl))
  have hbroken : List.Forall₂ (fun (slot : Slot) split => split ∈ slot.splits) dearBreak
      [.nothing 0, .newline 700] := .cons (by decide) (.cons (by decide) .nil)
  have hspaced : List.Forall₂ (fun (slot : Slot) split => split ∈ slot.splits) dearBreak
      [.nothing 0, .space 0] := .cons (by decide) (.cons (by decide) .nil)
  refine ⟨_, _, _, hlimit, rfl, rfl, ?_⟩
  exact (hpays _ _ _ _ hbroken hspaced rfl rfl (by decide) (by decide)).2 (by decide)

end LineBreak
