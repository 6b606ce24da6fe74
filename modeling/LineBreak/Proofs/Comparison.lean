-- What it means for a layout to be no worse than another, and for a limit to
-- be milder. The two layouts can be filled alike, step by step, with the same
-- fault if there is one, and the first stays no worse. So its cheapest
-- completion is no dearer, and under a milder limit no search ends dearer.
import LineBreak.Proofs.Faults
import LineBreak.Proofs.Overflow

namespace LineBreak

/-! ## Walking alike -/

namespace Layout.NoWorse

variable {layout other : Layout} {limit limit' : Limit}

theorem indentation_le (h : layout.NoWorse other) : layout.indentation ≤ other.indentation :=
  OpenScope.total_le_total h.scopes

/-- Two walks over one path end with the same fault, or both without one, and each layout of the
first is no worse than its counterpart. -/
theorem walk (h : layout.NoWorse other) (hlimit : limit.Milder limit')
    (path : List (Boundary × Split)) :
    (layout.walk limit path).2 = (other.walk limit' path).2 ∧
      List.Forall₂ NoWorse (layout.walk limit path).1 (other.walk limit' path).1 := by
  apply walk_related NoWorse.depth ?_ id h
  intro here there split boundary hle
  exact hle.extend hlimit split boundary

end Layout.NoWorse

/-! ## The cheapest completion -/

theorem Capped.exists_isLeast {ceiling : Nat} {costs : Set (Capped ceiling)}
    (h : costs.Nonempty) : ∃ least, IsLeast costs least := by
  obtain ⟨least, hmem, hleast⟩ := (measure Capped.val).wf.has_min costs h
  refine ⟨least, hmem, ?_⟩
  intro cost hcost
  exact Nat.le_of_not_lt (hleast cost hcost)

/-- What the layout costs once the slots are filled, one cost for each path through them. -/
def Layout.completionCosts (layout : Layout) (limit : Limit) (slots : List Slot) : Set Cost :=
  {cost | ∃ splits last, Path limit layout slots splits last ∧ last.cost = cost}

theorem Layout.NoWorse.exists_isLeast {layout other : Layout} (h : layout.NoWorse other)
    {limit : Limit} {slots : List Slot} {least' : Cost}
    (hleast' : IsLeast (other.completionCosts limit slots) least') :
    ∃ least, IsLeast (layout.completionCosts limit slots) least ∧ least ≤ least' := by
  obtain ⟨splits, last, hpath, rfl⟩ := hleast'.1
  obtain ⟨after, hafter, hle⟩ := h.path (Limit.Milder.refl limit) hpath
  have hmem : after.cost ∈ layout.completionCosts limit slots := ⟨splits, after, hafter, rfl⟩
  obtain ⟨least, hleast⟩ := Capped.exists_isLeast ⟨after.cost, hmem⟩
  exact ⟨least, hleast, Nat.le_trans (hleast.2 hmem) hle.cost⟩

/-- A layout that is no worse than another stays so: on every path, under every limit, both walks
come as far and end with the same fault or without one, and all along the first layout costs no
more, stands no further right, is indented no deeper and admits the same splits everywhere. So
through any slots its cheapest completion is no dearer than that of the other. -/
theorem a_layout_no_worse_stays_no_worse {layout other : Layout} (h : layout.NoWorse other) :
    (∀ limit path,
      (layout.walk limit path).2 = (other.walk limit path).2 ∧
      List.Forall₂ (fun here there => here.cost ≤ there.cost ∧ here.column ≤ there.column ∧
          here.indentation ≤ there.indentation ∧
          ∀ (split : Split) boundary, here.constraints.admits split.filling boundary =
            there.constraints.admits split.filling boundary)
        (layout :: (layout.walk limit path).1) (other :: (other.walk limit path).1)) ∧
    ∀ limit slots least', IsLeast (other.completionCosts limit slots) least' →
      ∃ least, IsLeast (layout.completionCosts limit slots) least ∧ least ≤ least' := by
  constructor
  · intro limit path
    obtain ⟨hfault, hrest⟩ := h.walk (Limit.Milder.refl limit) path
    refine ⟨hfault, (List.Forall₂.cons h hrest).imp ?_⟩
    intro here there hle
    refine ⟨hle.cost, hle.column, hle.indentation_le, ?_⟩
    intro split boundary
    rw [hle.constraints]
  · intro limit slots least' hleast'
    exact h.exists_isLeast hleast'

/-- A line of one letter, with a scope of so many columns open. -/
def indented (length : Width) : Layout :=
  Layout.start.extend ⟨80, 10000, by decide⟩ ((Split.newline 1).withScope ⟨length, .right, 9⟩)
    ⟨⟨"", 0⟩, ⟨"f", 1⟩⟩

/-- Three letters that have to start a line. -/
def threeLetters : Slot := ⟨⟨⟨"f", 1⟩, ⟨"abc", 4⟩⟩, [.newline 0]⟩

/-- With six columns the three letters fit behind two columns and not behind four. -/
theorem two_columns_are_no_worse_than_four :
    (indented 2).NoWorse (indented 4) ∧
      List.Forall₂ (fun here there => here.cost ≤ there.cost ∧ here.column ≤ there.column)
        ((indented 2).walk ⟨6, 50, by decide⟩ [(threeLetters.boundary, .newline 0)]).1
        ((indented 4).walk ⟨6, 50, by decide⟩ [(threeLetters.boundary, .newline 0)]).1 ∧
      ∃ least, IsLeast ((indented 2).completionCosts ⟨6, 50, by decide⟩ [threeLetters]) least ∧
        ∃ least', IsLeast ((indented 4).completionCosts ⟨6, 50, by decide⟩ [threeLetters]) least' ∧
          least ≤ least' := by
  have hnoWorse : (indented 2).NoWorse (indented 4) :=
    ⟨rfl, by decide, by decide, rfl, List.Forall₂.cons ⟨rfl, rfl, by decide⟩ List.Forall₂.nil⟩
  obtain ⟨hwalks, hcompletions⟩ := a_layout_no_worse_stays_no_worse hnoWorse
  have hpairs := (hwalks ⟨6, 50, by decide⟩ [(threeLetters.boundary, .newline 0)]).2
  have hpath : Path ⟨6, 50, by decide⟩ (indented 4) [threeLetters] [.newline 0]
      ((indented 4).extend ⟨6, 50, by decide⟩ (.newline 0) threeLetters.boundary) :=
    .cons ⟨List.mem_cons_self, .inl rfl⟩ rfl (.nil _)
  have hcosts : ((indented 4).completionCosts ⟨6, 50, by decide⟩ [threeLetters]).Nonempty :=
    ⟨_, _, _, hpath, rfl⟩
  obtain ⟨least', hleast'⟩ := Capped.exists_isLeast hcosts
  obtain ⟨least, hleast, hle⟩ := hcompletions _ _ _ hleast'
  refine ⟨hnoWorse, ?_, least, hleast, least', hleast', hle⟩
  exact (List.forall₂_cons.mp hpairs).2.imp fun _ _ hpair => ⟨hpair.1, hpair.2.1⟩

/-! ## Milder limits -/

theorem Slot.milder_of_effectiveLimit {slots : List Slot} {settings milder : Settings}
    {limit limit' : Limit} (hwidth : settings.maxWidth ≤ milder.maxWidth)
    (hpenalty : milder.overflowPenalty ≤ settings.overflowPenalty)
    (h : effectiveLimit slots settings = .ok limit)
    (h' : effectiveLimit slots milder = .ok limit') : limit'.Milder limit := by
  obtain ⟨hw, hp⟩ := effectiveLimit_eq_ok h
  obtain ⟨hw', hp'⟩ := effectiveLimit_eq_ok h'
  constructor
  · rw [hw, hw']
    exact hwidth
  · rw [Capped.le_iff] at hpenalty
    rw [hp, hp', Capped.le_iff, Capped.val_max, Capped.val_max]
    omega

/-- Without markers, a search that is not cut short ends no dearer than any search of the same
slots with no greater width and no lesser penalty, whether that one is cut short or not. -/
theorem a_milder_limit_costs_no_more {slots : List Slot} {settings milder : Settings}
    {solution other : Solution} (hmarkers : Unmarked slots)
    (hwidth : settings.maxWidth ≤ milder.maxWidth)
    (hpenalty : milder.overflowPenalty ≤ settings.overflowPenalty)
    (hsearch : search slots settings = .ok solution)
    (hmilder : search slots milder = .ok other) (hending : other.ending = .optimal) :
    other.cost ≤ solution.cost := by
  have hlimit := Slot.milder_of_effectiveLimit hwidth hpenalty
    (exists_run_of_search_eq_ok hsearch).1.limit_eq (exists_run_of_search_eq_ok hmilder).1.limit_eq
  obtain ⟨last, hpath, hcost⟩ := Solution.path hsearch
  have hstart : Layout.start.NoWorse Layout.start :=
    Layout.NoWorse.of_outlook rfl (Nat.le_refl _)
  obtain ⟨last', hpath', hle⟩ := hstart.path hlimit hpath
  have hoptimal := Solution.cost_le hmilder hending (honest_of_unmarked _ hmarkers) hpath'
  rw [← hcost]
  exact Nat.le_trans hoptimal hle.cost

/-- With four columns the two texts have to be broken, with eighty they need not. -/
theorem crowded_texts_cost_no_more_with_room :
    ∃ solution other, search crowded ⟨4, 10000, 10⟩ = .ok solution ∧
      solution.ending = .optimal ∧ search crowded ⟨80, 1, 10⟩ = .ok other ∧
      other.ending = .optimal ∧ other.cost ≤ solution.cost := by
  obtain ⟨solution, hsearch, huncut⟩ :=
    exists_solution_of_ending (show (search crowded ⟨4, 10000, 10⟩).toOption.map _ = _ by cbv)
  obtain ⟨other, hmilder, hending⟩ :=
    exists_solution_of_ending (show (search crowded ⟨80, 1, 10⟩).toOption.map _ = _ by cbv)
  have hcost := a_milder_limit_costs_no_more (by decide) (by decide) (by decide) hsearch hmilder
    hending
  exact ⟨solution, other, hsearch, huncut, hmilder, hending, hcost⟩

end LineBreak
