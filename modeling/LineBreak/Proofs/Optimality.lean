-- A search that is not cut short finds the least cost. Being completable
-- within a given cost lasts as long as the markers are honest, so the layout
-- taken up last is no dearer than any path through all slots.
import LineBreak.Proofs.Dominance
import LineBreak.Proofs.Solution

namespace LineBreak

/-! ## Honest markers -/

/-- Some path through the slots leads from the layout to one that costs no more than `cost`. -/
def CompletesWithin (limit : Limit) (slots : List Slot) (layout : Layout) (cost : Cost) : Prop :=
  ∃ splits last, Path limit layout slots splits last ∧ last.cost ≤ cost

/-- Of two layouts that arrive at a marker after equally many slots, the one that costs no more
can be completed within any cost within which the other can. So its cheapest completion is no
dearer, and it has one if the other has. -/
def Honest (limit : Limit) (slots : List Slot) : Prop :=
  ∀ marker depth layout other, Arrives limit slots marker depth layout →
    Arrives limit slots marker depth other → layout.cost ≤ other.cost →
    ∀ cost, CompletesWithin limit (slots.drop depth) other cost →
      CompletesWithin limit (slots.drop depth) layout cost

/-- No split on offer carries a marker. -/
def Unmarked (slots : List Slot) : Prop :=
  ∀ slot ∈ slots, ∀ split ∈ slot.splits, split.marker = none

instance (slots : List Slot) : Decidable (Unmarked slots) :=
  inferInstanceAs (Decidable (∀ slot ∈ slots, ∀ split ∈ slot.splits, split.marker = none))

theorem CompletesWithin.of_outlook {limit : Limit} {slots : List Slot} {layout other : Layout}
    {cost : Cost} (h : CompletesWithin limit slots other cost)
    (houtlook : layout.outlook = other.outlook) (hcost : layout.cost ≤ other.cost) :
    CompletesWithin limit slots layout cost := by
  obtain ⟨splits, last, hpath, hle⟩ := h
  have hnoWorse := Layout.NoWorse.of_outlook houtlook hcost
  obtain ⟨last', hpath', hlast⟩ := hnoWorse.path (Limit.Milder.refl _) hpath
  exact ⟨splits, last', hpath', Nat.le_trans hlast.cost hle⟩

theorem Path.exists_slot {limit : Limit} {before after : Layout} {slots : List Slot}
    {splits : List Split} {split : Split} (h : Path limit before slots splits after)
    (hsplit : split ∈ splits) : ∃ slot ∈ slots, split ∈ slot.splits := by
  induction h with
  | nil => cases hsplit
  | cons allowed _ _ ih =>
    rcases List.mem_cons.mp hsplit with rfl | hrest
    · exact ⟨_, List.mem_cons_self, allowed.1⟩
    · obtain ⟨slot, hslot, hmem⟩ := ih hrest
      exact ⟨slot, List.mem_cons_of_mem _ hslot, hmem⟩

theorem Arrives.exists_marked {limit : Limit} {slots : List Slot} {marker : Marker} {depth : Nat}
    {layout : Layout} (h : Arrives limit slots marker depth layout) :
    ∃ slot ∈ slots.take depth, ∃ split ∈ slot.splits, split.marker = some marker := by
  obtain ⟨splits, split, hpath, hmarker⟩ := h
  have hsplit : split ∈ splits ++ [split] := List.mem_append_right _ List.mem_cons_self
  obtain ⟨slot, hslot, hmem⟩ := hpath.exists_slot hsplit
  exact ⟨slot, hslot, split, hmem, hmarker⟩

theorem Arrives.drop_depth {limit : Limit} {slots : List Slot} {marker : Marker} {depth : Nat}
    {layout : Layout} (h : Arrives limit slots marker depth layout) :
    slots.drop layout.depth = slots.drop depth := by
  obtain ⟨splits, split, hpath, _⟩ := h
  have hdepth := hpath.depth_eq
  rw [show Layout.start.depth = 0 from rfl, Nat.zero_add, List.length_take] at hdepth
  rw [hdepth]
  rcases Nat.le_total depth slots.length with hle | hle
  · rw [Nat.min_eq_left hle]
  · rw [Nat.min_eq_right hle, List.drop_length, List.drop_eq_nil_of_le hle]

/-- Without markers there is nothing to be dishonest about. -/
theorem honest_of_unmarked {slots : List Slot} (limit : Limit) (h : Unmarked slots) :
    Honest limit slots := by
  intro marker depth layout other harrives
  obtain ⟨slot, hslot, split, hsplit, hmarker⟩ := harrives.exists_marked
  rw [h slot (List.mem_of_mem_take hslot) split hsplit] at hmarker
  cases hmarker

/-! ## The least cost lasts -/

/-- With honest markers, being completable within a cost lasts. -/
theorem lasting_completesWithin {problem : Problem}
    (h : Honest problem.limit problem.slots.toList) (cost : Cost) :
    Lasting problem fun layout =>
      CompletesWithin problem.limit (problem.slots.toList.drop layout.depth) layout cost where
  outlook layout other houtlook hcost hgood := by
    rw [← show layout.depth = other.depth from congrArg Outlook.depth houtlook] at hgood
    exact hgood.of_outlook houtlook hcost
  marker marker depth layout other harrives harrives' hcost hgood := by
    rw [harrives'.drop_depth] at hgood
    rw [harrives.drop_depth]
    exact h marker depth layout other harrives harrives' hcost cost hgood
  child layout slot hslot _ hgood := by
    obtain ⟨splits, last, hpath, hle⟩ := hgood
    rw [← Array.getElem?_toList] at hslot
    obtain ⟨hlt, hget⟩ := List.getElem?_eq_some_iff.mp hslot
    rw [List.drop_eq_getElem_cons hlt, hget] at hpath
    -- The completion goes on with some option, and its rest completes that child.
    cases hpath with
    | cons allowed step rest =>
      obtain ⟨choice, hoption⟩ := allowed.exists_option
      refine ⟨_, hoption, _, step, ?_⟩
      obtain ⟨_, _, rfl⟩ := Layout.step_eq_ok_iff.mp step
      exact ⟨_, last, rest, hle⟩

/-! ## The layout taken up last -/

theorem Entry.cost_le_of_isLE {entry other : Entry} (h : (compare other entry).isLE) :
    entry.priority.cost ≤ other.priority.cost := by
  have hpriority : (compare other.priority entry.priority).isLE := Ordering.isLE_left_of_isLE_then h
  have hcost : (compare entry.priority.cost other.priority.cost).isLE :=
    Ordering.isLE_left_of_isLE_then hpriority
  exact Nat.isLE_compare.mp hcost

namespace Search

variable {problem : Problem} {cap : Nat} {told : Array Event} {search after : Search}
  {entry other : Entry} {rest : Heap Entry}

/-- The entry taken up first is among the cheapest. -/
theorem Tabled.cost_le_of_pop (h : search.Tabled problem)
    (hpop : search.frontier.pop? = some (entry, rest)) (hother : other ∈ search.frontier.toList) :
    (search.tree.get entry.id).layout.cost ≤ (search.tree.get other.id).layout.cost := by
  have hentry := (Heap.mem_iff_of_pop? hpop).mpr (Or.inl rfl)
  have hcost : entry.priority.cost ≤ other.priority.cost := by
    rcases (Heap.mem_iff_of_pop? hpop).mp hother with rfl | hrest
    · exact Nat.le_refl _
    · exact Entry.cost_le_of_isLE (Heap.le_of_pop? hpop other hrest)
  rw [(h.frontier entry hentry).2, (h.frontier other hother).2] at hcost
  exact hcost

/-- No path through all slots is cheaper than the layout that ends an uncut run. -/
theorem cost_le_of_run (hmarkers : Honest problem.limit problem.slots.toList)
    {id : NodeId} (hrun : run problem cap (initial told) = (after, .ok (id, .optimal)))
    {splits : List Split} {last : Layout}
    (hpath : Path problem.limit Layout.start problem.slots.toList splits last) :
    (after.tree.get id).layout.cost ≤ last.cost := by
  obtain ⟨final, hreaches, hstop⟩ := run_stops problem cap (initial told)
  rw [hrun] at hstop
  have hcompletes : CompletesWithin problem.limit
      (problem.slots.toList.drop Layout.start.depth) Layout.start last.cost :=
    ⟨splits, last, hpath, Nat.le_refl _⟩
  obtain ⟨entry', hlive, splits', last', hpath', hle⟩ :=
    hreaches.exists_live (lasting_completesWithin hmarkers last.cost) hcompletes
  rcases turn_stop_cases hstop with ⟨_, hnone⟩ | ⟨entry, rest, hpop, _, hcases⟩
  · cases hnone
  · rcases hcases with ⟨_, rfl, houtcome⟩ | ⟨_, _, ⟨_, heq⟩ | ⟨_, _, houtcome, _⟩⟩
    · cases houtcome
      have hfirst := hreaches.tabled.cost_le_of_pop hpop hlive.1
      exact Nat.le_trans hfirst (Nat.le_trans hpath'.cost_le hle)
    · cases ending_of_truncate heq
    · cases houtcome

end Search

/-- An optimal solution costs no more than any path through the slots. -/
theorem Solution.cost_le {slots : List Slot} {settings : Settings} {solution : Solution}
    (hsearch : search slots settings = .ok solution) (hending : solution.ending = .optimal)
    (hmarkers : Honest solution.limit slots) {splits : List Split} {last : Layout}
    (hpath : Path solution.limit Layout.start slots splits last) : solution.cost ≤ last.cost := by
  obtain ⟨_, after, id, hrun, _, _, hsolution⟩ := exists_run_of_search_eq_ok hsearch
  rw [hending] at hrun
  rw [congrArg Solution.cost hsolution]
  exact Search.cost_le_of_run hmarkers hrun hpath

/-! ## Two ways that meet -/

/-- Both ways to reach the second slot leave the same choices there. -/
def meeting : List Slot :=
  [⟨⟨⟨"", 0⟩, ⟨"if", 2⟩⟩, [(Split.newline 3).withMarker 7, (Split.nothing 1).withMarker 7]⟩,
    ⟨⟨⟨"if", 2⟩, ⟨"x", 3⟩⟩, [.newline 2, .space 1]⟩]

theorem outlook_meeting {limit : Limit} {marker : Marker} {depth : Nat} {layout : Layout}
    (h : Arrives limit meeting marker depth layout) : layout.outlook = ⟨1, 2, [], []⟩ := by
  obtain ⟨splits, split, hpath, hmarker⟩ := h
  match depth with
  | 0 =>
    have hlength := hpath.length_eq
    simp at hlength
  | 1 =>
    generalize htaken : splits ++ [split] = taken at hpath
    cases hpath with
    | cons allowed step rest =>
      cases rest
      obtain ⟨_, _, rfl⟩ := Layout.step_eq_ok_iff.mp step
      rcases List.mem_pair.mp allowed.1 with rfl | rfl
      · rfl
      · rfl
  | depth + 2 =>
    -- The second slot is the last one, and nothing is marked there.
    rw [List.take_of_length_le (Nat.le_add_left 2 depth)] at hpath
    obtain ⟨last, _, _, hlast, _, ⟨hsplit, _⟩, _⟩ :=
      hpath.exists_step (show meeting[1]? = some _ from rfl)
    have hlength : 2 = (splits ++ [split]).length := hpath.length_eq
    rw [List.length_append, List.length_singleton] at hlength
    rw [show 1 = splits.length by omega, List.getElem?_concat_length, Option.some.injEq] at hlast
    subst hlast
    rcases List.mem_pair.mp hsplit with rfl | rfl
    · cases hmarker
    · cases hmarker

theorem honest_meeting (limit : Limit) : Honest limit meeting := by
  intro marker depth layout other harrives harrives' hcost cost hcompletes
  exact hcompletes.of_outlook ((outlook_meeting harrives).trans (outlook_meeting harrives').symm)
    hcost

/-! ## The least cost -/

/-- An uncut search finds the least of the costs of all paths through the slots, under the limit
it ran under, if the markers are honest or there are none. -/
theorem an_optimal_solution_costs_least {slots : List Slot} {settings : Settings}
    {solution : Solution} (hsearch : search slots settings = .ok solution)
    (hending : solution.ending = .optimal)
    (hmarkers : Honest solution.limit slots ∨ Unmarked slots) :
    Slot.effectiveLimit slots settings = .ok solution.limit ∧
    IsLeast {cost | ∃ splits last, Path solution.limit Layout.start slots splits last ∧
      last.cost = cost} solution.cost := by
  have hhonest : Honest solution.limit slots := hmarkers.elim id (honest_of_unmarked _)
  refine ⟨(exists_run_of_search_eq_ok hsearch).1.limit_eq, ?_, ?_⟩
  · obtain ⟨last, hpath, hcost⟩ := Solution.path hsearch
    exact ⟨solution.splits, last, hpath, hcost⟩
  · rintro cost ⟨splits, last, hpath, rfl⟩
    exact Solution.cost_le hsearch hending hhonest hpath

theorem the_least_cost_past_a_marker :
    ∃ solution, search meeting ⟨80, 10000, 10⟩ = .ok solution ∧ solution.ending = .optimal ∧
      Honest solution.limit meeting ∧
      IsLeast {cost | ∃ splits last, Path solution.limit Layout.start meeting splits last ∧
        last.cost = cost} solution.cost := by
  obtain ⟨solution, hsearch, hending⟩ :=
    exists_solution_of_ending (show (search meeting ⟨80, 10000, 10⟩).toOption.map _ = _ by cbv)
  have hmarkers := honest_meeting solution.limit
  exact ⟨solution, hsearch, hending, hmarkers,
    (an_optimal_solution_costs_least hsearch hending (.inl hmarkers)).2⟩

end LineBreak
