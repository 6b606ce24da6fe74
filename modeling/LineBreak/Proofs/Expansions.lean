-- The cap on expansions only decides where a search is cut. Two searches of
-- the same slots take the same turns as long as neither has reached its cap,
-- so a search that ends before its cap ends alike under every cap that leaves
-- it as many expansions, and under a lower one it is cut.
import LineBreak.Proofs.Solution

namespace LineBreak

namespace Search

variable {problem : Problem} {cap cap' : Nat} {search after last : Search} {id : NodeId}
  {outcome : Except Fault (NodeId × Ending)} {entry : Entry} {rest : Heap Entry}

/-! ## What a completion leaves alone -/

/-- What holds of a search, wherever constraints are told to be ignored and whatever is stored,
holds after a completion. -/
theorem complete_keeps {P : Search → Prop}
    (hlog : ∀ s boundary, P s → P (s.log (.constraintsIgnored boundary)))
    (hstore : ∀ s node choice, P s → P (s.store node choice).1) (limit : Limit)
    (ahead : List Slot) (id : NodeId) (h : P search) : P (complete limit ahead id search).1 := by
  induction ahead generalizing id search with
  | nil => exact h
  | cons slot ahead ih =>
    have hconflict : P (search.logConflict slot (search.tree.get id).layout) := by
      unfold logConflict
      split
      · exact hlog search _ h
      · exact h
    unfold complete
    dsimp only
    split
    · exact hconflict
    · exact hconflict
    · exact ih _ (hstore _ _ _ hconflict)

theorem truncate_fst (problem : Problem) (search : Search) (id : NodeId) (depth : Nat) :
    (truncate problem search id depth).1 =
      (complete problem.limit (problem.slots.toList.drop depth) id
        (search.log (.capReached search.expanded depth problem.slots.size))).1 := rfl

theorem expanded_truncate (problem : Problem) (search : Search) (id : NodeId) (depth : Nat) :
    (truncate problem search id depth).1.expanded = search.expanded := by
  rw [truncate_fst]
  apply complete_keeps (P := fun s => s.expanded = search.expanded)
  · intro s boundary h
    exact h
  · intro s node choice h
    exact h
  · rfl

/-- A search that is cut tells so. -/
theorem capReached_mem_events (problem : Problem) (search : Search) (id : NodeId) (depth : Nat) :
    .capReached search.expanded depth problem.slots.size ∈
      (truncate problem search id depth).1.events := by
  rw [truncate_fst]
  apply complete_keeps
    (P := fun s => .capReached search.expanded depth problem.slots.size ∈ s.events)
  · intro s boundary h
    exact Array.mem_push_of_mem _ h
  · intro s node choice h
    exact h
  · exact Array.mem_push_self

/-! ## The number of expansions -/

theorem Reaches.expanded_le (h : Reaches problem cap search after)
    (hfirst : search.expanded ≤ cap) : after.expanded ≤ cap := by
  apply h.keeps (P := fun s => s.expanded ≤ cap) hfirst
  intro s t hs hturn
  rcases turn_goOn hturn with ⟨hlt, heq⟩ | ⟨heq, _⟩
  · omega
  · omega

/-- A run never expands more nodes than its cap, and one that is cut expands as many. -/
theorem expanded_of_run {ending : Ending} (hfirst : search.expanded ≤ cap)
    (hrun : run problem cap search = (after, .ok (id, ending))) :
    after.expanded ≤ cap ∧ (ending = .truncated → after.expanded = cap) := by
  obtain ⟨last, hreaches, hstop⟩ := run_stops problem cap search
  rw [hrun] at hstop
  have hle := hreaches.expanded_le hfirst
  rcases turn_stop_cases hstop with ⟨_, houtcome⟩ | ⟨entry, rest, _, _, hcases⟩
  · cases houtcome
  · rcases hcases with ⟨_, rfl, houtcome⟩ | ⟨_, _, ⟨hcap, heq⟩ | ⟨_, _, houtcome, _⟩⟩
    · cases houtcome
      refine ⟨hle, ?_⟩
      intro hending
      cases hending
    · have hexpanded : after.expanded = last.expanded :=
        (congrArg (·.1.expanded) heq).trans (expanded_truncate problem _ entry.id _)
      rw [hexpanded]
      exact ⟨hle, fun _ => Nat.le_antisymm hle hcap⟩
    · cases houtcome

/-! ## One turn under two caps -/

/-- A turn looks at the cap only to see whether it is reached. -/
theorem turn_congr (h : cap ≤ search.expanded ↔ cap' ≤ search.expanded) :
    turn problem cap search = turn problem cap' search := by
  unfold turn
  simp only [h]

theorem turn_of_empty (cap : Nat) (hpop : search.frontier.pop? = none) :
    turn problem cap search = .stop search (.error (.exhausted search.expanded)) := by
  unfold turn
  rw [hpop]

theorem turn_of_superseded (cap : Nat) (hpop : search.frontier.pop? = some (entry, rest))
    (hsuper : search.isSuperseded entry.id = true) :
    turn problem cap search = .goOn { search with frontier := rest } := by
  unfold turn
  rw [hpop]
  exact if_pos hsuper

theorem turn_of_complete (cap : Nat) (hpop : search.frontier.pop? = some (entry, rest))
    (hsuper : search.isSuperseded entry.id = false)
    (hdone : problem.slots[(search.tree.get entry.id).layout.depth]? = none) :
    turn problem cap search =
      .stop { search with frontier := rest } (.ok (entry.id, .optimal)) := by
  have hsuper' : ¬ { search with frontier := rest }.isSuperseded entry.id = true := by
    intro h
    exact Bool.false_ne_true (hsuper.symm.trans h)
  unfold turn
  rw [hpop]
  dsimp only
  rw [if_neg hsuper', hdone]

/-- A turn that goes on without passing the other cap goes on alike under it. -/
theorem turn_goOn_recap (h : turn problem cap search = .goOn after)
    (hle : after.expanded ≤ cap') : turn problem cap' search = .goOn after := by
  obtain ⟨entry, rest, hpop, ⟨hsuper, rfl⟩ | ⟨_, hlt, slot, _, hexpand⟩⟩ := turn_goOn_cases h
  · exact turn_of_superseded cap' hpop hsuper
  · have hexpanded : after.expanded = search.expanded + 1 := by
      rw [← congrArg (·.1.expanded) hexpand]
      exact expanded_expand { search with frontier := rest } problem.limit _ slot
    rw [← h]
    apply turn_congr
    omega

/-- A turn that stops the search does so under every greater cap, unless it cuts the search. -/
theorem turn_stop_recap (h : turn problem cap search = .stop after outcome) (hle : cap ≤ cap') :
    turn problem cap' search = .stop after outcome ∨
      ∃ id rest depth, cap ≤ search.expanded ∧ depth < problem.slots.size ∧
        (after, outcome) = truncate problem { search with frontier := rest } id depth := by
  rcases turn_stop_cases h with ⟨hpop, _⟩ | ⟨entry, rest, hpop, hsuper, hcases⟩
  · rw [← h, turn_of_empty cap hpop]
    exact .inl (turn_of_empty cap' hpop)
  · rcases hcases with ⟨hdone, _, _⟩ | ⟨slot, hslot, ⟨hcap, heq⟩ | ⟨hlt, _⟩⟩
    · rw [← h, turn_of_complete cap hpop hsuper hdone]
      exact .inl (turn_of_complete cap' hpop hsuper hdone)
    · obtain ⟨hdepth, _⟩ := Array.getElem?_eq_some_iff.mp hslot
      exact .inr ⟨entry.id, rest, _, hcap, hdepth, heq⟩
    · rw [← h]
      refine .inl (turn_congr ?_)
      omega

/-- A turn that finds a layout complete does not expand anything, and it would find it complete
under every cap. -/
theorem turn_optimal_recap (h : turn problem cap search = .stop after (.ok (id, .optimal))) :
    after.expanded = search.expanded ∧
      ∀ cap', turn problem cap' search = .stop after (.ok (id, .optimal)) := by
  rcases turn_stop_cases h with ⟨_, houtcome⟩ | ⟨entry, rest, hpop, hsuper, hcases⟩
  · cases houtcome
  · rcases hcases with ⟨hdone, rfl, houtcome⟩ | ⟨_, _, ⟨_, heq⟩ | ⟨_, _, houtcome, _⟩⟩
    · cases houtcome
      exact ⟨rfl, fun cap' => turn_of_complete cap' hpop hsuper hdone⟩
    · cases ending_of_truncate heq
    · cases houtcome

/-! ## A run under two caps -/

theorem Reaches.recap (h : Reaches problem cap search after) (hle : after.expanded ≤ cap') :
    Reaches problem cap' search after := by
  induction h with
  | refl => exact .refl
  | @tail middle after _ hturn ih =>
    have hmiddle : middle.expanded ≤ cap' := by
      rcases turn_goOn hturn with ⟨_, heq⟩ | ⟨heq, _⟩
      · omega
      · omega
    exact .tail (ih hmiddle) (turn_goOn_recap hturn hle)

theorem run_eq_of_stop (h : Reaches problem cap search last)
    (hstop : turn problem cap last = .stop after outcome) :
    run problem cap search = (after, outcome) := by
  induction h using Relation.ReflTransGen.head_induction_on with
  | refl =>
    unfold run
    split
    · rename_i heq
      cases heq.symm.trans hstop
      rfl
    · rename_i heq
      cases heq.symm.trans hstop
  | head hturn _ ih =>
    unfold run
    split
    · rename_i heq
      cases heq.symm.trans hturn
    · rename_i heq
      cases heq.symm.trans hturn
      exact ih

/-- A run that is not cut ends alike under every cap that leaves it as many expansions. -/
theorem run_recap (hrun : run problem cap search = (after, .ok (id, .optimal)))
    (hle : after.expanded ≤ cap') :
    run problem cap' search = (after, .ok (id, .optimal)) := by
  obtain ⟨last, hreaches, hstop⟩ := run_stops problem cap search
  rw [hrun] at hstop
  obtain ⟨hexpanded, hstop'⟩ := turn_optimal_recap hstop
  rw [hexpanded] at hle
  exact run_eq_of_stop (hreaches.recap hle) (hstop' cap')

/-- Under a cap that leaves it fewer expansions, such a run is cut as soon as it has used them
up. -/
theorem run_cut (hfirst : search.expanded = 0)
    (hrun : run problem cap search = (after, .ok (id, .optimal)))
    (hlt : cap' < after.expanded) :
    ∃ (last : Search) (rest : Heap Entry) (id : NodeId) (depth : Nat), last.expanded = cap' ∧
      depth < problem.slots.size ∧
      run problem cap' search = truncate problem { last with frontier := rest } id depth := by
  have hcap := (expanded_of_run (show search.expanded ≤ cap by omega) hrun).1
  obtain ⟨last, hreaches, hstop⟩ := run_stops problem cap' search
  have hfirst' : search.expanded ≤ cap' := by omega
  have hle := hreaches.expanded_le hfirst'
  rcases turn_stop_recap hstop (show cap' ≤ cap by omega) with
    hsame | ⟨id', rest, depth, hreached, hdepth, heq⟩
  · -- Both runs take the same turns to the same end, so the first keeps to the lower cap as well.
    have hrun' := run_eq_of_stop (hreaches.recap (show last.expanded ≤ cap by omega)) hsame
    rw [hrun] at hrun'
    have hle' := (expanded_of_run hfirst' hrun'.symm).1
    omega
  · exact ⟨last, rest, id', depth, Nat.le_antisymm hle hreached, hdepth, heq⟩

end Search

/-! ## Two searches -/

section

variable {slots : List Slot} {settings : Settings} {limit : Limit} {solution : Solution} {cap : Nat}

theorem Slot.Accepted.recap (h : Slot.Accepted slots settings limit) (cap : Nat) :
    Slot.Accepted slots { settings with maxExpansions := cap } limit := ⟨h.check, h.limit_eq⟩

theorem search_eq_of_run (h : Slot.Accepted slots settings limit) {after : Search} {id : NodeId}
    {ending : Ending}
    (hrun : (Search.initial (Report.preamble slots settings limit)).run ⟨slots.toArray, limit⟩
      settings.maxExpansions = (after, .ok (id, ending))) :
    search slots settings = .ok (after.solution ⟨slots.toArray, limit⟩ id ending) := by
  unfold search
  rw [h.report_eq]
  unfold Report.ofProblem
  rw [hrun]

/-- What a run tells stands in the report. -/
theorem mem_events_of_run (h : Slot.Accepted slots settings limit) {after : Search}
    {outcome : Except Fault (NodeId × Ending)} {event : Event}
    (hrun : (Search.initial (Report.preamble slots settings limit)).run ⟨slots.toArray, limit⟩
      settings.maxExpansions = (after, outcome))
    (hevent : event ∈ after.events) : event ∈ (Report.ofSlots slots settings).events := by
  rw [h.report_eq]
  unfold Report.ofProblem
  rw [hrun]
  cases outcome with
  | error fault => exact hevent
  | ok last => exact Array.mem_push_of_mem _ hevent

theorem expanded_of_search (h : search slots settings = .ok solution) :
    solution.expanded ≤ settings.maxExpansions ∧
      (solution.ending = .truncated → solution.expanded = settings.maxExpansions) := by
  obtain ⟨_, after, id, hrun, _, _, hsolution⟩ := exists_run_of_search_eq_ok h
  rw [congrArg Solution.expanded hsolution]
  exact Search.expanded_of_run (Nat.zero_le _) hrun

theorem search_recap (h : search slots settings = .ok solution)
    (hending : solution.ending = .optimal) (hle : solution.expanded ≤ cap) :
    search slots { settings with maxExpansions := cap } = .ok solution := by
  obtain ⟨haccepted, after, id, hrun, _, _, hsolution⟩ := exists_run_of_search_eq_ok h
  rw [congrArg Solution.expanded hsolution] at hle
  rw [hending] at hrun hsolution
  rw [hsolution]
  exact search_eq_of_run (haccepted.recap cap) (Search.run_recap hrun hle)

/-- A search with fewer expansions than an uncut one took tells that it was cut. -/
theorem exists_capReached (h : search slots settings = .ok solution)
    (hending : solution.ending = .optimal) (hlt : cap < solution.expanded) :
    ∃ depth < slots.length, .capReached cap depth slots.length ∈
      (Report.ofSlots slots { settings with maxExpansions := cap }).events := by
  obtain ⟨haccepted, after, id, hrun, _, _, hsolution⟩ := exists_run_of_search_eq_ok h
  rw [congrArg Solution.expanded hsolution] at hlt
  rw [hending] at hrun
  obtain ⟨last, rest, id', depth, hexpanded, hdepth, hcut⟩ :=
    Search.run_cut rfl hrun hlt
  have hevent := Search.capReached_mem_events ⟨slots.toArray, solution.limit⟩
    { last with frontier := rest } id' depth
  refine ⟨depth, hdepth, mem_events_of_run (haccepted.recap cap) hcut ?_⟩
  subst hexpanded
  exact hevent

end

/-- The cap on expansions only cuts a search short. No search expands more layouts than its cap,
and one that is cut expands as many. If a search is not cut, then every cap that leaves it as
many expansions gives the same solution, and every lower one cuts it: it is completed as it
looks best, or that comes to a scope that is over. -/
theorem the_cap_only_cuts_a_search_short (slots : List Slot) (settings : Settings)
    (solution : Solution) (h : search slots settings = .ok solution) :
    solution.expanded ≤ settings.maxExpansions ∧
    (solution.ending = .truncated → solution.expanded = settings.maxExpansions) ∧
    (solution.ending = .optimal → ∀ cap,
      (solution.expanded ≤ cap →
        search slots { settings with maxExpansions := cap } = .ok solution) ∧
      (cap < solution.expanded →
        (∃ depth < slots.length, .capReached cap depth slots.length ∈
          (Report.ofSlots slots { settings with maxExpansions := cap }).events) ∧
        ((∃ cut, search slots { settings with maxExpansions := cap } = .ok cut ∧
            cut.ending = .truncated) ∨
          ∃ i, search slots { settings with maxExpansions := cap } =
            .error (.expiredScope i)))) := by
  obtain ⟨hle, htruncated⟩ := expanded_of_search h
  refine ⟨hle, htruncated, ?_⟩
  intro hending cap
  refine ⟨search_recap h hending, ?_⟩
  intro hlt
  refine ⟨exists_capReached h hending hlt, ?_⟩
  cases hsearch : search slots { settings with maxExpansions := cap } with
  | error fault =>
    have haccepted := (exists_run_of_search_eq_ok h).1.recap cap
    obtain ⟨i, _, rfl, _⟩ := expired_of_search_eq_error haccepted hsearch
    exact .inr ⟨i, rfl⟩
  | ok cut =>
    refine .inl ⟨cut, rfl, ?_⟩
    have hcut : cut.expanded ≤ cap := (expanded_of_search hsearch).1
    cases hcutEnding : cut.ending with
    | truncated => rfl
    | optimal =>
      -- An uncut search would be the first one over again, within too few expansions.
      have hback := search_recap hsearch hcutEnding
        (show cut.expanded ≤ settings.maxExpansions by omega)
      have hsame : search slots settings = .ok cut := hback
      rw [h] at hsame
      cases hsame
      omega

/-- Two expansions are enough for two slots, and with one the search is cut. -/
theorem two_expansions_are_needed_for_two_slots :
    ∃ solution, search keptTogether ⟨80, 10000, 10⟩ = .ok solution ∧
      solution.ending = .optimal ∧ solution.expanded = 2 ∧
      search keptTogether ⟨80, 10000, 2⟩ = .ok solution ∧
      ∃ depth < 2, .capReached 1 depth 2 ∈
        (Report.ofSlots keptTogether ⟨80, 10000, 1⟩).events := by
  obtain ⟨solution, hsearch, hending⟩ :=
    exists_solution_of_ending (show (search keptTogether ⟨80, 10000, 10⟩).toOption.map _ = _ by cbv)
  have hexpanded : (search keptTogether ⟨80, 10000, 10⟩).toOption.map (·.expanded) = some 2 := by
    cbv
  rw [hsearch] at hexpanded
  have htwo : solution.expanded = 2 := Option.some.inj hexpanded
  obtain ⟨_, _, hcaps⟩ := the_cap_only_cuts_a_search_short _ _ solution hsearch
  have henough := (hcaps hending 2).1 (Nat.le_of_eq htwo)
  have hcut := ((hcaps hending 1).2 (by omega)).1
  exact ⟨solution, hsearch, hending, htwo, henough, hcut⟩

end LineBreak
