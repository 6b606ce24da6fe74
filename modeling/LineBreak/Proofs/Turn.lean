-- What one turn of a search can do, told once: which node it takes up, what
-- becomes of each child, and how a turn ends the search. A run is a sequence
-- of turns that go on, and then one that does not.
import LineBreak.Proofs.Growth
import Mathlib.Logic.Relation

namespace LineBreak

namespace Search

variable {problem : Problem} {cap : Nat} {search after : Search} {limit : Limit} {node : Node}
  {boundary : Boundary} {options : List (Split × Nat)} {slot : Slot}

/-! ## Tables

What is told and counted on the way has no influence on the search. -/

structure SameTables (search other : Search) : Prop where
  tree : search.tree = other.tree
  choices : search.choices = other.choices
  frontier : search.frontier = other.frontier
  best : search.best = other.best
  cheapest : search.cheapest = other.cheapest

theorem sameTables_log (search : Search) (event : Event) : (search.log event).SameTables search :=
  ⟨rfl, rfl, rfl, rfl, rfl⟩

theorem sameTables_logConflict (search : Search) (slot : Slot) (layout : Layout) :
    (search.logConflict slot layout).SameTables search := by
  unfold logConflict
  split
  · exact sameTables_log search _
  · exact ⟨rfl, rfl, rfl, rfl, rfl⟩

/-! ## One child -/

/-- A child is outrun and dropped, or it is dominated and dropped, or it is kept. In the last
two cases the cost at its milestone is noted. -/
theorem takeUp_cases (search : Search) (child : Node) (split : Split) (choice : Nat) :
    (search.isOutrun child.layout split = true ∧
      search.takeUp child split choice = search.prune) ∨
    (search.isOutrun child.layout split = false ∧
      (search.noteMilestone child.layout split).isDominated child.layout = true ∧
      search.takeUp child split choice = (search.noteMilestone child.layout split).prune) ∨
    (search.isOutrun child.layout split = false ∧
      (search.noteMilestone child.layout split).isDominated child.layout = false ∧
      search.takeUp child split choice =
        (search.noteMilestone child.layout split).keep child choice) := by
  unfold takeUp
  by_cases houtrun : search.isOutrun child.layout split = true
  · exact Or.inl ⟨houtrun, if_pos houtrun⟩
  · rw [if_neg houtrun]
    rw [Bool.not_eq_true] at houtrun
    by_cases hdom : (search.noteMilestone child.layout split).isDominated child.layout = true
    · exact Or.inr (Or.inl ⟨houtrun, hdom, if_pos hdom⟩)
    · exact Or.inr (Or.inr ⟨houtrun, by simpa using hdom, if_neg hdom⟩)

/-! ## All children of a node -/

theorem branch_cons {split : Split} {choice : Nat} {child : Node}
    (h : node.next limit split boundary = .ok child) :
    branch limit node boundary ((split, choice) :: options) search =
      branch limit node boundary options (search.takeUp child split choice) := by
  simp [branch, h]

/-- A branch that ends without a fault has taken up a child for every option. -/
theorem passable_of_branch (h : (branch limit node boundary options search).2 = none) :
    ∀ option ∈ options, ∃ child, node.next limit option.1 boundary = .ok child := by
  fun_induction branch limit node boundary options search with
  | case1 => simp
  | case2 => cases h
  | case3 split choice options search child hchild ih =>
    intro option hoption
    rcases List.mem_cons.mp hoption with rfl | hmem
    · exact ⟨child, hchild⟩
    · exact ih h option hmem

theorem passable_of_next
    (h : ∀ option ∈ slot.options node.layout.constraints,
      ∃ child, node.next limit option.1 slot.boundary = .ok child) :
    slot.Passable limit node.layout := by
  intro option hoption
  obtain ⟨child, hnext⟩ := h option hoption
  obtain ⟨after, hstep, _⟩ := Node.next_eq_ok_iff.mp hnext
  exact ⟨after, hstep⟩

theorem fault_of_branch {fault : Fault}
    (h : (branch limit node boundary options search).2 = some fault) :
    ∃ option ∈ options, node.next limit option.1 boundary = .error fault := by
  fun_induction branch limit node boundary options search with
  | case1 => cases h
  | case2 split choice options search fault' hfault =>
    cases h
    exact ⟨_, List.mem_cons_self, hfault⟩
  | case3 split choice options search child hchild ih =>
    obtain ⟨option, hmem, hfault⟩ := ih h
    exact ⟨option, List.mem_cons_of_mem _ hmem, hfault⟩

/-- What holds of a search and is kept by taking up any child holds after the branch. -/
theorem branch_keeps {P : Search → Prop} (h : P search)
    (hkeeps : ∀ search split choice child, (split, choice) ∈ options →
      node.next limit split boundary = .ok child → P search →
      P (search.takeUp child split choice)) :
    P (branch limit node boundary options search).1 := by
  fun_induction branch limit node boundary options search with
  | case1 => exact h
  | case2 => exact h
  | case3 split choice options search child hchild ih =>
    refine ih (hkeeps search split choice child List.mem_cons_self hchild h) ?_
    intro search' split' choice' child' hmem
    exact hkeeps search' split' choice' child' (List.mem_cons_of_mem _ hmem)

/-- Extending a node is a branch over its options. -/
theorem expand_cases {fault? : Option Fault}
    (h : search.expand limit node slot = (after, fault?)) :
    ∃ told : Search, told.SameTables search ∧
      (branch limit node slot.boundary (slot.options node.layout.constraints) told).1 = after ∧
      (branch limit node slot.boundary (slot.options node.layout.constraints) told).2 = fault? := by
  refine ⟨_, ?_, congrArg Prod.fst h, congrArg Prod.snd h⟩
  obtain ⟨h1, h2, h3, h4, h5⟩ := sameTables_logConflict
    ({ search with expanded := search.expanded + 1 }.log
      (.expanding node.layout.depth node.layout.cost)) slot node.layout
  exact ⟨h1, h2, h3, h4, h5⟩

/-! ## One turn -/

/-- A turn that goes on drops a superseded entry or extends the node of the first entry. -/
theorem turn_goOn_cases (h : turn problem cap search = .goOn after) :
    ∃ entry rest, search.frontier.pop? = some (entry, rest) ∧
      ((search.isSuperseded entry.id = true ∧ after = { search with frontier := rest }) ∨
       (search.isSuperseded entry.id = false ∧ search.expanded < cap ∧
        ∃ slot, problem.slots[(search.tree.get entry.id).layout.depth]? = some slot ∧
          { search with frontier := rest }.expand problem.limit (search.tree.get entry.id) slot =
            (after, none))) := by
  unfold turn at h
  split at h
  · cases h
  · rename_i entry rest hpop
    refine ⟨entry, rest, hpop, ?_⟩
    dsimp only at h
    split at h
    · rename_i hsuper
      cases h
      exact Or.inl ⟨hsuper, rfl⟩
    · rename_i hsuper
      refine Or.inr ⟨eq_false_of_ne_true hsuper, ?_⟩
      split at h
      · cases h
      · rename_i slot hslot
        split at h
        · cases h
        · rename_i hcap
          split at h
          · rename_i heq
            cases h
            exact ⟨Nat.lt_of_not_le hcap, slot, hslot, heq⟩
          · cases h

/-- A turn that stops the search has found the frontier empty, a layout complete, the cap
reached or a child at fault. -/
theorem turn_stop_cases {outcome : Except Fault (NodeId × Ending)}
    (h : turn problem cap search = .stop after outcome) :
    (search.frontier.pop? = none ∧ outcome = .error (.exhausted search.expanded)) ∨
    ∃ entry rest, search.frontier.pop? = some (entry, rest) ∧
      search.isSuperseded entry.id = false ∧
      ((problem.slots[(search.tree.get entry.id).layout.depth]? = none ∧
        after = { search with frontier := rest } ∧ outcome = .ok (entry.id, .optimal)) ∨
       ∃ slot, problem.slots[(search.tree.get entry.id).layout.depth]? = some slot ∧
        ((cap ≤ search.expanded ∧ (after, outcome) =
            truncate problem { search with frontier := rest } entry.id
              (search.tree.get entry.id).layout.depth) ∨
         (search.expanded < cap ∧ ∃ fault, outcome = .error fault ∧
          { search with frontier := rest }.expand problem.limit (search.tree.get entry.id) slot =
            (after, some fault)))) := by
  unfold turn at h
  split at h
  · rename_i hpop
    cases h
    exact Or.inl ⟨hpop, rfl⟩
  · rename_i entry rest hpop
    refine Or.inr ⟨entry, rest, hpop, ?_⟩
    dsimp only at h
    split at h
    · cases h
    · rename_i hsuper
      refine ⟨eq_false_of_ne_true hsuper, ?_⟩
      split at h
      · rename_i hslot
        cases h
        exact Or.inl ⟨hslot, rfl, rfl⟩
      · rename_i slot hslot
        refine Or.inr ⟨slot, hslot, ?_⟩
        split at h
        · rename_i hcap
          cases h
          exact Or.inl ⟨hcap, rfl⟩
        · rename_i hcap
          split at h
          · cases h
          · rename_i fault heq
            cases h
            exact Or.inr ⟨Nat.lt_of_not_le hcap, fault, rfl, heq⟩

/-! ## Runs -/

/-- One turn leads from the search to the other and goes on. -/
def GoesOn (problem : Problem) (cap : Nat) (search after : Search) : Prop :=
  turn problem cap search = .goOn after

/-- Some number of turns, all going on, lead from the search to the other. -/
def Reaches (problem : Problem) (cap : Nat) : Search → Search → Prop :=
  Relation.ReflTransGen (GoesOn problem cap)

/-- Every run ends: after some turns that go on there is one that stops, and its outcome is
that of the run. -/
theorem run_stops (problem : Problem) (cap : Nat) (search : Search) :
    ∃ last, Reaches problem cap search last ∧
      turn problem cap last = .stop (run problem cap search).1 (run problem cap search).2 := by
  fun_induction run problem cap search with
  | case1 search final outcome hturn => exact ⟨search, .refl, hturn⟩
  | case2 search next hturn ih =>
    obtain ⟨last, hreaches, hstop⟩ := ih
    exact ⟨last, .head hturn hreaches, hstop⟩

/-- What holds at first and is kept by every turn that goes on holds all along. -/
theorem Reaches.keeps {P : Search → Prop} (h : Reaches problem cap search after) (hfirst : P search)
    (hkeeps : ∀ s t, P s → turn problem cap s = .goOn t → P t) : P after := by
  induction h with
  | refl => exact hfirst
  | tail _ hturn ih => exact hkeeps _ _ ih hturn

end Search

end LineBreak
