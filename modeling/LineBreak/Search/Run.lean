-- The search itself: the best layout in the frontier is taken up, until one
-- has all boundaries filled or the cap on expansions is reached.
import LineBreak.Search.Tables

namespace LineBreak

/-- How a search ended. -/
inductive Ending where
  /-- The layout is known to be the cheapest. -/
  | optimal
  /-- The cap was reached and the layout completed as it looked best. -/
  | truncated
  deriving DecidableEq

/-- What is searched: the slots, and the limit that layouts are charged by. -/
structure Problem where
  slots : Array Slot
  limit : Limit

namespace Search

/-- What one turn of a search leads to. -/
inductive Turn where
  | goOn (search : Search)
  | stop (search : Search) (outcome : Except Fault (NodeId × Ending))

/-- The end of a search that has reached its cap. -/
def truncate (problem : Problem) (search : Search) (id : NodeId) (depth : Nat) :
    Search × Except Fault (NodeId × Ending) :=
  let search := search.log (.capReached search.expanded depth problem.slots.size)
  let (search, outcome) := complete problem.limit (problem.slots.toList.drop depth) id search
  (search, outcome.map (·, .truncated))

/-- Takes up the first node of the frontier. -/
def turn (problem : Problem) (cap : Nat) (search : Search) : Turn :=
  match search.frontier.pop? with
  | none => .stop search (.error (.exhausted search.expanded))
  | some (entry, frontier) =>
    let search := { search with frontier }
    if search.isSuperseded entry.id then .goOn search
    else
      let node := search.tree.get entry.id
      match problem.slots[node.layout.depth]? with
      | none => .stop search (.ok (entry.id, .optimal))
      | some slot =>
        if cap ≤ search.expanded then
          let (search, outcome) := truncate problem search entry.id node.layout.depth
          .stop search outcome
        else
          match search.expand problem.limit node slot with
          | (search, none) => .goOn search
          | (search, some fault) => .stop search (.error fault)

/-! ## Every turn comes closer to the end -/

@[simp]
theorem expanded_noteMilestone (search : Search) (child : Layout) (split : Split) :
    (search.noteMilestone child split).expanded = search.expanded := by
  unfold noteMilestone
  split <;> rfl

@[simp]
theorem expanded_takeUp (search : Search) (child : Node) (split : Split) (choice : Nat) :
    (search.takeUp child split choice).expanded = search.expanded := by
  unfold takeUp
  dsimp only
  split
  · rfl
  · split
    · exact expanded_noteMilestone search child.layout split
    · exact expanded_noteMilestone search child.layout split

@[simp]
theorem expanded_branch (limit : Limit) (node : Node) (boundary : Boundary)
    (options : List (Split × Nat)) (search : Search) :
    (branch limit node boundary options search).1.expanded = search.expanded := by
  fun_induction branch limit node boundary options search with
  | case1 => rfl
  | case2 => rfl
  | case3 search split choice options child hchild ih => rw [ih, expanded_takeUp]

@[simp]
theorem expanded_expand (search : Search) (limit : Limit) (node : Node) (slot : Slot) :
    (search.expand limit node slot).1.expanded = search.expanded + 1 := by
  unfold expand
  rw [expanded_branch]
  unfold logConflict
  split <;> rfl

/-- A turn that goes on has expanded a node, below the cap, or it has shortened the frontier. -/
theorem turn_goOn {problem : Problem} {cap : Nat} {search after : Search}
    (h : turn problem cap search = .goOn after) :
    (search.expanded < cap ∧ after.expanded = search.expanded + 1) ∨
      (after.expanded = search.expanded ∧ after.frontier.size < search.frontier.size) := by
  unfold turn at h
  split at h
  · cases h
  · rename_i entry frontier hpop
    dsimp only at h
    split at h
    · cases h
      exact .inr ⟨rfl, Nat.lt_of_lt_of_eq (Nat.lt_succ_self _) (Heap.size_of_pop? hpop).symm⟩
    · split at h
      · cases h
      · split at h
        · cases h
        · rename_i hcap
          split at h
          · rename_i heq
            cases h
            have := congrArg (fun r => r.1.expanded) heq
            simp only [expanded_expand] at this
            exact .inl ⟨Nat.lt_of_not_le hcap, this.symm⟩
          · cases h

/-- Takes turns until one of them ends the search. -/
def run (problem : Problem) (cap : Nat) (search : Search) :
    Search × Except Fault (NodeId × Ending) :=
  match _h : turn problem cap search with
  | .stop search outcome => (search, outcome)
  | .goOn after => run problem cap after
termination_by (cap - search.expanded, search.frontier.size)
decreasing_by
  rcases turn_goOn _h with ⟨hcap, hexpanded⟩ | ⟨hexpanded, hsize⟩
  · exact Prod.Lex.left _ _ (by omega)
  · rw [hexpanded]
    exact Prod.Lex.right _ hsize

end Search

end LineBreak
