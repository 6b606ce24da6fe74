-- The scopes in force after a path, told from the path as a whole: those that
-- were live at every boundary since the one where they were opened. Where no
-- token ends before an earlier one, the last boundary alone decides.
import LineBreak.Proofs.Penalty
import LineBreak.Proofs.Writing

namespace LineBreak

namespace OpenScope

/-- The scope is live at every boundary of the path. -/
def LiveThrough (opened : OpenScope) (path : List (Boundary × Split)) : Prop :=
  ∀ step ∈ path, opened.scope.LiveAt step.1

instance (opened : OpenScope) (path : List (Boundary × Split)) :
    Decidable (opened.LiveThrough path) :=
  inferInstanceAs (Decidable (∀ step ∈ path, opened.scope.LiveAt step.1))

@[simp]
theorem liveThrough_nil (opened : OpenScope) : opened.LiveThrough [] := by
  simp [LiveThrough]

@[simp]
theorem liveThrough_cons (opened : OpenScope) (step : Boundary × Split)
    (path : List (Boundary × Split)) :
    opened.LiveThrough (step :: path) ↔
      opened.scope.LiveAt step.1 ∧ opened.LiveThrough path := by
  simp [LiveThrough]

/-- Open scopes add up to the sum of their lengths, up to the greatest width. -/
theorem val_total (scopes : List OpenScope) :
    (total scopes).val = min (scopes.map (·.scope.length.val)).sum 4294967295 := by
  unfold total
  rw [Capped.val_foldl_add, List.map_map, Capped.val_zero, Nat.zero_add]
  rfl

end OpenScope

namespace Layout

/-! ## What a path opens -/

/-- The scopes that a split opens, stamped with the layout before it. -/
def opened (before : Layout) (split : Split) : List OpenScope :=
  split.scopes.map (⟨·, before.column, before.indentation⟩)

/-- The scopes opened at each step of a path, where `befores` are the layouts before the steps. -/
def openings (path : List (Boundary × Split)) (befores : List Layout) : List (List OpenScope) :=
  path.zipWith (fun step before => before.opened step.2) befores

/-- Of the scopes opened at each step, those that are live at every boundary from there on. -/
def survivors (path : List (Boundary × Split)) (befores : List Layout) : List (List OpenScope) :=
  (openings path befores).mapIdx fun i opened => opened.filter (·.LiveThrough (path.drop i))

@[simp]
theorem survivors_cons (step : Boundary × Split) (path : List (Boundary × Split))
    (before : Layout) (befores : List Layout) :
    survivors (step :: path) (before :: befores) =
      (before.opened step.2).filter (·.LiveThrough (step :: path)) :: survivors path befores := by
  simp [survivors, openings, List.mapIdx_cons]

/-! ## What is in force at its end -/

/-- One step keeps the old scopes that are live at its boundary. Those that the split opens are
live there, or the split would be at fault. -/
theorem filter_liveThrough_scopesAfter {split : Split} {boundary : Boundary}
    (hopens : split.OpensAt boundary) (layout : Layout) (path : List (Boundary × Split)) :
    (layout.scopesAfter split boundary).filter (·.LiveThrough path) =
      layout.scopes.filter (·.LiveThrough ((boundary, split) :: path)) ++
        (layout.opened split).filter (·.LiveThrough ((boundary, split) :: path)) := by
  unfold scopesAfter
  rw [List.filter_append, List.filter_filter]
  congr 1
  · apply List.filter_congr
    intro opened _
    simp [Bool.and_comm]
  · apply List.filter_congr
    intro opened hopened
    obtain ⟨scope, hscope, rfl⟩ := List.mem_map.mp hopened
    simp [hopens scope hscope]

variable {limit : Limit} {layout : Layout} {path : List (Boundary × Split)}
  {layouts : List Layout}

/-- After a walk, the scopes of the layout that it started from are in force if they were live all
along, and after them the survivors of each step. -/
theorem scopes_of_walk (h : layout.walk limit path = (layouts, none)) :
    (layouts.getLastD layout).scopes = layout.scopes.filter (·.LiveThrough path) ++
      (survivors path (layout :: layouts)).flatten := by
  induction path generalizing layout layouts with
  | nil =>
    cases h
    simp [survivors, openings]
  | cons step path ih =>
    -- to the rest of the walk, what the first step opens is old
    obtain ⟨hstep, rest, hrest, rfl⟩ := walk_cons_eq_none h
    have hopens := (step_eq_ok_iff.mp hstep).2.1
    rw [List.getLastD_cons, ih hrest, survivors_cons, List.flatten_cons, ← List.append_assoc,
      ← filter_liveThrough_scopesAfter hopens]
    rfl

/-! ## Where no token ends before an earlier one -/

/-- On either side, no token of the path ends before an earlier one. -/
def Advances (path : List (Boundary × Split)) : Prop :=
  ∀ side : Side, (path.map fun step => side.stop step.1).Pairwise (· ≤ ·)

theorem Advances.stop_le {last : Boundary × Split} (h : Advances path)
    (hlast : path.getLast? = some last) (side : Side) :
    ∀ step ∈ path, side.stop step.1 ≤ side.stop last.1 := by
  obtain ⟨init, rfl⟩ := List.getLast?_eq_some_iff.mp hlast
  have hsorted := h side
  rw [List.map_append, List.pairwise_append] at hsorted
  intro step hstep
  rcases List.mem_append.mp hstep with hinit | hself
  · exact hsorted.2.2 _ (List.mem_map_of_mem hinit) _ (by simp)
  · rw [List.mem_singleton.mp hself]

/-- There, a scope is live from a boundary on to the last if it is live at the last. -/
theorem Advances.liveThrough_iff {last : Boundary × Split} (h : Advances path)
    (hlast : path.getLast? = some last) {i : Nat} (hi : i < path.length) (opened : OpenScope) :
    opened.LiveThrough (path.drop i) ↔ opened.scope.LiveAt last.1 := by
  constructor
  · intro hlive
    have hdrop : (path.drop i).getLast? = some last := by
      rw [List.getLast?_drop, if_neg (by omega), hlast]
    exact hlive last (List.mem_of_getLast? hdrop)
  · intro hlive step hstep
    have hle := h.stop_le hlast opened.scope.side step (List.mem_of_mem_drop hstep)
    exact Nat.le_trans hle hlive

theorem Advances.survivors_eq {last : Boundary × Split} (h : Advances path)
    (hlast : path.getLast? = some last) (befores : List Layout) :
    survivors path befores =
      (openings path befores).map fun opened => opened.filter (·.scope.LiveAt last.1) := by
  apply List.ext_getElem
  · simp [survivors]
  · intro i hi _
    have hlength : i < path.length := by
      simp [survivors, openings] at hi
      omega
    simp [survivors, h.liveThrough_iff hlast hlength]

end Layout

/-- After a path from the start, the scopes in force are, in the order of opening, those opened at
some step and live at every boundary from that step's on, each with the column and the indentation
of the layout before the step. The indentation is the sum of their lengths, up to the greatest
width. Where on either side no token ends before an earlier one, the scopes in force are all that
were opened and are live at the last boundary. -/
theorem scopes_in_force_were_live_ever_since {limit : Limit} {path : List (Boundary × Split)}
    {layouts : List Layout} (h : Layout.start.walk limit path = (layouts, none)) :
    (layouts.getLastD Layout.start).scopes =
      (Layout.survivors path (Layout.start :: layouts)).flatten ∧
    (layouts.getLastD Layout.start).indentation.val =
      min ((layouts.getLastD Layout.start).scopes.map (·.scope.length.val)).sum 4294967295 ∧
    (Layout.Advances path → ∀ last ∈ path.getLast?,
      (layouts.getLastD Layout.start).scopes =
        (Layout.openings path (Layout.start :: layouts)).flatten.filter
          (·.scope.LiveAt last.1)) := by
  have hscopes : (layouts.getLastD Layout.start).scopes =
      (Layout.survivors path (Layout.start :: layouts)).flatten := Layout.scopes_of_walk h
  refine ⟨hscopes, OpenScope.val_total _, ?_⟩
  intro hadvances last hlast
  rw [hscopes, hadvances.survivors_eq hlast, List.filter_flatten]

/-- A scope for the whole call, and within it one up to the parenthesis. -/
def nestedScopes : List (Boundary × Split) :=
  [(⟨⟨"", 0⟩, ⟨"f", 1⟩⟩, (Split.nothing 0).withScope ⟨2, .right, 9⟩),
    (⟨⟨"f", 1⟩, ⟨"(", 2⟩⟩, (Split.newline 1).withScope ⟨4, .left, 2⟩),
    (⟨⟨"(", 2⟩, ⟨"x", 3⟩⟩, .newline 1), (⟨⟨"x", 3⟩, ⟨")", 4⟩⟩, .newline 1)]

/-- The inner scope is live at the third boundary and over at the fourth. -/
theorem the_outer_scope_outlives_the_inner_one :
    ∃ layouts, Layout.start.walk ⟨40, 50, by decide⟩ nestedScopes = (layouts, none) ∧
      Layout.Advances nestedScopes ∧
      (layouts.getLastD Layout.start).scopes =
        (Layout.openings nestedScopes (Layout.start :: layouts)).flatten.filter
          (·.scope.LiveAt ⟨⟨"x", 3⟩, ⟨")", 4⟩⟩) ∧
      (layouts.getLastD Layout.start).indentation.val = 2 := by
  have hadvances : Layout.Advances nestedScopes := by
    intro side
    cases side with
    | left => decide
    | right => decide
  obtain ⟨_, hindentation, hscopes⟩ := scopes_in_force_were_live_ever_since
    (show Layout.start.walk ⟨40, 50, by decide⟩ nestedScopes = (_, none) from rfl)
  exact ⟨_, rfl, hadvances, hscopes hadvances _ rfl, hindentation.trans rfl⟩

/-- Where the second right token ends late, the scope is over for good, though it would be live at
the third boundary. -/
example : ((Layout.start.walk ⟨40, 50, by decide⟩
    [(⟨⟨"", 0⟩, ⟨"f", 1⟩⟩, (Split.nothing 0).withScope ⟨2, .right, 6⟩),
      (⟨⟨"f", 1⟩, ⟨"(", 9⟩⟩, .newline 1),
      (⟨⟨"(", 2⟩, ⟨"x", 5⟩⟩, .newline 1)]).1.getLastD Layout.start).scopes = [] := by
  decide

end LineBreak
