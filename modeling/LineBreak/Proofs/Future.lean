-- Layouts with one outlook have one future. Where the scopes were opened, the
-- markers met and the cost so far are no part of an outlook, and none of them
-- shows in a later step: both layouts are filled alike, and their costs stay
-- in order.
import LineBreak.Proofs.Comparison

namespace LineBreak

/-! ## One step -/

/-- Where scopes were opened adds no columns. -/
theorem OpenScope.total_congr {scopes others : List OpenScope}
    (h : scopes.map (·.scope) = others.map (·.scope)) : total scopes = total others := by
  have hlengths (opened : List OpenScope) :
      opened.map (·.scope.length) = (opened.map (·.scope)).map (·.length) := by simp
  unfold total
  rw [hlengths scopes, hlengths others, h]

namespace Layout

variable {layout other : Layout}

/-- The scopes after a split, without where they were opened, come from the outlook and the
split. -/
theorem map_scope_scopesAfter (layout : Layout) (split : Split) (boundary : Boundary) :
    (layout.scopesAfter split boundary).map (·.scope) =
      layout.outlook.scopes.filter (·.LiveAt boundary) ++ split.scopes := by
  simp [scopesAfter, outlook, List.filter_map, Function.comp_def]

theorem map_scope_scopesAfter_congr (h : layout.outlook = other.outlook) (split : Split)
    (boundary : Boundary) :
    (layout.scopesAfter split boundary).map (·.scope) =
      (other.scopesAfter split boundary).map (·.scope) := by
  rw [map_scope_scopesAfter, map_scope_scopesAfter, h]

theorem indentation_congr (h : layout.outlook = other.outlook) :
    layout.indentation = other.indentation :=
  OpenScope.total_congr (congrArg Outlook.scopes h)

theorem admits_congr (h : layout.outlook = other.outlook) (split : Split) (boundary : Boundary) :
    layout.constraints.admits split.filling boundary =
      other.constraints.admits split.filling boundary :=
  congrArg (·.constraints.admits split.filling boundary) h

theorem lineEnd_congr (h : layout.outlook = other.outlook) (split : Split)
    (boundary : Boundary) : layout.lineEnd split boundary = other.lineEnd split boundary := by
  unfold lineEnd
  congr 1
  cases hline : split.filling.isNewline with
  | false =>
    rw [lineStart_of_isNewline_eq_false hline, lineStart_of_isNewline_eq_false hline,
      show layout.column = other.column from congrArg Outlook.column h]
  | true =>
    obtain ⟨blankLine, noIndent, hfilling⟩ := Filling.exists_of_isNewline hline
    rw [lineStart_of_newline hfilling, lineStart_of_newline hfilling,
      OpenScope.total_congr (map_scope_scopesAfter_congr h split boundary)]

theorem charge_congr (h : layout.outlook = other.outlook) (limit : Limit) (split : Split)
    (boundary : Boundary) :
    layout.charge limit split boundary = other.charge limit split boundary := by
  unfold charge
  rw [lineEnd_congr h]

/-- Filling the next boundary alike keeps the outlooks equal. -/
theorem outlook_extend_congr (h : layout.outlook = other.outlook) (limit : Limit) (split : Split)
    (boundary : Boundary) :
    (layout.extend limit split boundary).outlook =
      (other.extend limit split boundary).outlook := by
  have hcolumn : layout.columnAfter split boundary = other.columnAfter split boundary := by
    unfold columnAfter
    rw [lineEnd_congr h]
  have hscopes := map_scope_scopesAfter_congr h split boundary
  simp only [outlook, Outlook.mk.injEq] at h
  simp [outlook, extend, h, hcolumn, hscopes]

/-! ## A whole walk -/

/-- Two walks over one path end with the same fault, or both without one. The layouts that they
come to have one outlook, and the splits taken cost both the same. -/
theorem walk_congr (h : layout.outlook = other.outlook) (limit : Limit)
    (path : List (Boundary × Split)) :
    (layout.walk limit path).2 = (other.walk limit path).2 ∧
      List.Forall₂ (fun here there => here.outlook = there.outlook ∧ here.last = there.last)
        (layout.walk limit path).1 (other.walk limit path).1 := by
  apply walk_related (R := fun here there => here.outlook = there.outlook) ?_ ?_ And.left h
  · intro here there houtlook
    exact congrArg Outlook.depth houtlook
  · intro here there split boundary houtlook
    refine ⟨outlook_extend_congr houtlook limit split boundary, ?_⟩
    simp [extend, charge_congr houtlook]

/-- The cheaper of two layouts with one outlook stays the cheaper, all along. -/
theorem walk_cost_le (h : layout.outlook = other.outlook) (hcost : layout.cost ≤ other.cost)
    (limit : Limit) (path : List (Boundary × Split)) :
    List.Forall₂ (fun here there => here.cost ≤ there.cost)
      (layout.walk limit path).1 (other.walk limit path).1 := by
  have hnoWorse := (NoWorse.of_outlook h hcost).walk (Limit.Milder.refl limit) path
  apply hnoWorse.2.imp
  intro here there hle
  exact hle.cost

end Layout

/-- Two layouts with one outlook have one future, whatever they cost, wherever their scopes were
opened and whichever markers they met. On every path, under every limit, both walks come as far
and end with the same fault or without one. All along, the layouts have one outlook and one
indentation and admit the same splits everywhere; each step records the same split at the same
cost, and puts the same text before its right token. The costs stay in the order in which they
start. -/
theorem layouts_with_one_outlook_have_one_future {layout other : Layout}
    (h : layout.outlook = other.outlook) (limit : Limit) (path : List (Boundary × Split)) :
    (layout.walk limit path).2 = (other.walk limit path).2 ∧
    List.Forall₂ (fun here there => here.outlook = there.outlook ∧
        here.indentation = there.indentation ∧
        ∀ (split : Split) boundary, here.constraints.admits split.filling boundary =
          there.constraints.admits split.filling boundary)
      (layout :: (layout.walk limit path).1) (other :: (other.walk limit path).1) ∧
    List.Forall₂ (fun here there => here.last = there.last ∧
        ∀ split, Rendering.gapText split here = Rendering.gapText split there)
      (layout.walk limit path).1 (other.walk limit path).1 ∧
    (layout.cost ≤ other.cost → List.Forall₂ (fun here there => here.cost ≤ there.cost)
      (layout.walk limit path).1 (other.walk limit path).1) ∧
    (other.cost ≤ layout.cost → List.Forall₂ (fun here there => there.cost ≤ here.cost)
      (layout.walk limit path).1 (other.walk limit path).1) := by
  obtain ⟨hfault, hwalk⟩ := Layout.walk_congr h limit path
  refine ⟨hfault, List.Forall₂.cons ?_ (hwalk.imp ?_), hwalk.imp ?_, ?_, ?_⟩
  · exact ⟨h, Layout.indentation_congr h, Layout.admits_congr h⟩
  · rintro here there ⟨houtlook, _⟩
    exact ⟨houtlook, Layout.indentation_congr houtlook, Layout.admits_congr houtlook⟩
  · rintro here there ⟨houtlook, hlast⟩
    refine ⟨hlast, ?_⟩
    intro split
    unfold Rendering.gapText
    rw [Layout.indentation_congr houtlook]
  · intro hcost
    exact Layout.walk_cost_le h hcost limit path
  · intro hcost
    exact (Layout.walk_cost_le h.symm hcost limit path).flip

/-- A call with its parenthesis on a line of its own, after a first split that differs. -/
def brokenCall (first : Split) : Layout :=
  (Layout.start.extend ⟨3, 50, by decide⟩ first ⟨⟨"", 0⟩, ⟨"f", 1⟩⟩).extend ⟨3, 50, by decide⟩
    ((Split.newline 1).withScope ⟨2, .right, 9⟩) ⟨⟨"f", 1⟩, ⟨"(", 2⟩⟩

/-- An argument on the next line, and then a token that ends before it. -/
def brokenOff : List (Boundary × Split) :=
  [(⟨⟨"(", 2⟩, ⟨"x", 3⟩⟩, .newline 1), (⟨⟨"x", 3⟩, ⟨")", 2⟩⟩, .nothing 0)]

/-- The scope was opened at different columns, but both calls go on alike up to the token out of
order, and the dearer one stays so. -/
theorem two_broken_calls_go_on_alike :
    (brokenCall (.nothing 0)).outlook = (brokenCall ((Split.space 3).withMarker 7)).outlook ∧
      (brokenCall (.nothing 0)).scopes ≠ (brokenCall ((Split.space 3).withMarker 7)).scopes ∧
      ((brokenCall (.nothing 0)).walk ⟨3, 50, by decide⟩ brokenOff).2 = some (.tokenOrder 3) ∧
      ((brokenCall ((Split.space 3).withMarker 7)).walk ⟨3, 50, by decide⟩ brokenOff).2 =
        some (.tokenOrder 3) ∧
      List.Forall₂ (fun here there => here.cost ≤ there.cost)
        ((brokenCall (.nothing 0)).walk ⟨3, 50, by decide⟩ brokenOff).1
        ((brokenCall ((Split.space 3).withMarker 7)).walk ⟨3, 50, by decide⟩ brokenOff).1 := by
  have houtlook : (brokenCall (.nothing 0)).outlook =
      (brokenCall ((Split.space 3).withMarker 7)).outlook := rfl
  obtain ⟨hfault, _, _, hcosts, _⟩ :=
    layouts_with_one_outlook_have_one_future houtlook ⟨3, 50, by decide⟩ brokenOff
  exact ⟨houtlook, by decide, rfl, hfault.symm.trans rfl, hcosts (by decide)⟩

end LineBreak
