-- When one layout is no worse than another: it costs no more, stands no
-- further right, is bound by the same constraints and has the same scopes
-- open, none of them longer. Whatever the other can do, the layout can do at
-- no greater cost. Layouts with one outlook are the case that a search uses.
import LineBreak.Proofs.Path

namespace LineBreak

/-! ## Milder limits -/

/-- The limit leaves no less room than the other and punishes no harder. -/
structure Limit.Milder (limit other : Limit) : Prop where
  width : other.width ≤ limit.width
  penalty : limit.penalty ≤ other.penalty

theorem Limit.Milder.refl (limit : Limit) : limit.Milder limit :=
  ⟨Nat.le_refl _, Nat.le_refl _⟩

/-- A milder limit never charges more for a line that ends no further right. -/
theorem Limit.Milder.penalize_le {limit other : Limit} (h : limit.Milder other) (cost : Cost)
    {column column' : Width} (hcolumn : column ≤ column') :
    limit.penalize cost column ≤ other.penalize cost column' := by
  have hwidth := Capped.le_iff.mp h.width
  have hcolumn' := Capped.le_iff.mp hcolumn
  unfold penalize
  by_cases hfits : column < limit.width
  · rw [if_pos hfits]
    split
    · exact Nat.le_refl _
    · exact Nat.le_trans (Capped.le_add_right _ _) (Capped.le_add_right _ _)
  · have hfits' : ¬ column' < other.width := by
      rw [Capped.lt_iff] at hfits ⊢
      omega
    rw [if_neg hfits, if_neg hfits']
    have hpenalty := Capped.add_le_add (Nat.le_refl cost.val) h.penalty
    refine Capped.add_le_add hpenalty ?_
    rw [Capped.le_iff, Capped.val_recap, Capped.val_recap]
    omega

/-! ## Scopes -/

/-- The scope ends where the other does and adds no more columns. -/
structure OpenScope.NoLonger (opened other : OpenScope) : Prop where
  side : opened.scope.side = other.scope.side
  position : opened.scope.position = other.scope.position
  length : opened.scope.length ≤ other.scope.length

namespace OpenScope

theorem NoLonger.liveAt_iff {opened other : OpenScope} (h : opened.NoLonger other)
    (boundary : Boundary) : opened.scope.LiveAt boundary ↔ other.scope.LiveAt boundary := by
  unfold Scope.LiveAt
  rw [h.side, h.position]

theorem total_le_total {scopes others : List OpenScope}
    (h : List.Forall₂ NoLonger scopes others) : total scopes ≤ total others := by
  have hlengths : List.Forall₂ (· ≤ ·) (scopes.map (·.scope.length))
      (others.map (·.scope.length)) := by
    rw [List.forall₂_map_left_iff, List.forall₂_map_right_iff]
    exact h.imp fun _ _ hle => hle.length
  exact List.rel_foldl (P := (· ≤ ·)) (R := (· ≤ ·))
    (fun _ _ ha _ _ hb => Capped.add_le_add ha hb) (Nat.le_refl _) hlengths

/-- Two lists of open scopes with the same scopes, wherever these were opened. -/
theorem forall₂_noLonger_of_map_eq {scopes others : List OpenScope}
    (h : scopes.map (·.scope) = others.map (·.scope)) : List.Forall₂ NoLonger scopes others := by
  induction scopes generalizing others with
  | nil =>
    rw [List.map_nil, eq_comm, List.map_eq_nil_iff] at h
    rw [h]
    exact List.Forall₂.nil
  | cons opened scopes ih =>
    cases others with
    | nil => cases h
    | cons other others =>
      simp only [List.map_cons, List.cons.injEq] at h
      obtain ⟨hscope, hrest⟩ := h
      refine List.Forall₂.cons ⟨?_, ?_, ?_⟩ (ih hrest)
      · rw [hscope]
      · rw [hscope]
      · rw [hscope]
        exact Nat.le_refl _

end OpenScope

/-! ## Layouts -/

namespace Layout

structure NoWorse (layout other : Layout) : Prop where
  depth : layout.depth = other.depth
  cost : layout.cost ≤ other.cost
  column : layout.column ≤ other.column
  constraints : layout.constraints = other.constraints
  scopes : List.Forall₂ OpenScope.NoLonger layout.scopes other.scopes

/-- Of two layouts with one outlook the cheaper is no worse. -/
theorem NoWorse.of_outlook {layout other : Layout} (h : layout.outlook = other.outlook)
    (hcost : layout.cost ≤ other.cost) : layout.NoWorse other := by
  simp only [outlook, Outlook.mk.injEq] at h
  obtain ⟨hdepth, hcolumn, hconstraints, hscopes⟩ := h
  refine ⟨hdepth, hcost, ?_, hconstraints, OpenScope.forall₂_noLonger_of_map_eq hscopes⟩
  rw [hcolumn]
  exact Nat.le_refl _

namespace NoWorse

variable {layout other : Layout} {limit limit' : Limit} {split : Split} {boundary : Boundary}

theorem scopesAfter (h : layout.NoWorse other) (split : Split) (boundary : Boundary) :
    List.Forall₂ OpenScope.NoLonger (layout.scopesAfter split boundary)
      (other.scopesAfter split boundary) := by
  unfold Layout.scopesAfter
  refine List.rel_append (List.rel_filter ?_ h.scopes) ?_
  · intro opened opened' hle
    simp [hle.liveAt_iff boundary]
  · rw [List.forall₂_map_left_iff, List.forall₂_map_right_iff, List.forall₂_same]
    intro scope _
    exact ⟨rfl, rfl, Nat.le_refl _⟩

theorem lineStart_le (h : layout.NoWorse other) (split : Split) (boundary : Boundary) :
    layout.lineStart split boundary ≤ other.lineStart split boundary := by
  cases hline : split.filling.isNewline with
  | false =>
    rw [lineStart_of_isNewline_eq_false hline, lineStart_of_isNewline_eq_false hline]
    exact Capped.add_le_add h.column (Nat.le_refl _)
  | true =>
    obtain ⟨blankLine, noIndent, hfilling⟩ := Filling.exists_of_isNewline hline
    rw [lineStart_of_newline hfilling, lineStart_of_newline hfilling]
    split
    · exact Nat.le_refl _
    · exact OpenScope.total_le_total (h.scopesAfter split boundary)

theorem lineEnd_le (h : layout.NoWorse other) (split : Split) (boundary : Boundary) :
    layout.lineEnd split boundary ≤ other.lineEnd split boundary :=
  Capped.add_le_add (h.lineStart_le split boundary) (Nat.le_refl _)

theorem columnAfter_le (h : layout.NoWorse other) (split : Split) (boundary : Boundary) :
    layout.columnAfter split boundary ≤ other.columnAfter split boundary := by
  unfold columnAfter
  split
  · exact Nat.le_refl _
  · exact h.lineEnd_le split boundary

/-- Filling the next boundary alike keeps a layout no worse, under a limit no harsher. -/
theorem extend (h : layout.NoWorse other) (hlimit : limit.Milder limit') (split : Split)
    (boundary : Boundary) :
    (layout.extend limit split boundary).NoWorse (other.extend limit' split boundary) where
  depth := congrArg (· + 1) h.depth
  cost := Capped.add_le_add h.cost (hlimit.penalize_le split.cost (h.lineEnd_le split boundary))
  column := h.columnAfter_le split boundary
  constraints := congrArg (·.combine split.constraint boundary.left.stop) h.constraints
  scopes := h.scopesAfter split boundary

/-- What the other layout can do, the layout can do, and it is no worse afterwards. -/
theorem path {slots : List Slot} {splits : List Split} {after : Layout} (h : layout.NoWorse other)
    (hlimit : limit.Milder limit') (hpath : Path limit' other slots splits after) :
    ∃ after', Path limit layout slots splits after' ∧ after'.NoWorse after := by
  induction hpath generalizing layout with
  | nil => exact ⟨layout, Path.nil layout, h⟩
  | cons allowed step _ ih =>
    obtain ⟨hordered, hopens, rfl⟩ := step_eq_ok_iff.mp step
    obtain ⟨after', hafter', hle⟩ := ih (h.extend hlimit _ _)
    rw [← h.constraints] at allowed
    exact ⟨after', Path.cons allowed (step_eq_ok_iff.mpr ⟨hordered, hopens, rfl⟩) hafter', hle⟩

end NoWorse

end Layout

end LineBreak
