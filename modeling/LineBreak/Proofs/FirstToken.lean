-- The first left token is written before anything is laid out, yet a layout
-- starts at column zero, so nobody pays for the room the token takes. Putting
-- an empty token before it makes it a right token like any other: the text
-- stays as it is, and the cost tells what the first line should have cost.
import LineBreak.Proofs.Gaps
import LineBreak.Proofs.Penalty
import LineBreak.Proofs.Pricing
import Mathlib

namespace LineBreak

namespace Capped

variable {ceiling : Nat}

@[simp]
theorem add_zero (a : Capped ceiling) : a + 0 = a := by
  simp [Capped.ext_iff, a.val_le]

@[simp]
theorem zero_add (a : Capped ceiling) : 0 + a = a := by
  simp [Capped.ext_iff, a.val_le]

end Capped

/-! ## What the lines of a path cost -/

theorem forall₂_mapIdx_iff {α β : Type} {R : α → β → Prop} {f : Nat → α → β} {items : List α} :
    List.Forall₂ R items (items.mapIdx f) ↔ ∀ i item, items[i]? = some item → R item (f i item) := by
  simp only [List.forall₂_iff_get, List.length_mapIdx, List.get_eq_getElem, List.getElem_mapIdx,
    true_and, List.getElem?_eq_some_iff]
  grind

namespace Limit

variable {reach further : Nat}

/-- What lines that end at the columns cost on top of their splits. -/
def surcharges (limit : Limit) (columns : List Width) : Nat :=
  (columns.map (limit.surcharge ·.val)).sum

theorem surcharge_le (limit : Limit) (h : reach ≤ further) :
    limit.surcharge reach ≤ limit.surcharge further := by
  unfold surcharge
  split <;> split <;> omega

/-- A longer line costs more, unless it still stays within the width. -/
theorem surcharge_eq_iff (limit : Limit) (h : reach ≤ further) :
    limit.surcharge further = limit.surcharge reach ↔
      further = reach ∨ further < limit.width.val := by
  have hpos := limit.width_pos
  unfold surcharge
  split <;> split <;> omega

theorem surcharges_eq_iff (limit : Limit) {columns others : List Width}
    (h : List.Forall₂ (· ≤ ·) columns others) :
    limit.surcharges columns ≤ limit.surcharges others ∧
      (limit.surcharges others = limit.surcharges columns ↔
        List.Forall₂ (fun column other => other = column ∨ other < limit.width) columns others) := by
  induction h with
  | nil => simp [surcharges]
  | @cons column other columns others hle _ ih =>
    obtain ⟨hrest, hiff⟩ := ih
    have hfirst := limit.surcharge_le hle
    have hsame := limit.surcharge_eq_iff hle
    rw [← Capped.ext_iff] at hsame
    simp only [surcharges, List.map_cons, List.sum_cons, List.forall₂_cons] at hrest hiff ⊢
    rw [← hiff, Capped.lt_iff, ← hsame]
    omega

/-- Lines that all end further right cost no less. They cost the same just if none of them costs
more. -/
theorem surcharges_mapIdx_eq_iff (limit : Limit) (columns : List Width) (shift : Nat → Width) :
    limit.surcharges columns ≤ limit.surcharges (columns.mapIdx fun i column => column + shift i) ∧
      (limit.surcharges (columns.mapIdx fun i column => column + shift i) =
          limit.surcharges columns ↔
        ∀ i column, columns[i]? = some column →
          column + shift i = column ∨ column + shift i < limit.width) := by
  rw [← forall₂_mapIdx_iff (R := fun column other => other = column ∨ other < limit.width)]
  apply limit.surcharges_eq_iff
  exact forall₂_mapIdx_iff.mpr fun i column _ => column.le_add_right (shift i)

end Limit

namespace Layout

variable {limit : Limit} {layout here there : Layout} {path : List (Boundary × Split)}
  {layouts : List Layout} {boundary : Boundary} {split : Split} {shift : Width}

/-- A walk costs what its splits cost, and what its lines cost on top. -/
theorem val_cost_of_walk (h : layout.walk limit path = (layouts, none)) :
    (layouts.getLastD layout).cost.val =
      min (layout.cost.val + (path.map (·.2.cost.val)).sum +
        limit.surcharges (layout.lineEnds limit path)) 18446744073709551615 := by
  induction path generalizing layout layouts with
  | nil =>
    cases h
    have hcost := layout.cost.val_le
    simp [Limit.surcharges, lineEnds, hcost]
  | cons step path ih =>
    obtain ⟨_, rest, hrest, rfl⟩ := walk_cons_eq_none h
    have hstep : (layout.extend limit step.2 step.1).cost.val =
        min (layout.cost.val + min (step.2.cost.val +
          limit.surcharge (layout.lineEnd step.2 step.1).val) 18446744073709551615)
            18446744073709551615 := by
      rw [← Limit.val_penalize]
      rfl
    rw [List.getLastD_cons, ih hrest, hstep]
    simp only [Limit.surcharges, lineEnds, List.map_cons, List.sum_cons]
    omega

/-! ## One layout beside another -/

/-- Nothing up to the right token of step `i` starts a new line. -/
def OnFirstLine (path : List (Boundary × Split)) (i : Nat) : Prop :=
  (∀ step ∈ path.take (i + 1), step.2.isNewline = false) ∧
    ∀ step ∈ path.take i, step.1.right.extent.isMultiline = false

instance (path : List (Boundary × Split)) (i : Nat) : Decidable (OnFirstLine path i) :=
  inferInstanceAs (Decidable (_ ∧ _))

@[simp]
theorem onFirstLine_cons_zero (step : Boundary × Split) (path : List (Boundary × Split)) :
    OnFirstLine (step :: path) 0 ↔ step.2.isNewline = false := by
  simp [OnFirstLine]

@[simp]
theorem onFirstLine_cons_succ (step : Boundary × Split) (path : List (Boundary × Split)) (i : Nat) :
    OnFirstLine (step :: path) (i + 1) ↔
      (step.2.isNewline = false ∧ step.1.right.extent.isMultiline = false) ∧
        OnFirstLine path i := by
  simp only [OnFirstLine, List.take_succ_cons, List.forall_mem_cons]
  tauto

/-- The same scopes are in force, and the second layout stands further right by `shift`. -/
structure Aside (shift : Width) (here there : Layout) : Prop where
  scopes : here.scopes.map (·.scope) = there.scopes.map (·.scope)
  column : there.column = here.column + shift

namespace Aside

theorem map_scopesAfter (h : Aside shift here there) (split : Split) (boundary : Boundary) :
    (here.scopesAfter split boundary).map (·.scope) =
      (there.scopesAfter split boundary).map (·.scope) := by
  rw [map_scope_scopesAfter, map_scope_scopesAfter]
  exact congrArg (·.filter (·.LiveAt boundary) ++ split.scopes) h.scopes

/-- After a line break both are at the indentation. -/
theorem lineEnd_eq (h : Aside shift here there) (split : Split) (boundary : Boundary) :
    there.lineEnd split boundary =
      here.lineEnd split boundary + if split.isNewline then 0 else shift := by
  unfold lineEnd
  cases hline : split.isNewline with
  | false =>
    rw [lineStart_of_isNewline_eq_false hline, lineStart_of_isNewline_eq_false hline, h.column]
    simp only [Bool.false_eq_true, if_false, Capped.ext_iff, Capped.val_add]
    omega
  | true =>
    obtain ⟨blankLine, noIndent, hfilling⟩ := Filling.exists_of_isNewline hline
    rw [lineStart_of_newline hfilling, lineStart_of_newline hfilling,
      OpenScope.total_congr (h.map_scopesAfter split boundary)]
    simp

/-- They stay aside until a line ends, in the gap or in the right token. -/
theorem extend (h : Aside shift here there) (limit : Limit) (split : Split) (boundary : Boundary) :
    Aside (if split.isNewline = false ∧ boundary.right.extent.isMultiline = false then shift else 0)
      (here.extend limit split boundary) (there.extend limit split boundary) := by
  refine ⟨h.map_scopesAfter split boundary, ?_⟩
  show there.columnAfter split boundary = here.columnAfter split boundary + _
  unfold columnAfter
  cases hmultiline : boundary.right.extent.isMultiline with
  | false =>
    rw [h.lineEnd_eq split boundary]
    cases split.isNewline <;> simp
  | true => simp

/-- Only the lines that end on the first line of the path end at different columns. -/
theorem lineEnds_eq (h : Aside shift here there) (limit : Limit) (path : List (Boundary × Split)) :
    there.lineEnds limit path = (here.lineEnds limit path).mapIdx fun i column =>
      column + if OnFirstLine path i then shift else 0 := by
  induction path generalizing here there shift with
  | nil => rfl
  | cons step path ih =>
    rw [lineEnds, lineEnds, List.mapIdx_cons, h.lineEnd_eq, ih (h.extend limit step.2 step.1)]
    congr 1
    · cases hline : step.2.isNewline <;> simp [hline]
    · simp only [onFirstLine_cons_succ, ite_and]
      grind

/-- They write the same. -/
theorem writeAll_eq (h : Aside shift here there) (limit : Limit) (text : String)
    (path : List (Boundary × Split)) :
    there.writeAll limit text path = here.writeAll limit text path := by
  induction path generalizing here there shift text with
  | nil => rfl
  | cons step path ih =>
    have hindentation : (there.extend limit step.2 step.1).indentation =
        (here.extend limit step.2 step.1).indentation :=
      OpenScope.total_congr (h.map_scopesAfter step.2 step.1).symm
    have hwrite : there.write limit text step.2 step.1 = here.write limit text step.2 step.1 := by
      unfold write Rendering.gapText
      rw [hindentation]
    rw [writeAll, writeAll, ih (h.extend limit step.2 step.1), hwrite]

end Aside

/-! ## An empty token before the first -/

variable {token : Token}

theorem lineEnd_opening (h : '\n' ∉ token.text.toList) :
    start.lineEnd (.nothing 0) ⟨Token.start, token⟩ = textWidth token.text := by
  show (0 + 0 : Width) + Capped.ofNat _ (firstLine token.text.toList).length = _
  rw [firstLine_eq_self h, String.length_toList, Capped.zero_add, Capped.zero_add]
  rfl

/-- Filling the boundary before the token takes a layout behind it. -/
theorem aside_opening (h : '\n' ∉ token.text.toList) (limit : Limit) :
    Aside (textWidth token.text) start
      (start.extend limit (.nothing 0) ⟨Token.start, token⟩) := by
  have hline : token.extent.isMultiline = false := by
    rw [Bool.eq_false_iff]
    exact mt (Extent.isMultiline_iff (.inl h)).mp h
  refine ⟨rfl, ?_⟩
  show start.columnAfter _ _ = _
  unfold columnAfter
  rw [hline, lineEnd_opening h]
  exact (Capped.zero_add _).symm

end Layout

namespace Rendering

variable {boundaries : List Boundary} {splits : List Split} {limit : Limit} {token : Token}
  {rendering counted : Rendering}

theorem not_malformed (h : ofPath boundaries splits limit = .ok rendering) (i : Nat) :
    ¬ Malformed boundaries splits i := by
  intro hmalformed
  obtain ⟨hlength, _⟩ := exists_walk_of_ofPath h
  obtain ⟨k, boundary, hleast, hboundary⟩ :=
    exists_malformed_iff_exists_isLeast.mp ⟨i, hmalformed⟩
  have hfault : ofPath boundaries splits limit = .error (boundary.fault k) :=
    (ofPath_eq_error_iff_isLeast hlength).mpr ⟨k, boundary, hleast, hboundary, rfl⟩
  rw [h] at hfault
  cases hfault

/-- The boundary before the first token can always be filled with nothing. -/
theorem exists_opening (h : ofPath boundaries splits limit = .ok rendering) (token : Token) :
    ∃ counted, ofPath (⟨Token.start, token⟩ :: boundaries) (.nothing 0 :: splits) limit =
      .ok counted := by
  obtain ⟨hlength, _⟩ := exists_walk_of_ofPath h
  apply exists_of_not_malformed (by simp [hlength])
  intro i hmalformed
  cases i with
  | zero =>
    refine absurd (malformed_cons_zero.mp hmalformed) (Split.not_malformedAt_iff.mpr ⟨?_, ?_⟩)
    · exact Nat.zero_le token.stop
    · exact fun _ hscope => nomatch hscope
  | succ i => exact not_malformed h i (malformed_cons_succ.mp hmalformed)

/-- The token is written either way, before the first gap or behind an empty one. -/
theorem text_opening {first : Boundary} (hfirst : boundaries.head? = some first)
    (hline : '\n' ∉ first.left.text.toList)
    (h : ofPath boundaries splits limit = .ok rendering)
    (hcounted : ofPath (⟨Token.start, first.left⟩ :: boundaries) (.nothing 0 :: splits) limit =
      .ok counted) :
    counted.text (⟨Token.start, first.left⟩ :: boundaries) = rendering.text boundaries := by
  have hwrite : Layout.start.write limit "" (.nothing 0) ⟨Token.start, first.left⟩ =
      first.left.text := by
    show "" ++ "" ++ first.left.text = first.left.text
    simp
  rw [text_eq hcounted, text_eq h, hfirst]
  show Layout.writeAll limit _ (Layout.start.write limit "" _ _) _ = _
  rw [hwrite, (Layout.aside_opening hline limit).writeAll_eq]
  rfl

theorem val_cost (h : ofPath boundaries splits limit = .ok rendering) :
    rendering.cost.val = min (((boundaries.zip splits).map (·.2.cost.val)).sum +
      limit.surcharges (Layout.start.lineEnds limit (boundaries.zip splits)))
        18446744073709551615 := by
  obtain ⟨_, layouts, hwalk, _, hcost⟩ := exists_walk_of_ofPath h
  rw [hcost, Layout.val_cost_of_walk hwalk, show Layout.start.cost.val = 0 from rfl, Nat.zero_add]

/-- The step over the token costs nothing by itself, but the lines that end on the first line now
end further right. -/
theorem val_cost_opening (hline : '\n' ∉ token.text.toList)
    (hwidth : token.text.length < limit.width.val)
    (hcounted : ofPath (⟨Token.start, token⟩ :: boundaries) (.nothing 0 :: splits) limit =
      .ok counted) :
    counted.cost.val = min (((boundaries.zip splits).map (·.2.cost.val)).sum +
      limit.surcharges ((Layout.start.lineEnds limit (boundaries.zip splits)).mapIdx fun i column =>
        column + if Layout.OnFirstLine (boundaries.zip splits) i then textWidth token.text else 0))
      18446744073709551615 := by
  have hfree : limit.surcharge (textWidth token.text).val = 0 := by
    apply if_neg
    rw [textWidth, Capped.val_ofNat]
    omega
  rw [val_cost hcounted, ← (Layout.aside_opening hline limit).lineEnds_eq, List.zip_cons_cons,
    Layout.lineEnds, Layout.lineEnd_opening hline]
  simp [Limit.surcharges, hfree, Split.nothing]

end Rendering

/-- The first left token is written, but no line pays for it. Take a replay that succeeds and whose
first left token is a single line shorter than the width. With the boundary from the empty token to
that token put before the others, and nothing in it, the replay succeeds again and the text is the
same. The cost is never less. It is the same just if it was the greatest cost before, or each line
end on the first line either stays where it is when the token is counted too, as for an empty one,
or comes to lie before the width. -/
theorem first_token_is_written_but_not_charged {boundaries : List Boundary} {splits : List Split}
    {limit : Limit} {first : Boundary} {rendering : Rendering}
    (hfirst : boundaries.head? = some first) (hline : '\n' ∉ first.left.text.toList)
    (hwidth : first.left.text.length < limit.width.val)
    (h : Rendering.ofPath boundaries splits limit = .ok rendering) :
    ∃ counted, Rendering.ofPath (⟨Token.start, first.left⟩ :: boundaries)
        (.nothing 0 :: splits) limit = .ok counted ∧
      counted.text (⟨Token.start, first.left⟩ :: boundaries) = rendering.text boundaries ∧
      rendering.cost ≤ counted.cost ∧
      (counted.cost = rendering.cost ↔ rendering.cost.val = 18446744073709551615 ∨
        ∀ (i : Nat) column, Layout.OnFirstLine (boundaries.zip splits) i →
          (Layout.start.lineEnds limit (boundaries.zip splits))[i]? = some column →
          column + textWidth first.left.text = column ∨
            column + textWidth first.left.text < limit.width) := by
  obtain ⟨counted, hcounted⟩ := Rendering.exists_opening h first.left
  have hcost := Rendering.val_cost h
  have hcosts := Rendering.val_cost_opening hline hwidth hcounted
  obtain ⟨hle, hiff⟩ := limit.surcharges_mapIdx_eq_iff
    (Layout.start.lineEnds limit (boundaries.zip splits)) fun i =>
      if Layout.OnFirstLine (boundaries.zip splits) i then textWidth first.left.text else 0
  refine ⟨counted, hcounted, Rendering.text_opening hfirst hline h hcounted, ?_, ?_⟩
  · rw [Capped.le_iff]
    omega
  · have hcap : counted.cost = rendering.cost ↔ rendering.cost.val = 18446744073709551615 ∨
        limit.surcharges ((Layout.start.lineEnds limit (boundaries.zip splits)).mapIdx
            fun i column => column + if Layout.OnFirstLine (boundaries.zip splits) i then
              textWidth first.left.text else 0) =
          limit.surcharges (Layout.start.lineEnds limit (boundaries.zip splits)) := by
      rw [Capped.ext_iff]
      omega
    rw [hcap, hiff]
    apply or_congr_right
    -- off the first line no line end moves
    constructor
    · intro hall i column hon hcolumn
      simpa [hon] using hall i column hcolumn
    · intro hall i column hcolumn
      by_cases hon : Layout.OnFirstLine (boundaries.zip splits) i
      · simpa [hon] using hall i column hon hcolumn
      · left
        simp [hon]

/-- A bracket that was not laid out, and a name behind it. -/
def bracketFirst : List Boundary := [⟨⟨"(", 1⟩, ⟨"abcd", 5⟩⟩]

/-- The line is as long as it may not be, and it costs nothing. -/
theorem the_bracket_is_not_charged :
    '\n' ∉ "(".toList ∧ "(".length < 6 ∧
    (Rendering.ofPath bracketFirst [.space 0] ⟨6, 10000, by decide⟩).toOption.map
      (fun rendering => (rendering.text bracketFirst, rendering.cost)) = some ("( abcd", 0) ∧
    (Rendering.ofPath (⟨Token.start, ⟨"(", 1⟩⟩ :: bracketFirst) [.nothing 0, .space 0]
      ⟨6, 10000, by decide⟩).toOption.map (fun counted =>
        (counted.text (⟨Token.start, ⟨"(", 1⟩⟩ :: bracketFirst), counted.cost)) =
      some ("( abcd", 10006) := by
  decide

/-- The bracket, the name, and one more name that is too long for a line. -/
def bracketAndNames : List Boundary := bracketFirst ++ [⟨⟨"abcd", 5⟩, ⟨"efghij", 11⟩⟩]

/-- Behind a line break the bracket takes no room: the long line costs what it does when the
bracket is counted. -/
theorem the_bracket_takes_no_room_behind_a_line_break :
    ∃ rendering counted,
      Rendering.ofPath bracketAndNames [.nothing 0, .newline 1] ⟨6, 10000, by decide⟩ =
        .ok rendering ∧
      Rendering.ofPath (⟨Token.start, ⟨"(", 1⟩⟩ :: bracketAndNames)
        [.nothing 0, .nothing 0, .newline 1] ⟨6, 10000, by decide⟩ = .ok counted ∧
      counted.cost = rendering.cost ∧ rendering.cost = 10007 := by
  have h : Rendering.ofPath bracketAndNames [.nothing 0, .newline 1] ⟨6, 10000, by decide⟩ =
      .ok _ := rfl
  obtain ⟨counted, hcounted, _, _, hcost⟩ := first_token_is_written_but_not_charged
    (show bracketAndNames.head? = some _ from rfl) (by decide) (by decide) h
  refine ⟨_, counted, rfl, hcounted, hcost.mpr (.inr ?_), rfl⟩
  intro i column hon hcolumn
  match i with
  | 0 =>
    cases hcolumn
    decide
  | 1 => exact absurd hon (by decide)
  | i + 2 => cases hcolumn

end LineBreak
