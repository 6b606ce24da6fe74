-- What a rendering costs can be read off its text: each split at its own cost,
-- and on top of that each line that reaches the width. So the columns that a
-- layout counts without seeing the text are those of the text.
import LineBreak.Proofs.Writing
import Mathlib

namespace LineBreak

/-! ## A replay up to a boundary -/

namespace Layout

variable {limit : Limit} {layout : Layout} {path : List (Boundary × Split)}
  {layouts : List Layout} {boundary : Boundary} {split : Split}

/-- A walk that comes to its end has a layout for every step: the one before it, extended. -/
theorem exists_follow_of_walk (h : layout.walk limit path = (layouts, none)) {i : Nat}
    (hstep : path[i]? = some (boundary, split)) :
    ∃ here, layout.follow limit (path.take i) = .ok here ∧
      layout.follow limit (path.take (i + 1)) = .ok (here.extend limit split boundary) ∧
      layouts[i]? = some (here.extend limit split boundary) := by
  induction path generalizing layout layouts i with
  | nil => cases hstep
  | cons first path ih =>
    obtain ⟨hfirst, rest, hrest, rfl⟩ := walk_cons_eq_none h
    cases i with
    | zero =>
      cases hstep
      refine ⟨layout, rfl, ?_, rfl⟩
      rw [List.take_succ_cons, follow_cons hfirst]
      rfl
    | succ i =>
      obtain ⟨here, hhere, hnext, hget⟩ := ih hrest hstep
      refine ⟨here, ?_, ?_, hget⟩
      · rw [List.take_succ_cons, follow_cons hfirst]
        exact hhere
      · rw [List.take_succ_cons, follow_cons hfirst]
        exact hnext

theorem follow_of_walk (h : layout.walk limit path = (layouts, none)) :
    layout.follow limit path = .ok (layouts.getLastD layout) := by
  induction path generalizing layout layouts with
  | nil =>
    cases h
    rfl
  | cons first path ih =>
    obtain ⟨hfirst, rest, hrest, rfl⟩ := walk_cons_eq_none h
    rw [follow_cons hfirst, ih hrest, List.getLastD_cons]

end Layout

namespace Rendering

variable {limit : Limit} {boundaries : List Boundary} {splits : List Split}
  {rendering : Rendering} {i : Nat}

/-- What a rendering has for each boundary: the layout that stood there, the split it took, and
the gap between the tokens. -/
theorem exists_gap (h : ofPath boundaries splits limit = .ok rendering)
    (hi : i < boundaries.length) :
    ∃ boundary split here, boundaries[i]? = some boundary ∧ splits[i]? = some split ∧
      Layout.start.follow limit ((boundaries.zip splits).take i) = .ok here ∧
      Layout.start.follow limit ((boundaries.zip splits).take (i + 1)) =
        .ok (here.extend limit split boundary) ∧
      rendering.gaps[i]? = some ⟨i, gapText split (here.extend limit split boundary)⟩ := by
  obtain ⟨hlength, layouts, hwalk, hgaps, _⟩ := exists_walk_of_ofPath h
  have hboundary : boundaries[i]? = some boundaries[i] := List.getElem?_eq_getElem hi
  have hsplit : splits[i]? = some splits[i] := List.getElem?_eq_getElem (hlength ▸ hi)
  have hstep : (boundaries.zip splits)[i]? = some (boundaries[i], splits[i]) :=
    List.getElem?_zip_eq_some.mpr ⟨hboundary, hsplit⟩
  obtain ⟨here, hhere, hnext, hget⟩ := Layout.exists_follow_of_walk hwalk hstep
  have hzip : (splits.zip layouts)[i]? =
      some (splits[i], here.extend limit splits[i] boundaries[i]) :=
    List.getElem?_zip_eq_some.mpr ⟨hsplit, hget⟩
  refine ⟨boundaries[i], splits[i], here, hboundary, hsplit, hhere, hnext, ?_⟩
  rw [hgaps, List.getElem?_mapIdx, hzip]
  rfl

/-! ## The text up to a boundary -/

/-- After an empty first token the text is made of gaps and right tokens alone. -/
theorem text_take_eq (rendering : Rendering)
    (hfirst : ∀ boundary ∈ boundaries.head?, boundary.left.text = "") (i : Nat) :
    rendering.text (boundaries.take i) = ((boundaries.zip rendering.gaps).take i).foldl
      (fun text step => text ++ step.2.text ++ step.1.right.text) "" := by
  have hzip : (boundaries.take i).zip rendering.gaps = (boundaries.zip rendering.gaps).take i := by
    apply List.ext_getElem?
    intro k
    simp only [List.getElem?_take]
    grind
  have hleft : (boundaries.take i).head?.elim "" (·.left.text) = "" := by
    rw [List.head?_take]
    split
    · rfl
    · cases hhead : boundaries.head? with
      | none => rfl
      | some boundary => exact hfirst boundary hhead
  unfold text
  rw [hzip, hleft]

theorem text_take_succ (hfirst : ∀ boundary ∈ boundaries.head?, boundary.left.text = "")
    {boundary : Boundary} {gap : Gap} (hboundary : boundaries[i]? = some boundary)
    (hgap : rendering.gaps[i]? = some gap) :
    rendering.text (boundaries.take (i + 1)) =
      rendering.text (boundaries.take i) ++ gap.text ++ boundary.right.text := by
  have hstep : (boundaries.zip rendering.gaps)[i]? = some (boundary, gap) :=
    List.getElem?_zip_eq_some.mpr ⟨hboundary, hgap⟩
  rw [text_take_eq rendering hfirst, text_take_eq rendering hfirst, List.take_add_one, hstep,
    List.foldl_append]
  rfl

theorem length_le_foldl (steps : List (Boundary × Gap)) (text : String) :
    text.length ≤
      (steps.foldl (fun text step => text ++ step.2.text ++ step.1.right.text) text).length := by
  induction steps generalizing text with
  | nil => exact Nat.le_refl _
  | cons step steps ih =>
    have hle := ih (text ++ step.2.text ++ step.1.right.text)
    rw [List.foldl_cons]
    simp only [String.length_append] at hle
    omega

theorem length_text_take_le (rendering : Rendering)
    (hfirst : ∀ boundary ∈ boundaries.head?, boundary.left.text = "") (i : Nat) :
    (rendering.text (boundaries.take i)).length ≤ (rendering.text boundaries).length := by
  have hall := text_take_eq rendering hfirst boundaries.length
  rw [List.take_length, List.take_of_length_le (by simp),
    ← List.take_append_drop i (boundaries.zip rendering.gaps), List.foldl_append,
    ← text_take_eq rendering hfirst i] at hall
  rw [hall]
  apply length_le_foldl

end Rendering

/-! ## The price of a line -/

/-- What a line that reaches so far costs on top of its split. -/
def Limit.surcharge (limit : Limit) (reach : Nat) : Nat :=
  if limit.width.val ≤ reach then limit.penalty.val + reach else 0

theorem Limit.val_penalize (limit : Limit) (cost : Cost) (column : Width) :
    (limit.penalize cost column).val =
      min (cost.val + limit.surcharge column.val) 18446744073709551615 := by
  have hcost := cost.val_le
  have hcolumn := column.val_le
  unfold penalize surcharge
  by_cases h : column < limit.width
  · rw [if_pos h, if_neg (Nat.not_le_of_lt h)]
    omega
  · rw [if_neg h, if_pos (Nat.le_of_not_lt h), Capped.val_add, Capped.val_add, Capped.val_recap]
    omega

namespace Rendering

/-- How far the line of a right token reaches: the characters after the last line feed of the
text through the gap before it and then the token itself, up to its first line feed. -/
def reach (rendering : Rendering) (boundaries : List Boundary) (i : Nat) : Nat :=
  (lastLine ((rendering.text (boundaries.take i)).toList ++
    (boundaries.zip rendering.gaps)[i]?.elim [] fun step =>
      step.2.text.toList ++ firstLine step.1.right.text.toList)).length

/-- The prices of the splits, each with what its line costs on top. -/
def prices (rendering : Rendering) (boundaries : List Boundary) (splits : List Split)
    (limit : Limit) : List Nat :=
  splits.mapIdx fun i split => split.cost.val + limit.surcharge (rendering.reach boundaries i)

variable {limit : Limit} {boundaries : List Boundary} {splits : List Split}
  {rendering : Rendering} {i : Nat} {boundary : Boundary} {split : Split} {here : Layout}

theorem reach_eq {gap : Gap} (hboundary : boundaries[i]? = some boundary)
    (hgap : rendering.gaps[i]? = some gap) :
    rendering.reach boundaries i =
      (lastLine ((rendering.text (boundaries.take i) ++ gap.text).toList ++
        firstLine boundary.right.text.toList)).length := by
  have hstep : (boundaries.zip rendering.gaps)[i]? = some (boundary, gap) :=
    List.getElem?_zip_eq_some.mpr ⟨hboundary, hgap⟩
  unfold reach
  rw [hstep, String.toList_append, List.append_assoc]
  rfl

/-- No line is longer than the text. -/
theorem reach_le (hfirst : ∀ boundary ∈ boundaries.head?, boundary.left.text = "") {gap : Gap}
    (hboundary : boundaries[i]? = some boundary) (hgap : rendering.gaps[i]? = some gap) :
    rendering.reach boundaries i ≤ (rendering.text boundaries).length := by
  rw [reach_eq hboundary hgap]
  refine Nat.le_trans (length_lastLine_le _) ?_
  refine Nat.le_trans ?_ (length_text_take_le rendering hfirst (i + 1))
  have hright := length_firstLine_le boundary.right.text.toList
  rw [text_take_succ hfirst hboundary hgap]
  simp only [List.length_append, String.length_toList, String.length_append] at hright ⊢
  omega

theorem prices_take_succ (hsplit : splits[i]? = some split) :
    ((rendering.prices boundaries splits limit).take (i + 1)).sum =
      ((rendering.prices boundaries splits limit).take i).sum +
        (split.cost.val + limit.surcharge (rendering.reach boundaries i)) := by
  have hprice : (rendering.prices boundaries splits limit)[i]? =
      some (split.cost.val + limit.surcharge (rendering.reach boundaries i)) := by
    unfold prices
    rw [List.getElem?_mapIdx, hsplit]
    rfl
  rw [List.take_add_one, hprice, List.sum_append]
  simp

/-! ## Where a replay stands -/

/-- The layout stands at the end of the text so far and has paid for its lines. -/
structure StandsAt (rendering : Rendering) (boundaries : List Boundary) (splits : List Split)
    (limit : Limit) (i : Nat) (here : Layout) : Prop where
  tracks : here.Tracks (rendering.text (boundaries.take i))
  cost : here.cost.val =
    min ((rendering.prices boundaries splits limit).take i).sum 18446744073709551615

/-- One more boundary: the right token is written behind its gap, and its line is paid for. -/
theorem StandsAt.extend (h : rendering.StandsAt boundaries splits limit i here)
    (hfirst : ∀ boundary ∈ boundaries.head?, boundary.left.text = "")
    (hlength : (rendering.text boundaries).length < 4294967295)
    (hboundary : boundaries[i]? = some boundary) (hsplit : splits[i]? = some split)
    (hgap : rendering.gaps[i]? = some ⟨i, gapText split (here.extend limit split boundary)⟩)
    (hsingle : split.filling.SingleLine) :
    rendering.StandsAt boundaries splits limit (i + 1) (here.extend limit split boundary) := by
  have htext := text_take_succ hfirst hboundary hgap
  have hreach := reach_le hfirst hboundary hgap
  constructor
  · have hright : boundary.right.text.length ≤ 4294967295 := by
      have hle := length_text_take_le rendering hfirst (i + 1)
      rw [htext] at hle
      simp only [String.length_append] at hle
      omega
    rw [htext]
    exact h.tracks.extend hsingle (.inr hright) limit
  · have hend : (here.lineEnd split boundary).val = rendering.reach boundaries i := by
      rw [h.tracks.lineEnd_eq hsingle limit, Capped.val_ofNat, ← reach_eq hboundary hgap]
      omega
    rw [prices_take_succ hsplit, ← hend]
    show (here.cost + limit.penalize split.cost (here.lineEnd split boundary)).val = _
    rw [Capped.val_add, Limit.val_penalize, h.cost]
    omega

theorem exists_standsAt (h : ofPath boundaries splits limit = .ok rendering)
    (hfirst : ∀ boundary ∈ boundaries.head?, boundary.left.text = "")
    (hsingle : ∀ split ∈ splits, split.filling.SingleLine)
    (hlength : (rendering.text boundaries).length < 4294967295) (hi : i ≤ boundaries.length) :
    ∃ here, Layout.start.follow limit ((boundaries.zip splits).take i) = .ok here ∧
      rendering.StandsAt boundaries splits limit i here := by
  induction i with
  | zero => exact ⟨Layout.start, rfl, rfl, rfl⟩
  | succ i ih =>
    obtain ⟨here, hhere, hstands⟩ := ih (Nat.le_of_succ_le hi)
    obtain ⟨boundary, split, here', hboundary, hsplit, hhere', hnext, hgap⟩ := exists_gap h hi
    obtain rfl : here = here' := Except.ok.inj (hhere.symm.trans hhere')
    exact ⟨_, hnext, hstands.extend hfirst hlength hboundary hsplit hgap
      (hsingle split (List.mem_of_getElem? hsplit))⟩

end Rendering

/-- Where the first left token is empty, no literal holds a line feed and the text is shorter than
the greatest width, a rendering costs what its splits cost and what its long lines cost on top,
up to the greatest cost. The column after each boundary is the length of the last line so far. -/
theorem a_rendering_costs_what_its_lines_cost {boundaries : List Boundary} {splits : List Split}
    {limit : Limit} {rendering : Rendering}
    (hfirst : ∀ boundary ∈ boundaries.head?, boundary.left.text = "")
    (hsingle : ∀ split ∈ splits, split.filling.SingleLine)
    (hrendering : Rendering.ofPath boundaries splits limit = .ok rendering)
    (hlength : (rendering.text boundaries).length < 4294967295) :
    rendering.cost.val = min (splits.mapIdx fun i split => split.cost.val +
      if limit.width.val ≤ rendering.reach boundaries i then
        limit.penalty.val + rendering.reach boundaries i else 0).sum 18446744073709551615 ∧
    ∀ i ≤ boundaries.length, ∃ here,
      Layout.start.follow limit ((boundaries.zip splits).take i) = .ok here ∧
      here.column.val = (lastLine (rendering.text (boundaries.take i)).toList).length := by
  constructor
  · obtain ⟨hsplits, layouts, hwalk, _, hcost⟩ := Rendering.exists_walk_of_ofPath hrendering
    obtain ⟨last, hlast, hstands⟩ := Rendering.exists_standsAt hrendering hfirst hsingle hlength
      (Nat.le_refl boundaries.length)
    rw [List.take_of_length_le (by simp), Layout.follow_of_walk hwalk] at hlast
    rw [hcost, Except.ok.inj hlast, hstands.cost, List.take_of_length_le]
    · rfl
    · unfold Rendering.prices
      rw [List.length_mapIdx, hsplits]
  · intro i hi
    obtain ⟨here, hhere, hstands⟩ :=
      Rendering.exists_standsAt hrendering hfirst hsingle hlength hi
    refine ⟨here, hhere, ?_⟩
    have hle := length_lastLine_le (rendering.text (boundaries.take i)).toList
    have hshorter := rendering.length_text_take_le hfirst i
    rw [String.length_toList] at hle
    rw [hstands.tracks, Capped.val_ofNat]
    omega

/-- A remark of two lines between two short tokens. -/
def remarked : List Boundary :=
  [⟨⟨"", 0⟩, ⟨"if", 2⟩⟩, ⟨⟨"if", 2⟩, ⟨"/*\nab*/", 9⟩⟩, ⟨⟨"/*\nab*/", 9⟩, ⟨"x", 10⟩⟩]

/-- The remark is put on a line of its own, with two columns of indentation. -/
def remarkApart : List Split :=
  [.nothing 0, (Split.newline 3).withScope ⟨2, .right, 9⟩, .space 1]

/-- With four columns, both lines of the remark are too long: the first for its indentation, the
last for what stands behind it. -/
theorem both_lines_of_a_remark_are_paid_for :
    ∃ rendering, Rendering.ofPath remarked remarkApart ⟨4, 50, by decide⟩ = .ok rendering ∧
      rendering.text remarked = "if\n  /*\nab*/ x" ∧
      rendering.cost.val = 0 + (3 + (50 + 4)) + (1 + (50 + 6)) ∧
      ∃ here, Layout.start.follow ⟨4, 50, by decide⟩ ((remarked.zip remarkApart).take 2) =
          .ok here ∧ here.column.val = "ab*/".length := by
  have hrendering : Rendering.ofPath remarked remarkApart ⟨4, 50, by decide⟩ =
      .ok ⟨[⟨0, ""⟩, ⟨1, "\n  "⟩, ⟨2, " "⟩], 114⟩ := by rfl
  obtain ⟨hcost, hcolumns⟩ :=
    a_rendering_costs_what_its_lines_cost (by decide) (by decide) hrendering (by decide)
  obtain ⟨here, hhere, hcolumn⟩ := hcolumns 2 (by decide)
  exact ⟨_, hrendering, by decide, hcost.trans (by decide), here, hhere, hcolumn.trans (by decide)⟩

end LineBreak
