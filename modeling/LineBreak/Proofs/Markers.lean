-- The marks of a layout record its path. A marker is there if some split on the
-- path carries it, and with it stand, in increasing order, the depths at which
-- the splits that carry it were taken. So no marked split of a search goes by
-- unnoticed.
import LineBreak.Proofs.Growth
import Mathlib.Data.List.Basic

namespace LineBreak

/-! ## Recording one depth -/

/-- A number greater than all goes to the end. -/
theorem insertIncreasing_of_forall_lt {n : Nat} {ns : List Nat} (h : ∀ m ∈ ns, m < n) :
    insertIncreasing n ns = ns ++ [n] := by
  induction ns with
  | nil => rfl
  | cons m rest ih =>
    obtain ⟨hfirst, hrest⟩ := List.forall_mem_cons.mp h
    simp [insertIncreasing, ih hrest, show ¬ n < m by omega, show n ≠ m by omega]

namespace Marks

variable {marks : Marks} {marker other : Marker} {depth : Nat}

theorem lookup_cons (entry : Marker × List Nat) (rest : Marks) (marker : Marker) :
    List.lookup marker (entry :: rest) =
      if marker = entry.1 then some entry.2 else rest.lookup marker := by
  rw [List.lookup_cons]
  by_cases h : marker = entry.1
  · simp [h]
  · simp [h, beq_eq_false_iff_ne.mpr h]

theorem depths_cons (entry : Marker × List Nat) (rest : Marks) (marker : Marker) :
    depths (entry :: rest) marker = if marker = entry.1 then entry.2 else depths rest marker := by
  unfold depths
  rw [lookup_cons]
  split
  · rfl
  · rfl

theorem mem_map_record :
    other ∈ (marks.record marker depth).map (·.1) ↔ other = marker ∨ other ∈ marks.map (·.1) := by
  induction marks with
  | nil => simp [record]
  | cons entry rest ih =>
    unfold record
    split
    · simp
    · split
      · rename_i heq
        simp [heq]
      · simp only [List.map_cons, List.mem_cons, ih]
        exact or_left_comm

/-- The markers stay in increasing order, so there is one entry for each. -/
theorem pairwise_record (h : (marks.map (·.1)).Pairwise (· < ·)) (marker : Marker) (depth : Nat) :
    ((marks.record marker depth).map (·.1)).Pairwise (· < ·) := by
  induction marks with
  | nil => simp [record]
  | cons entry rest ih =>
    obtain ⟨hfirst, hrest⟩ := List.pairwise_cons.mp h
    unfold record
    split
    · rename_i hlt
      refine List.pairwise_cons.mpr ⟨?_, h⟩
      intro later hlater
      rcases List.mem_cons.mp hlater with rfl | hlater
      · exact hlt
      · exact Nat.lt_trans hlt (hfirst later hlater)
    · rename_i hnot
      split
      · exact h
      · rename_i hne
        refine List.pairwise_cons.mpr ⟨?_, ih hrest⟩
        intro later hlater
        rcases mem_map_record.mp hlater with rfl | hlater
        · exact Nat.lt_of_le_of_ne (Nat.le_of_not_lt hnot) (Ne.symm hne)
        · exact hfirst later hlater

theorem depths_eq_nil_of_forall_lt (h : ∀ other ∈ marks.map (·.1), marker < other) :
    marks.depths marker = [] := by
  induction marks with
  | nil => rfl
  | cons entry rest ih =>
    obtain ⟨hfirst, hrest⟩ := List.forall_mem_cons.mp h
    rw [depths_cons, if_neg (Nat.ne_of_lt hfirst), ih hrest]

/-- Only the entry of the marker changes, and only by the depth. -/
theorem lookup_record (h : (marks.map (·.1)).Pairwise (· < ·)) (marker other : Marker)
    (depth : Nat) :
    (marks.record marker depth).lookup other =
      if other = marker then some (insertIncreasing depth (marks.depths marker))
      else marks.lookup other := by
  induction marks with
  | nil =>
    rw [record, lookup_cons]
    rfl
  | cons entry rest ih =>
    obtain ⟨hfirst, hrest⟩ := List.pairwise_cons.mp h
    unfold record
    split
    · rename_i hlt
      -- the marker would stand before all entries, so it has none yet
      have hnone : depths (entry :: rest) marker = [] := by
        apply depths_eq_nil_of_forall_lt
        intro later hlater
        rcases List.mem_cons.mp hlater with rfl | hlater
        · exact hlt
        · exact Nat.lt_trans hlt (hfirst later hlater)
      rw [lookup_cons, hnone]
      rfl
    · split
      · rename_i heq
        rw [lookup_cons, lookup_cons, depths_cons, if_pos heq, ← heq]
        split <;> rfl
      · rename_i hne
        rw [lookup_cons, lookup_cons, ih hrest, depths_cons, if_neg hne]
        by_cases hother : other = entry.1
        · simp [hother, Ne.symm hne]
        · simp [hother]

/-- A depth is reached once it is recorded. -/
theorem reached_record (marks : Marks) (marker : Marker) (depth : Nat) :
    (marks.record marker depth).Reached marker depth := by
  unfold Reached
  induction marks with
  | nil => simp [record, depths_cons]
  | cons entry rest ih =>
    unfold record
    split
    · simp [depths_cons]
    · split
      · rename_i heq
        simp [depths_cons, heq, mem_insertIncreasing]
      · rename_i hne
        rw [depths_cons, if_neg hne]
        exact ih

/-! ## Recording a path -/

/-- The numbers of the splits that carry the marker. -/
def places (splits : List Split) (marker : Marker) : List Nat :=
  splits.findIdxs (·.marker == some marker)

theorem mem_places {splits : List Split} {i : Nat} : i ∈ places splits marker ↔
    ∃ split, splits[i]? = some split ∧ split.marker = some marker := by
  simp [places, List.getElem?_eq_some_iff]

theorem places_ne_nil_iff {splits : List Split} :
    places splits marker ≠ [] ↔ ∃ split ∈ splits, split.marker = some marker := by
  simp [places, List.findIdxs_eq_nil_iff]

theorem places_snoc (splits : List Split) (split : Split) (marker : Marker) :
    places (splits ++ [split]) marker =
      places splits marker ++ if split.marker = some marker then [splits.length] else [] := by
  simp [places, List.findIdxs_append]

/-- The marks hold, for each marker that a split carries, the numbers of the splits that do. -/
structure Records (marks : Marks) (splits : List Split) : Prop where
  increasing : (marks.map (·.1)).Pairwise (· < ·)
  lookup_eq : ∀ marker, marks.lookup marker =
    if places splits marker = [] then none else some (places splits marker)

theorem records_nil : Records [] [] where
  increasing := List.Pairwise.nil
  lookup_eq _ := rfl

namespace Records

variable {splits : List Split} {split : Split}

theorem depths_eq (h : marks.Records splits) (marker : Marker) :
    marks.depths marker = places splits marker := by
  unfold depths
  rw [h.lookup_eq]
  split
  · rename_i hnil
    rw [hnil]
    rfl
  · rfl

theorem skip (h : marks.Records splits) (hsplit : split.marker = none) :
    marks.Records (splits ++ [split]) := by
  refine ⟨h.increasing, ?_⟩
  intro marker
  rw [h.lookup_eq, places_snoc, hsplit]
  simp

/-- All depths recorded so far are less than the number of splits taken, so the new one comes
last. -/
theorem record (h : marks.Records splits) (hsplit : split.marker = some marker) :
    (marks.record marker splits.length).Records (splits ++ [split]) := by
  have hlt : ∀ i ∈ places splits marker, i < splits.length := by
    intro i hi
    obtain ⟨_, hget, _⟩ := mem_places.mp hi
    exact (List.getElem?_eq_some_iff.mp hget).1
  refine ⟨pairwise_record h.increasing marker _, ?_⟩
  intro other
  rw [lookup_record h.increasing, places_snoc, hsplit, h.depths_eq,
    insertIncreasing_of_forall_lt hlt, h.lookup_eq]
  by_cases hother : other = marker
  · simp [hother]
  · simp [hother, Ne.symm hother]

end Records

end Marks

/-- `Taken splits layout`: the splits, taken one after the other, lead from the start to the layout,
each at some boundary and under some limit. -/
inductive Taken : List Split → Layout → Prop
  | start : Taken [] Layout.start
  | step {splits : List Split} {layout after : Layout} (taken : Taken splits layout) (limit : Limit)
      (split : Split) (boundary : Boundary)
      (step_eq : layout.step limit split boundary = .ok after) : Taken (splits ++ [split]) after

namespace Taken

variable {splits : List Split} {layout : Layout}

theorem depth_eq (h : Taken splits layout) : layout.depth = splits.length := by
  induction h with
  | start => rfl
  | step _ _ _ _ step_eq ih =>
    obtain ⟨_, _, rfl⟩ := Layout.step_eq_ok_iff.mp step_eq
    simp [Layout.extend, ih]

theorem records (h : Taken splits layout) : layout.marks.Records splits := by
  induction h with
  | start => exact Marks.records_nil
  | @step splits layout after taken limit split boundary step_eq ih =>
    obtain ⟨_, _, rfl⟩ := Layout.step_eq_ok_iff.mp step_eq
    show (layout.marksAfter split).Records _
    unfold Layout.marksAfter
    split
    · rename_i hnone
      exact ih.skip hnone
    · rename_i marker hmarker
      rw [taken.depth_eq]
      exact ih.record hmarker

end Taken

/-- A child of a node arrives at the milestone of its last split, if that carries a marker. -/
theorem Search.milestone?_of_next {node child : Node} {limit : Limit} {split : Split}
    {boundary : Boundary} (h : node.next limit split boundary = .ok child) :
    milestone? child.layout split = split.marker.map (⟨·, node.layout.depth⟩) := by
  obtain ⟨after, hstep, rfl⟩ := Node.next_eq_ok_iff.mp h
  obtain ⟨_, _, rfl⟩ := Layout.step_eq_ok_iff.mp hstep
  cases hmarker : split.marker with
  | none => simp [milestone?, hmarker]
  | some marker =>
    have hmarks : (node.layout.marksAfter split).Reached marker node.layout.depth := by
      simp only [Layout.marksAfter, hmarker]
      exact Marks.reached_record _ _ _
    simp [milestone?, hmarker, Layout.extend, hmarks]

/-- The marks of a layout record its path. However it was reached, there is one entry for each
marker that some split taken carries, and no other; it is the increasing list of the depths at which
these splits were taken. So a marker was reached at a depth just if the split taken there carries
it, and a search that takes up a child by a marked split always finds its milestone. -/
theorem marks_record_the_path :
    (∀ splits layout, Taken splits layout →
      (layout.marks.map (·.1)).Pairwise (· < ·) ∧
      (∀ marker, (∃ depths, layout.marks.lookup marker = some depths) ↔
        ∃ split ∈ splits, split.marker = some marker) ∧
      (∀ marker depths, layout.marks.lookup marker = some depths →
        depths.Pairwise (· < ·) ∧
        ∀ i, i ∈ depths ↔ ∃ split, splits[i]? = some split ∧ split.marker = some marker) ∧
      ∀ marker depth, layout.marks.Reached marker depth ↔
        ∃ split, splits[depth]? = some split ∧ split.marker = some marker) ∧
    ∀ (node child : Node) limit split boundary, node.next limit split boundary = .ok child →
      Search.milestone? child.layout split = split.marker.map (⟨·, node.layout.depth⟩) := by
  refine ⟨?_, fun _ _ _ _ _ => Search.milestone?_of_next⟩
  intro splits layout htaken
  have hrecords := htaken.records
  refine ⟨hrecords.increasing, ?_, ?_, ?_⟩
  · intro marker
    rw [hrecords.lookup_eq, ← Marks.places_ne_nil_iff]
    by_cases hnil : Marks.places splits marker = []
    · simp [hnil]
    · simp [hnil]
  · intro marker depths hlookup
    rw [hrecords.lookup_eq] at hlookup
    split at hlookup
    · cases hlookup
    · cases hlookup
      exact ⟨List.pairwise_findIdxs, fun i => Marks.mem_places⟩
  · intro marker depth
    unfold Marks.Reached
    rw [hrecords.depths_eq]
    exact Marks.mem_places

/-- Four splits, the first and the last with the same marker. -/
def metAgain : List Split :=
  [(Split.space 1).withMarker 7, .newline 0, (Split.nothing 2).withMarker 3,
    (Split.space 1).withMarker 7]

/-- The marker that is met again stands with both depths. One more split with a marker of its own
has a milestone at the depth behind them. -/
theorem a_marker_met_again_stands_with_both_depths :
    ∃ layout child, Taken metAgain layout ∧ layout.marks.lookup 7 = some [0, 3] ∧
      layout.marks.Reached 7 3 ∧ ¬ layout.marks.Reached 7 1 ∧
      Node.next ⟨none, none, layout⟩ ⟨90, 50, by decide⟩ ((Split.space 1).withMarker 5)
        ⟨⟨"f", 1⟩, ⟨"x", 2⟩⟩ = .ok child ∧
      Search.milestone? child.layout ((Split.space 1).withMarker 5) = some ⟨5, 4⟩ := by
  obtain ⟨hpaths, hchildren⟩ := marks_record_the_path
  have hstep (layout : Layout) (split : Split) (h : split.scopes = []) :
      layout.step ⟨90, 50, by decide⟩ split ⟨⟨"f", 1⟩, ⟨"x", 2⟩⟩ = .ok _ :=
    Layout.step_eq_ok_iff.mpr ⟨by decide, by simp [Split.OpensAt, h], rfl⟩
  have htaken : Taken metAgain _ :=
    .step (.step (.step (.step .start _ _ _ (hstep _ ((Split.space 1).withMarker 7) rfl))
      _ _ _ (hstep _ (.newline 0) rfl)) _ _ _ (hstep _ ((Split.nothing 2).withMarker 3) rfl))
      _ _ _ (hstep _ ((Split.space 1).withMarker 7) rfl)
  have hnext (layout : Layout) : Node.next ⟨none, none, layout⟩ ⟨90, 50, by decide⟩
      ((Split.space 1).withMarker 5) ⟨⟨"f", 1⟩, ⟨"x", 2⟩⟩ = .ok _ :=
    Node.next_eq_ok_iff.mpr ⟨_, hstep layout _ rfl, rfl⟩
  obtain ⟨_, _, _, hreached⟩ := hpaths _ _ htaken
  refine ⟨_, _, htaken, rfl, (hreached 7 3).mpr ⟨_, rfl, rfl⟩, ?_, hnext _,
    hchildren _ _ _ _ _ (hnext _)⟩
  rw [hreached]
  rintro ⟨split, hsplit, hmarker⟩
  cases hsplit
  cases hmarker

end LineBreak
