-- A replay fails at its first malformed step. Whether a step is malformed shows
-- in its boundary and in the scopes that its split opens, so the limit, the
-- costs, the constraints and what is in force from before have no say in it.
import LineBreak.Proofs.Streaming
import Mathlib.Data.List.Forall2
import Mathlib.Data.Nat.Find
import Mathlib.Order.Bounds.Basic

namespace LineBreak

/-! ## One step -/

/-- The split cannot be taken at the boundary: the tokens are out of order, or the split opens a
scope that is over. -/
def Split.MalformedAt (split : Split) (boundary : Boundary) : Prop :=
  ¬ boundary.Ordered ∨ ∃ scope ∈ split.scopes, ¬ scope.LiveAt boundary

instance (split : Split) (boundary : Boundary) : Decidable (split.MalformedAt boundary) :=
  inferInstanceAs (Decidable (_ ∨ _))

theorem Split.not_malformedAt_iff {split : Split} {boundary : Boundary} :
    ¬ split.MalformedAt boundary ↔ boundary.Ordered ∧ split.OpensAt boundary := by
  simp [MalformedAt, OpensAt]

/-- What a malformed step is told for. Tokens out of order are seen first. -/
def Boundary.fault (boundary : Boundary) (index : Nat) : Fault :=
  if boundary.Ordered then .expiredScope index else .tokenOrder index

namespace Layout

variable {layout : Layout} {split : Split} {boundary : Boundary}

theorem step_of_malformedAt (h : split.MalformedAt boundary) (limit : Limit) :
    layout.step limit split boundary = .error (boundary.fault layout.depth) := by
  unfold step Boundary.fault
  by_cases hordered : boundary.Ordered
  · have hopens : ¬ split.OpensAt boundary := fun hopens =>
      Split.not_malformedAt_iff.mpr ⟨hordered, hopens⟩ h
    simp [hordered, hopens]
  · simp [hordered]

theorem step_of_not_malformedAt (h : ¬ split.MalformedAt boundary) (limit : Limit) :
    layout.step limit split boundary = .ok (layout.extend limit split boundary) := by
  obtain ⟨hordered, hopens⟩ := Split.not_malformedAt_iff.mp h
  exact step_eq_ok_iff.mpr ⟨hordered, hopens, rfl⟩

/-! ## Two walks that are at fault alike -/

/-- Both steps are at fault, and told alike, or neither is. -/
def AlikeAtFault (step other : Boundary × Split) : Prop :=
  (step.1.Ordered ↔ other.1.Ordered) ∧ (step.2.MalformedAt step.1 ↔ other.2.MalformedAt other.1)

theorem AlikeAtFault.refl (step : Boundary × Split) : AlikeAtFault step step := ⟨.rfl, .rfl⟩

/-- Two walks over paths that `T` relates step by step, from layouts that `R` relates, end with the
same fault, or both without one, if such layouts are equally deep, such steps are at fault alike,
and each step takes the layouts to some that `S` relates, and so `R` does. -/
theorem walk_alike {R S : Layout → Layout → Prop}
    {T : Boundary × Split → Boundary × Split → Prop} {limit limit' : Limit}
    (hdepth : ∀ {here there}, R here there → here.depth = there.depth)
    (halike : ∀ {step other}, T step other → AlikeAtFault step other)
    (hnext : ∀ {here there step other}, R here there → T step other →
      S (here.extend limit step.2 step.1) (there.extend limit' other.2 other.1))
    (hagain : ∀ {here there}, S here there → R here there) {layout other : Layout}
    (h : R layout other) {path path' : List (Boundary × Split)}
    (hpath : List.Forall₂ T path path') :
    (layout.walk limit path).2 = (other.walk limit' path').2 ∧
      List.Forall₂ S (layout.walk limit path).1 (other.walk limit' path').1 := by
  induction hpath generalizing layout other with
  | nil => exact ⟨rfl, List.Forall₂.nil⟩
  | @cons step step' _ _ hstep _ ih =>
    obtain ⟨hordered, hmalformed⟩ := halike hstep
    unfold walk
    by_cases hfault : step.2.MalformedAt step.1
    · have htold : step.1.fault layout.depth = step'.1.fault other.depth := by
        simp [Boundary.fault, hordered, hdepth h]
      rw [step_of_malformedAt hfault, step_of_malformedAt (hmalformed.mp hfault), htold]
      exact ⟨rfl, List.Forall₂.nil⟩
    · have hafter := hnext h hstep
      obtain ⟨hsame, hrest⟩ := ih (hagain hafter)
      rw [step_of_not_malformedAt hfault, step_of_not_malformedAt (mt hmalformed.mpr hfault)]
      exact ⟨hsame, List.Forall₂.cons hafter hrest⟩

/-- Two walks over one path, from layouts that `R` relates, end with the same fault, or both without
one, if such layouts are equally deep and each step takes them to layouts that `S` relates, and so
`R` does. -/
theorem walk_related {R S : Layout → Layout → Prop} {limit limit' : Limit}
    (hdepth : ∀ {here there}, R here there → here.depth = there.depth)
    (hnext : ∀ {here there} (split : Split) (boundary : Boundary), R here there →
      S (here.extend limit split boundary) (there.extend limit' split boundary))
    (hagain : ∀ {here there}, S here there → R here there) {layout other : Layout}
    (h : R layout other) (path : List (Boundary × Split)) :
    (layout.walk limit path).2 = (other.walk limit' path).2 ∧
      List.Forall₂ S (layout.walk limit path).1 (other.walk limit' path).1 := by
  have hsame : List.Forall₂ Eq path path := List.forall₂_same.mpr fun _ _ => rfl
  apply walk_alike hdepth ?_ ?_ hagain h hsame
  · rintro step _ rfl
    exact AlikeAtFault.refl step
  · rintro here there step _ hrelated rfl
    exact hnext step.2 step.1 hrelated

/-- What is in force in a layout, where it stands and what it cost are nothing to the faults ahead
of it, nor is the limit. -/
theorem walk_fault_congr {other : Layout} (h : layout.depth = other.depth) (limit limit' : Limit)
    (path : List (Boundary × Split)) :
    (layout.walk limit path).2 = (other.walk limit' path).2 := by
  refine (walk_related (R := fun here there => here.depth = there.depth) id ?_ id h path).1
  intro here there split boundary hdepth
  simp [extend, hdepth]

end Layout

/-! ## The first malformed step -/

/-- There is a boundary with the number `i`, and the split for it cannot be taken there. -/
def Malformed (boundaries : List Boundary) (splits : List Split) (i : Nat) : Prop :=
  ∃ boundary split, boundaries[i]? = some boundary ∧ splits[i]? = some split ∧
    split.MalformedAt boundary

section

variable {boundary : Boundary} {boundaries : List Boundary} {split : Split}
  {splits splits' : List Split} {i : Nat}

@[simp]
theorem malformed_cons_zero :
    Malformed (boundary :: boundaries) (split :: splits) 0 ↔ split.MalformedAt boundary := by
  simp [Malformed]

@[simp]
theorem malformed_cons_succ :
    Malformed (boundary :: boundaries) (split :: splits) (i + 1) ↔ Malformed boundaries splits i :=
  Iff.rfl

/-- Of the splits only the scopes count. -/
theorem malformed_congr (h : splits.map (·.scopes) = splits'.map (·.scopes)) :
    Malformed boundaries splits i ↔ Malformed boundaries splits' i := by
  have hscopes (taken : List Split) : Malformed boundaries taken i ↔
      ∃ boundary scopes, boundaries[i]? = some boundary ∧
        (taken.map (·.scopes))[i]? = some scopes ∧
        (¬ boundary.Ordered ∨ ∃ scope ∈ scopes, ¬ scope.LiveAt boundary) := by
    simp only [Malformed, Split.MalformedAt, List.getElem?_map, Option.map_eq_some_iff]
    grind
  rw [hscopes, hscopes, h]

theorem isLeast_malformed_of_malformedAt (h : split.MalformedAt boundary) :
    IsLeast {i | Malformed (boundary :: boundaries) (split :: splits) i} i ↔ i = 0 := by
  have hzero : IsLeast {i | Malformed (boundary :: boundaries) (split :: splits) i} 0 :=
    ⟨malformed_cons_zero.mpr h, fun _ _ => Nat.zero_le _⟩
  constructor
  · intro hleast
    exact hleast.unique hzero
  · rintro rfl
    exact hzero

theorem isLeast_malformed_of_not_malformedAt (h : ¬ split.MalformedAt boundary) :
    IsLeast {i | Malformed (boundary :: boundaries) (split :: splits) i} i ↔
      ∃ k, i = k + 1 ∧ IsLeast {i | Malformed boundaries splits i} k := by
  constructor
  · rintro ⟨hmem, hlower⟩
    cases i with
    | zero => exact absurd (malformed_cons_zero.mp hmem) h
    | succ k =>
      refine ⟨k, rfl, hmem, ?_⟩
      intro j hj
      exact Nat.le_of_succ_le_succ (hlower (malformed_cons_succ.mpr hj))
  · rintro ⟨k, rfl, hmem, hlower⟩
    refine ⟨hmem, ?_⟩
    intro j hj
    cases j with
    | zero => exact absurd (malformed_cons_zero.mp hj) h
    | succ j => exact Nat.succ_le_succ (hlower hj)

/-- A walk ends with the fault of its first malformed step, numbered on from the depth at which the
walk starts. -/
theorem Layout.walk_fault_iff (layout : Layout) (limit : Limit) (boundaries : List Boundary)
    (splits : List Split) (fault : Fault) :
    (layout.walk limit (boundaries.zip splits)).2 = some fault ↔
      ∃ i boundary, IsLeast {i | Malformed boundaries splits i} i ∧
        boundaries[i]? = some boundary ∧ fault = boundary.fault (layout.depth + i) := by
  induction boundaries generalizing layout splits with
  | nil => simp [walk, Malformed, IsLeast]
  | cons boundary boundaries ih =>
    cases splits with
    | nil => simp [walk, Malformed, IsLeast]
    | cons split splits =>
      rw [List.zip_cons_cons, walk]
      by_cases hfault : split.MalformedAt boundary
      · rw [step_of_malformedAt hfault]
        simp [isLeast_malformed_of_malformedAt hfault, eq_comm]
      · -- the walk goes on one deeper, and the steps behind the first are numbered one lower
        have hdepth (k : Nat) : layout.depth + (k + 1) =
            (layout.extend limit split boundary).depth + k := by
          simp only [extend]
          omega
        rw [step_of_not_malformedAt hfault]
        simp only [ih, isLeast_malformed_of_not_malformedAt hfault]
        constructor
        · rintro ⟨k, late, hleast, hlate, rfl⟩
          exact ⟨k + 1, late, ⟨k, rfl, hleast⟩, hlate, by rw [hdepth]⟩
        · rintro ⟨_, late, ⟨k, rfl, hleast⟩, hlate, rfl⟩
          exact ⟨k, late, hleast, hlate, by rw [hdepth]⟩

end

/-! ## Replays -/

section

variable {boundaries : List Boundary} {splits : List Split} {limit : Limit} {fault : Fault}

theorem Rendering.ofPath_eq_error_iff (h : boundaries.length = splits.length) :
    ofPath boundaries splits limit = .error fault ↔
      (Layout.start.walk limit (boundaries.zip splits)).2 = some fault := by
  unfold ofPath
  rw [if_neg (not_not_intro h)]
  split
  · rename_i hwalk
    simp [hwalk]
  · rename_i hwalk
    simp [hwalk]

theorem Emission.outcome_eq_error_iff (h : boundaries.length = splits.length) :
    (ofPath boundaries splits limit).outcome = .error fault ↔
      (Layout.start.walk limit (boundaries.zip splits)).2 = some fault := by
  rw [outcome_of_length_eq h, outcome_ofSteps]
  cases (Layout.start.walk limit (boundaries.zip splits)).2 with
  | none => simp
  | some told => simp

/-- A replay of as many splits as boundaries is told for its first malformed step. -/
theorem Rendering.ofPath_eq_error_iff_isLeast (h : boundaries.length = splits.length) :
    ofPath boundaries splits limit = .error fault ↔
      ∃ i boundary, IsLeast {i | Malformed boundaries splits i} i ∧
        boundaries[i]? = some boundary ∧ fault = boundary.fault i := by
  rw [ofPath_eq_error_iff h, Layout.walk_fault_iff]
  simp [Layout.start]

/-- With too many splits or too few, nothing else is looked at. -/
theorem Rendering.ofPath_of_length_ne (h : boundaries.length ≠ splits.length) (limit : Limit) :
    ofPath boundaries splits limit =
      .error (.lengthMismatch boundaries.length splits.length) := by
  simp [ofPath, h]

theorem Emission.outcome_of_length_ne (h : boundaries.length ≠ splits.length) (limit : Limit) :
    (ofPath boundaries splits limit).outcome =
      .error (.lengthMismatch boundaries.length splits.length) := by
  simp [ofPath, h]

theorem Rendering.ofPath_eq_lengthMismatch_iff {b s : Nat} :
    ofPath boundaries splits limit = .error (.lengthMismatch b s) ↔
      boundaries.length ≠ splits.length ∧ b = boundaries.length ∧ s = splits.length := by
  by_cases h : boundaries.length = splits.length
  · rw [ofPath_eq_error_iff_isLeast h]
    simp only [h, ne_eq, not_true_eq_false, false_and, iff_false]
    rintro ⟨i, boundary, _, _, hfault⟩
    unfold Boundary.fault at hfault
    split at hfault
    · cases hfault
    · cases hfault
  · rw [ofPath_of_length_ne h]
    simp [h, eq_comm]

/-- Some step is malformed just if one of them is the first. -/
theorem exists_malformed_iff_exists_isLeast : (∃ i, Malformed boundaries splits i) ↔
    ∃ i boundary, IsLeast {i | Malformed boundaries splits i} i ∧
      boundaries[i]? = some boundary := by
  classical
  constructor
  · intro h
    obtain ⟨boundary, _, hboundary, _⟩ := Nat.find_spec h
    exact ⟨Nat.find h, boundary, ⟨Nat.find_spec h, fun _ hj => Nat.find_min' h hj⟩, hboundary⟩
  · rintro ⟨i, _, hleast, _⟩
    exact ⟨i, hleast.1⟩

end

/-- Replays fail alike, whether they render or stream, and for just one reason. The numbers of
boundaries and of splits are told if they differ. Otherwise a replay fails just if some step is
malformed, and it tells the first such step: for its tokens if they are out of order, and for a
scope that is over if they are in order. So the limit and all of the splits but their scopes are
nothing to the outcome, nor is anything that the layout at hand has in force from before. -/
theorem a_replay_fails_at_its_first_malformed_step (boundaries : List Boundary)
    (splits : List Split) (limit : Limit) :
    (∀ fault, (Emission.ofPath boundaries splits limit).outcome = .error fault ↔
      Rendering.ofPath boundaries splits limit = .error fault) ∧
    (∀ b s, Rendering.ofPath boundaries splits limit = .error (.lengthMismatch b s) ↔
      boundaries.length ≠ splits.length ∧ b = boundaries.length ∧ s = splits.length) ∧
    (boundaries.length = splits.length →
      ((∃ fault, Rendering.ofPath boundaries splits limit = .error fault) ↔
        ∃ i, Malformed boundaries splits i) ∧
      ∀ fault, Rendering.ofPath boundaries splits limit = .error fault ↔
        ∃ i boundary, IsLeast {i | Malformed boundaries splits i} i ∧
          boundaries[i]? = some boundary ∧
          fault = if boundary.Ordered then .expiredScope i else .tokenOrder i) ∧
    (∀ limit' splits', splits.map (·.scopes) = splits'.map (·.scopes) →
      ∀ fault, Rendering.ofPath boundaries splits limit = .error fault ↔
        Rendering.ofPath boundaries splits' limit' = .error fault) ∧
    ∀ (layout other : Layout) limit', layout.depth = other.depth →
      (layout.walk limit (boundaries.zip splits)).2 =
        (other.walk limit' (boundaries.zip splits)).2 := by
  refine ⟨?_, ?_, ?_, ?_, ?_⟩
  · intro fault
    by_cases h : boundaries.length = splits.length
    · rw [Emission.outcome_eq_error_iff h, Rendering.ofPath_eq_error_iff h]
    · simp [Emission.outcome_of_length_ne h, Rendering.ofPath_of_length_ne h]
  · intro b s
    exact Rendering.ofPath_eq_lengthMismatch_iff
  · intro h
    refine ⟨?_, fun fault => Rendering.ofPath_eq_error_iff_isLeast h⟩
    simp only [Rendering.ofPath_eq_error_iff_isLeast h, exists_malformed_iff_exists_isLeast]
    constructor
    · rintro ⟨_, i, boundary, hleast, hboundary, _⟩
      exact ⟨i, boundary, hleast, hboundary⟩
    · rintro ⟨i, boundary, hleast, hboundary⟩
      exact ⟨_, i, boundary, hleast, hboundary, rfl⟩
  · intro limit' splits' hscopes fault
    have hlength : splits.length = splits'.length := by
      simpa using congrArg List.length hscopes
    by_cases h : boundaries.length = splits.length
    · rw [Rendering.ofPath_eq_error_iff_isLeast h,
        Rendering.ofPath_eq_error_iff_isLeast (h.trans hlength)]
      simp only [malformed_congr hscopes]
    · rw [Rendering.ofPath_of_length_ne h, Rendering.ofPath_of_length_ne (hlength ▸ h), hlength]
  · intro layout other limit' hdepth
    exact Layout.walk_fault_congr hdepth limit limit' _

/-- Three boundaries, the last of them with its tokens out of order. -/
def endingSwapped : List Boundary :=
  [⟨⟨"f", 1⟩, ⟨"(", 2⟩⟩, ⟨⟨"(", 2⟩, ⟨"x", 3⟩⟩, ⟨⟨"x", 3⟩, ⟨")", 1⟩⟩]

/-- A split for each of them, the second with a scope that is over there. -/
def secondOver : List Split :=
  [.space 0, (Split.newline 1).withScope ⟨2, .right, 2⟩, .nothing 0]

/-- The second step is told and the third is not. It would be told as well with other fillings,
costs, constraints and markers, under every limit. -/
theorem the_scope_is_told_before_the_tokens_behind_it :
    (Emission.ofPath endingSwapped secondOver ⟨30, 50, by decide⟩).outcome =
        .error (.expiredScope 1) ∧
      ∀ limit, Rendering.ofPath endingSwapped
        [.newline 7, (Split.literal "," 3).withScope ⟨2, .right, 2⟩,
          ((Split.nothing 9).withConstraint (.broken 5)).withMarker 4] limit =
        .error (.expiredScope 1) := by
  obtain ⟨hstreamed, _, hfirst, hanyway, _⟩ :=
    a_replay_fails_at_its_first_malformed_step endingSwapped secondOver ⟨30, 50, by decide⟩
  have hleast : IsLeast {i | Malformed endingSwapped secondOver i} 1 := by
    refine ⟨⟨_, _, rfl, rfl, by decide⟩, ?_⟩
    intro i hi
    cases i with
    | zero => exact absurd (malformed_cons_zero.mp hi) (by decide)
    | succ i => exact Nat.succ_le_succ (Nat.zero_le i)
  have htold := ((hfirst rfl).2 (.expiredScope 1)).mpr ⟨1, _, hleast, rfl, rfl⟩
  refine ⟨(hstreamed _).mpr htold, ?_⟩
  intro limit
  exact (hanyway limit _ (by decide) _).mp htold

end LineBreak
