-- A replay that streams its text and one that renders it gap by gap agree:
-- they end alike and write the same text. A stream that ends with a fault has
-- written just what the steps before the faulty one write.
import LineBreak.Proofs.Writing

namespace LineBreak

/-! ## The buffer -/

/-- What is written to a buffer does not depend on what is in it. -/
theorem Buffer.contents_writeAll (buffer : Buffer) (pieces : List Piece) :
    (buffer.writeAll pieces).contents =
      buffer.contents ++ (empty.writeAll pieces).contents := by
  apply String.toList_injective
  simp [toList_writeAll, empty]

/-- Before the first step, the buffer holds the first left token. -/
theorem Buffer.writeAll_first (boundaries : List Boundary) :
    empty.writeAll (boundaries.head?.elim [] fun boundary => [Piece.text boundary.left.text]) =
      ⟨boundaries.head?.elim "" (·.left.text)⟩ := by
  cases boundaries with
  | nil => rfl
  | cons boundary boundaries => simp [writeAll, write, empty, Piece.render]

/-! ## One step -/

theorem Layout.fault_of_step {layout : Layout} {limit : Limit} {split : Split}
    {boundary : Boundary} {fault : Fault} (h : layout.step limit split boundary = .error fault) :
    fault = .tokenOrder layout.depth ∨ fault = .expiredScope layout.depth := by
  unfold step at h
  split at h
  · cases h
    exact Or.inl rfl
  · split at h
    · cases h
      exact Or.inr rfl
    · cases h

namespace Emission

variable {limit : Limit} {layout : Layout} {split : Split} {boundary : Boundary} {fault : Fault}
  {path : List (Boundary × Split)}

theorem ofSteps_of_fault (h : layout.step limit split boundary = .error fault)
    (path : List (Boundary × Split)) :
    ofSteps limit layout ((boundary, split) :: path) = ⟨[], .error fault⟩ := by
  rw [ofSteps, h]

/-- A step that is no fault writes its gap and its right token, and then the rest follows. -/
theorem ofSteps_of_step {after : Layout} (h : layout.step limit split boundary = .ok after)
    (path : List (Boundary × Split)) :
    ofSteps limit layout ((boundary, split) :: path) =
      ⟨split.filling.pieces after.indentation ++ .text boundary.right.text ::
        (ofSteps limit after path).pieces, (ofSteps limit after path).outcome⟩ := by
  rw [ofSteps, h]

/-! ## A whole path -/

/-- A stream ends as the walk over the same path does. -/
theorem outcome_ofSteps (limit : Limit) (layout : Layout) (path : List (Boundary × Split)) :
    (ofSteps limit layout path).outcome =
      (layout.walk limit path).2.elim (.ok ((layout.walk limit path).1.getLastD layout).cost)
        .error := by
  induction path generalizing layout with
  | nil => rfl
  | cons step path ih =>
    obtain ⟨boundary, split⟩ := step
    unfold Layout.walk
    cases hstep : layout.step limit split boundary with
    | error fault =>
      rw [ofSteps_of_fault hstep]
      rfl
    | ok after =>
      rw [ofSteps_of_step hstep, ih after, List.getLastD_cons]

/-- Without a fault, a stream writes the gaps and the right tokens of its path. -/
theorem contents_ofSteps {layouts : List Layout} (h : layout.walk limit path = (layouts, none))
    (buffer : Buffer) :
    (buffer.writeAll (ofSteps limit layout path).pieces).contents =
      layout.writeAll limit buffer.contents path := by
  induction path generalizing layout layouts buffer with
  | nil => rfl
  | cons step path ih =>
    obtain ⟨boundary, split⟩ := step
    obtain ⟨hstep, rest, hrest, rfl⟩ := Layout.walk_cons_eq_none h
    rw [ofSteps_of_step hstep, Buffer.writeAll_append, Buffer.writeAll_cons, ih hrest,
      Buffer.contents_write, Buffer.contents_writeAll]
    rfl

/-- A stream that ends with a fault has come to some step, whose number the fault tells, and has
written what the steps before that one write by themselves. -/
theorem exists_take_of_fault (h : (ofSteps limit layout path).outcome = .error fault) :
    ∃ k < path.length,
      (fault = .tokenOrder (layout.depth + k) ∨ fault = .expiredScope (layout.depth + k)) ∧
      ∃ cost, ofSteps limit layout (path.take k) =
        ⟨(ofSteps limit layout path).pieces, .ok cost⟩ := by
  induction path generalizing layout with
  | nil => cases h
  | cons step path ih =>
    obtain ⟨boundary, split⟩ := step
    cases hstep : layout.step limit split boundary with
    | error fault' =>
      rw [ofSteps_of_fault hstep] at h ⊢
      cases h
      exact ⟨0, Nat.succ_pos _, Layout.fault_of_step hstep, layout.cost, rfl⟩
    | ok after =>
      -- the steps that follow start one deeper, so their fault tells a number one greater
      rw [ofSteps_of_step hstep] at h ⊢
      obtain ⟨k, hk, hfault, cost, htake⟩ := ih h
      obtain ⟨_, _, rfl⟩ := Layout.step_eq_ok_iff.mp hstep
      have hdepth : layout.depth + (k + 1) = layout.depth + 1 + k := by omega
      refine ⟨k + 1, Nat.succ_lt_succ hk, ?_, cost, ?_⟩
      · rw [hdepth]
        exact hfault
      · rw [List.take_succ_cons, ofSteps_of_step hstep, htake]

/-! ## With the first left token -/

variable {boundaries : List Boundary} {splits : List Split}

theorem text_of_length_ne (h : boundaries.length ≠ splits.length) (limit : Limit) :
    (ofPath boundaries splits limit).text = boundaries.head?.elim "" (·.left.text) := by
  unfold ofPath text
  rw [if_pos h, Buffer.writeAll_first]

/-- The first left token is written, and then all that the steps write. -/
theorem text_of_length_eq (h : boundaries.length = splits.length) (limit : Limit) :
    (ofPath boundaries splits limit).text =
      ((Buffer.mk (boundaries.head?.elim "" (·.left.text))).writeAll
        (ofSteps limit Layout.start (boundaries.zip splits)).pieces).contents := by
  unfold ofPath text
  rw [if_neg (not_not_intro h), Buffer.writeAll_append, Buffer.writeAll_first]

theorem outcome_of_length_eq (h : boundaries.length = splits.length) (limit : Limit) :
    (ofPath boundaries splits limit).outcome =
      (ofSteps limit Layout.start (boundaries.zip splits)).outcome := by
  simp [ofPath, h]

/-- A fault at a boundary leaves what the boundaries before it stream by themselves. -/
theorem exists_prefix_of_fault (hlength : boundaries.length = splits.length)
    (h : (ofPath boundaries splits limit).outcome = .error fault) :
    ∃ k < boundaries.length, (fault = .tokenOrder k ∨ fault = .expiredScope k) ∧
      (∃ cost, (ofPath (boundaries.take k) (splits.take k) limit).outcome = .ok cost) ∧
      (ofPath boundaries splits limit).text =
        if k = 0 then boundaries.head?.elim "" (·.left.text)
        else (ofPath (boundaries.take k) (splits.take k) limit).text := by
  rw [outcome_of_length_eq hlength] at h
  obtain ⟨k, hk, hfault, cost, htake⟩ := exists_take_of_fault h
  have htaken : (boundaries.take k).length = (splits.take k).length := by simp [hlength]
  have hzip : (boundaries.zip splits).take k = (boundaries.take k).zip (splits.take k) :=
    List.take_zipWith
  rw [hzip] at htake
  refine ⟨k, by simpa [hlength] using hk, by simpa [Layout.start] using hfault, ⟨cost, ?_⟩, ?_⟩
  · rw [outcome_of_length_eq htaken, htake]
  · rw [text_of_length_eq hlength]
    split
    · -- no boundary at all streams nothing, not even the first left token
      rename_i hzero
      subst hzero
      rw [← congrArg pieces htake]
      rfl
    · rename_i hpos
      rw [text_of_length_eq htaken, htake, List.head?_take, if_neg hpos]

end Emission

/-! ## Gap by gap -/

theorem Layout.length_of_walk {limit : Limit} {layout : Layout} {path : List (Boundary × Split)}
    {layouts : List Layout} (h : layout.walk limit path = (layouts, none)) :
    layouts.length = path.length := by
  induction path generalizing layout layouts with
  | nil =>
    cases h
    rfl
  | cons step path ih =>
    obtain ⟨_, rest, hrest, rfl⟩ := walk_cons_eq_none h
    rw [List.length_cons, List.length_cons, ih hrest]

namespace Rendering

variable {boundaries : List Boundary} {splits : List Split} {limit : Limit} {rendering : Rendering}

/-- A rendering fails as its walk does, or else costs what the last layout does. -/
theorem map_cost_ofPath (h : boundaries.length = splits.length) (limit : Limit) :
    (ofPath boundaries splits limit).map (·.cost) =
      (Layout.start.walk limit (boundaries.zip splits)).2.elim
        (.ok ((Layout.start.walk limit (boundaries.zip splits)).1.getLastD Layout.start).cost)
        .error := by
  unfold ofPath
  rw [if_neg (not_not_intro h)]
  split
  · rename_i fault hwalk
    rw [hwalk]
    rfl
  · rename_i layouts hwalk
    rw [hwalk]
    rfl

/-- The gaps are numbered as the boundaries are. -/
theorem map_boundary_gaps (h : ofPath boundaries splits limit = .ok rendering) :
    rendering.gaps.map (·.boundary) = List.range boundaries.length := by
  obtain ⟨hlength, layouts, hwalk, hgaps, _⟩ := exists_walk_of_ofPath h
  have hlayouts := Layout.length_of_walk hwalk
  rw [List.length_zip] at hlayouts
  rw [hgaps]
  apply List.ext_getElem
  · simp
    omega
  · simp

end Rendering

/-- Streaming a replay and rendering it gap by gap agree, whatever the boundaries, the splits and
the limit. Both end with the same fault or the same cost. Without a fault, the text streamed is that
of the rendering, whose gaps are numbered as the boundaries are. With too many splits or too few,
only the first left token is streamed. Any other fault tells the boundary at which it arose, and
what was streamed is what the boundaries before that one stream by themselves, or the first left
token where there are none. -/
theorem streaming_and_rendering_agree (boundaries : List Boundary) (splits : List Split)
    (limit : Limit) :
    (Emission.ofPath boundaries splits limit).outcome =
      (Rendering.ofPath boundaries splits limit).map (·.cost) ∧
    (∀ rendering, Rendering.ofPath boundaries splits limit = .ok rendering →
      (Emission.ofPath boundaries splits limit).text = rendering.text boundaries ∧
      rendering.gaps.map (·.boundary) = List.range boundaries.length) ∧
    (boundaries.length ≠ splits.length →
      (Emission.ofPath boundaries splits limit).outcome =
        .error (.lengthMismatch boundaries.length splits.length) ∧
      (Emission.ofPath boundaries splits limit).text =
        boundaries.head?.elim "" (·.left.text)) ∧
    ∀ fault, boundaries.length = splits.length →
      (Emission.ofPath boundaries splits limit).outcome = .error fault →
      ∃ k < boundaries.length, (fault = .tokenOrder k ∨ fault = .expiredScope k) ∧
        (∃ cost, (Emission.ofPath (boundaries.take k) (splits.take k) limit).outcome = .ok cost) ∧
        (Emission.ofPath boundaries splits limit).text =
          if k = 0 then boundaries.head?.elim "" (·.left.text)
          else (Emission.ofPath (boundaries.take k) (splits.take k) limit).text := by
  refine ⟨?_, ?_, ?_, ?_⟩
  · by_cases hlength : boundaries.length = splits.length
    · rw [Emission.outcome_of_length_eq hlength, Emission.outcome_ofSteps,
        Rendering.map_cost_ofPath hlength]
    · simp [Emission.ofPath, Rendering.ofPath, hlength, Except.map]
  · intro rendering hrendering
    obtain ⟨hlength, layouts, hwalk, _⟩ := Rendering.exists_walk_of_ofPath hrendering
    refine ⟨?_, Rendering.map_boundary_gaps hrendering⟩
    rw [Emission.text_of_length_eq hlength, Emission.contents_ofSteps hwalk,
      Rendering.text_eq hrendering]
  · intro hlength
    refine ⟨?_, Emission.text_of_length_ne hlength limit⟩
    simp [Emission.ofPath, hlength]
  · intro fault hlength hfault
    exact Emission.exists_prefix_of_fault hlength hfault

/-- Two boundaries, the second with its tokens out of order. -/
def swapped : List Boundary := [⟨⟨"f", 1⟩, ⟨"x", 3⟩⟩, ⟨⟨"x", 3⟩, ⟨"y", 2⟩⟩]

/-- Up to the fault the line break and its token are streamed. With one split too few, nothing is
but the first left token. -/
theorem a_stream_keeps_what_came_before_the_fault :
    (Emission.ofPath swapped [.newline 1, .space 0] ⟨60, 50, by decide⟩).outcome =
        .error (.tokenOrder 1) ∧
      (Emission.ofPath swapped [.newline 1, .space 0] ⟨60, 50, by decide⟩).text = "f\nx" ∧
      (Emission.ofPath swapped [.newline 1] ⟨60, 50, by decide⟩).text = "f" ∧
      ∃ rendering, Rendering.ofPath (swapped.take 1) [.newline 1] ⟨60, 50, by decide⟩ =
          .ok rendering ∧
        (Emission.ofPath (swapped.take 1) [.newline 1] ⟨60, 50, by decide⟩).text =
          rendering.text (swapped.take 1) := by
  obtain ⟨_, _, _, hfaulty⟩ :=
    streaming_and_rendering_agree swapped [.newline 1, .space 0] ⟨60, 50, by decide⟩
  obtain ⟨k, _, hfault, _, htext⟩ := hfaulty (.tokenOrder 1) rfl rfl
  obtain ⟨_, _, hshort, _⟩ := streaming_and_rendering_agree swapped [.newline 1] ⟨60, 50, by decide⟩
  obtain ⟨_, hwhole, _⟩ :=
    streaming_and_rendering_agree (swapped.take 1) [.newline 1] ⟨60, 50, by decide⟩
  have hk : 1 = k := by simpa using hfault
  subst hk
  exact ⟨rfl, htext.trans rfl, (hshort (by decide)).2, _, rfl, (hwhole _ rfl).1⟩

end LineBreak
