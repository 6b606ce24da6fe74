-- The text of the gaps comes from the fillings, the scopes and the source
-- positions alone. Columns and costs never flow back into the indentation, so
-- two replays that agree on those three fail alike or put the same text between
-- their tokens, whatever the tokens are.
import LineBreak.Proofs.Future
import LineBreak.Proofs.History

namespace LineBreak

/-- Where the two tokens end. -/
def Boundary.stops (boundary : Boundary) : Nat × Nat := (boundary.left.stop, boundary.right.stop)

/-- What is put between the tokens, and the scopes opened there. -/
def Split.shape (split : Split) : Filling × List Scope := (split.filling, split.scopes)

/-! ## One step -/

section

variable {boundary other : Boundary} {split taken : Split}

theorem Boundary.ordered_congr (h : boundary.stops = other.stops) :
    boundary.Ordered ↔ other.Ordered := by
  obtain ⟨hleft, hright⟩ := Prod.mk.inj h
  simp [Ordered, hleft, hright]

theorem Scope.liveAt_congr (h : boundary.stops = other.stops) (scope : Scope) :
    scope.LiveAt boundary ↔ scope.LiveAt other := by
  obtain ⟨hleft, hright⟩ := Prod.mk.inj h
  cases hside : scope.side with
  | left => simp [LiveAt, Side.stop, hside, hleft]
  | right => simp [LiveAt, Side.stop, hside, hright]

theorem Split.malformedAt_congr (h : boundary.stops = other.stops)
    (hshape : split.shape = taken.shape) :
    split.MalformedAt boundary ↔ taken.MalformedAt other := by
  obtain ⟨_, hscopes⟩ := Prod.mk.inj hshape
  simp only [MalformedAt, hscopes, Boundary.ordered_congr h, Scope.liveAt_congr h]

end

namespace Layout

/-- The two layouts are equally deep, and the same scopes are in force, wherever they were
opened. -/
def SameScopes (layout other : Layout) : Prop :=
  layout.depth = other.depth ∧ layout.scopes.map (·.scope) = other.scopes.map (·.scope)

theorem SameScopes.indentation_eq {layout other : Layout} (h : layout.SameScopes other) :
    layout.indentation = other.indentation :=
  OpenScope.total_congr h.2

/-- The scopes after a step are those of before that are live, and those that the split opens. No
column goes into them but as a stamp. -/
theorem SameScopes.extend {layout other : Layout} (h : layout.SameScopes other)
    {boundary boundary' : Boundary} {split split' : Split}
    (hstops : boundary.stops = boundary'.stops) (hshape : split.shape = split'.shape)
    (limit limit' : Limit) :
    (layout.extend limit split boundary).SameScopes (other.extend limit' split' boundary') := by
  obtain ⟨hdepth, hscopes⟩ := h
  have hopened : split.scopes = split'.scopes := congrArg Prod.snd hshape
  have hlive : layout.outlook.scopes.filter (·.LiveAt boundary) =
      other.outlook.scopes.filter (·.LiveAt boundary') := by
    rw [show layout.outlook.scopes = other.outlook.scopes from hscopes]
    apply List.filter_congr
    intro scope _
    simp [Scope.liveAt_congr hstops]
  refine ⟨congrArg (· + 1) hdepth, ?_⟩
  show (layout.scopesAfter split boundary).map _ = (other.scopesAfter split' boundary').map _
  rw [map_scope_scopesAfter, map_scope_scopesAfter, hlive, hopened]

/-! ## A whole walk -/

/-- Two walks over paths that agree on the positions, the fillings and the scopes end with the same
fault, or both without one, and all along they have the same scopes in force. -/
theorem walk_sameScopes {path path' : List (Boundary × Split)}
    (h : path.map (Prod.map Boundary.stops Split.shape) =
      path'.map (Prod.map Boundary.stops Split.shape)) (limit limit' : Limit) :
    (start.walk limit path).2 = (start.walk limit' path').2 ∧
      List.Forall₂ SameScopes (start.walk limit path).1 (start.walk limit' path').1 := by
  rw [← List.forall₂_eq_eq_eq, List.forall₂_map_left_iff, List.forall₂_map_right_iff] at h
  refine walk_alike (R := SameScopes) And.left ?_ ?_ id ⟨rfl, rfl⟩ h
  · intro step other hsame
    obtain ⟨hstops, hshape⟩ := Prod.mk.inj hsame
    exact ⟨Boundary.ordered_congr hstops, Split.malformedAt_congr hstops hshape⟩
  · intro here there step other hscopes hsame
    obtain ⟨hstops, hshape⟩ := Prod.mk.inj hsame
    exact hscopes.extend hstops hshape limit limit'

end Layout

/-! ## The gaps -/

namespace Rendering

variable {boundaries boundaries' : List Boundary} {splits splits' : List Split}

/-- A gap is written from the filling and the indentation after it. -/
theorem gaps_congr {layouts layouts' : List Layout}
    (hfillings : splits.map (·.filling) = splits'.map (·.filling))
    (hindentations : layouts.map (·.indentation) = layouts'.map (·.indentation)) :
    writeGaps .empty 0 (splits.zip layouts) = writeGaps .empty 0 (splits'.zip layouts') := by
  have hgaps (taken : List Split) (after : List Layout) :
      writeGaps .empty 0 (taken.zip after) =
        ((taken.map (·.filling)).zip (after.map (·.indentation))).mapIdx fun i written =>
          Gap.mk i (Buffer.empty.writeAll (written.1.pieces written.2)).contents := by
    rw [writeGaps_empty]
    apply List.ext_getElem
    · simp
    · simp [gapText]
  rw [hgaps, hgaps, hfillings, hindentations]

/-- Two replays that agree on the positions, the fillings and the scopes fail alike or have the same
gaps. -/
theorem map_gaps_congr (hstops : boundaries.map Boundary.stops = boundaries'.map Boundary.stops)
    (hshapes : splits.map Split.shape = splits'.map Split.shape) (limit limit' : Limit) :
    (ofPath boundaries splits limit).map (·.gaps) =
      (ofPath boundaries' splits' limit').map (·.gaps) := by
  have hboundaries : boundaries.length = boundaries'.length := by
    simpa using congrArg List.length hstops
  have hsplits : splits.length = splits'.length := by
    simpa using congrArg List.length hshapes
  have hsteps : (boundaries.zip splits).map (Prod.map Boundary.stops Split.shape) =
      (boundaries'.zip splits').map (Prod.map Boundary.stops Split.shape) := by
    rw [← List.zip_map, ← List.zip_map, hstops, hshapes]
  have hfillings : splits.map (·.filling) = splits'.map (·.filling) := by
    simpa [Function.comp_def, Split.shape] using congrArg (List.map Prod.fst) hshapes
  obtain ⟨hfault, hscopes⟩ := Layout.walk_sameScopes hsteps limit limit'
  have hindentations : (Layout.start.walk limit (boundaries.zip splits)).1.map (·.indentation) =
      (Layout.start.walk limit' (boundaries'.zip splits')).1.map (·.indentation) := by
    rw [← List.forall₂_eq_eq_eq, List.forall₂_map_left_iff, List.forall₂_map_right_iff]
    exact hscopes.imp fun _ _ h => h.indentation_eq
  unfold ofPath
  rw [hboundaries, hsplits]
  split
  · rfl
  · generalize Layout.start.walk limit (boundaries.zip splits) = walk at *
    generalize Layout.start.walk limit' (boundaries'.zip splits') = walk' at *
    obtain ⟨layouts, fault⟩ := walk
    obtain ⟨layouts', _⟩ := walk'
    subst hfault
    cases fault with
    | some fault => rfl
    | none => exact congrArg Except.ok (gaps_congr hfillings hindentations)

/-- A replay without a malformed step is no fault. -/
theorem exists_of_not_malformed (h : boundaries.length = splits.length)
    (hnone : ∀ i, ¬ Malformed boundaries splits i) (limit : Limit) :
    ∃ rendering, ofPath boundaries splits limit = .ok rendering := by
  cases hpath : ofPath boundaries splits limit with
  | ok rendering => exact ⟨rendering, rfl⟩
  | error fault =>
    obtain ⟨i, _, hleast, _⟩ := (ofPath_eq_error_iff_isLeast h).mp hpath
    exact absurd hleast.1 (hnone i)

end Rendering

/-! ## The splits read back from a tree -/

namespace Tree

variable {calls : List Call} {tree : Tree} {id : NodeId} {call : Call} {chain : List Call}

/-- The calls of the chain stored the nodes on the path to the node, but for the start. -/
structure Retraces (calls : List Call) (tree : Tree) (id : NodeId) (chain : List Call) : Prop where
  made : List.Forall₂ (Made calls) (tree.path id).tail chain
  /-- The splits read back for the node are those of the calls, but for what their lines cost. -/
  shapes_eq : (tree.history id).map Split.shape = (chain.map (·.split)).map Split.shape
  sound : ∀ call ∈ chain, ¬ call.split.MalformedAt call.boundary

theorem Linked.retraces_start (h : Linked calls tree) :
    Retraces calls tree NodeId.start [] := by
  refine ⟨?_, ?_, by simp⟩
  · rw [h.path_start]
    exact List.Forall₂.nil
  · rw [h.history_start]
    rfl

theorem Retraces.child (h : Retraces calls tree call.id chain) (hstems : Stems calls tree id call) :
    Retraces calls tree id (chain ++ [call]) := by
  obtain ⟨hordered, hopens, _⟩ := Layout.step_eq_ok_iff.mp hstems.step_eq
  refine ⟨?_, ?_, ?_⟩
  · rw [hstems.path_eq, List.tail_append_of_ne_nil (tree.path_ne_nil call.id)]
    exact List.rel_append h.made (.cons hstems.made .nil)
  · rw [hstems.history_eq, List.map_append, List.map_append, List.map_append, h.shapes_eq]
    rfl
  · have hlast := Split.not_malformedAt_iff.mpr ⟨hordered, hopens⟩
    simpa [or_imp, forall_and] using ⟨h.sound, hlast⟩

theorem Linked.exists_retraces (h : Linked calls tree) (hid : id < tree.size) :
    ∃ chain, Retraces calls tree id chain := by
  apply h.induction (P := fun id => ∃ chain, Retraces calls tree id chain) ?_ ?_ hid
  · exact ⟨[], h.retraces_start⟩
  · rintro id call hstems ⟨chain, hchain⟩
    exact ⟨chain ++ [call], hchain.child hstems⟩

/-- What is read back can be replayed over the boundaries of the calls, under every limit. -/
theorem Retraces.exists_rendering (h : Retraces calls tree id chain) (limit : Limit) :
    ∃ rendering,
      Rendering.ofPath (chain.map (·.boundary)) (tree.history id) limit = .ok rendering := by
  have hlength : (tree.history id).length = chain.length := by
    simpa using congrArg List.length h.shapes_eq
  have hscopes : (tree.history id).map (·.scopes) = (chain.map (·.split)).map (·.scopes) := by
    simpa [Function.comp_def, Split.shape] using congrArg (List.map Prod.snd) h.shapes_eq
  apply Rendering.exists_of_not_malformed (by simp [hlength])
  intro i hmalformed
  rw [malformed_congr hscopes] at hmalformed
  obtain ⟨boundary, split, hboundary, hsplit, hover⟩ := hmalformed
  obtain ⟨call, hcall, rfl⟩ : ∃ call, chain[i]? = some call ∧ call.boundary = boundary := by
    simpa using hboundary
  obtain rfl : call.split = split := by simpa [hcall] using hsplit
  exact h.sound call (List.mem_of_getElem? hcall) hover

end Tree

/-- The gaps come from the source positions, the fillings and the scopes alone. Two replays whose
boundaries agree on where the tokens end and whose splits agree on fillings and scopes fail alike or
have the same gaps; texts, costs, constraints, markers and limits may all differ. So, over whatever
boundaries, the splits read back for a node of a tree have the gaps of the splits that were passed
in the calls along its path, and over the boundaries of these calls they have gaps. -/
theorem gaps_come_from_positions_fillings_and_scopes :
    (∀ boundaries boundaries' splits splits' limit limit',
      boundaries.map Boundary.stops = boundaries'.map Boundary.stops →
      splits.map Split.shape = splits'.map Split.shape →
      (Rendering.ofPath boundaries splits limit).map (·.gaps) =
        (Rendering.ofPath boundaries' splits' limit').map (·.gaps)) ∧
    ∀ calls tree id, Tree.Built calls tree → id < tree.size →
      ∃ chain, List.Forall₂ (Tree.Made calls) (tree.path id).tail chain ∧
        (∀ boundaries limit limit',
          (Rendering.ofPath boundaries (tree.history id) limit).map (·.gaps) =
            (Rendering.ofPath boundaries (chain.map (·.split)) limit').map (·.gaps)) ∧
        ∀ limit, ∃ rendering,
          Rendering.ofPath (chain.map (·.boundary)) (tree.history id) limit = .ok rendering := by
  constructor
  · intro boundaries boundaries' splits splits' limit limit' hstops hshapes
    exact Rendering.map_gaps_congr hstops hshapes limit limit'
  · intro calls tree id hbuilt hid
    obtain ⟨chain, hchain⟩ := hbuilt.linked.exists_retraces hid
    refine ⟨chain, hchain.made, ?_, hchain.exists_rendering⟩
    intro boundaries limit limit'
    exact Rendering.map_gaps_congr rfl hchain.shapes_eq limit limit'

/-- The boundaries of a call and its argument, under these names. -/
def callOf (function argument : String) : List Boundary :=
  [⟨⟨"", 0⟩, ⟨function, 1⟩⟩, ⟨⟨function, 1⟩, ⟨"(", 2⟩⟩, ⟨⟨"(", 2⟩, ⟨argument, 3⟩⟩]

/-- The argument stands indented on a line of its own. The costs and the marker are open. -/
def brokenArgument (cost : Cost) (marker : Option Marker) : List Split :=
  [⟨.nothing, cost, [⟨4, .right, 9⟩], none, marker⟩, .nothing cost, .newline cost]

/-- A long name on a narrow page has the gaps of a short one on a wide page. Of the three calls, the
last went past the width, but what is read back for it has the gaps of the splits passed. -/
theorem long_names_have_the_gaps_of_short_ones :
    (Rendering.ofPath (callOf "f" "x") (brokenArgument 0 none) ⟨70, 50, by decide⟩).map (·.gaps) =
        (Rendering.ofPath (callOf "function" "argument\nof it") (brokenArgument 5 (some 1))
          ⟨2, 0, by decide⟩).map (·.gaps) ∧
      ∃ tree, Tree.Built Tree.threeCalls tree ∧
        ∃ chain, List.Forall₂ (Tree.Made Tree.threeCalls) [1, 2] chain ∧
          ∃ rendering,
            Rendering.ofPath (chain.map (·.boundary)) (tree.history 2) ⟨70, 50, by decide⟩ =
              .ok rendering ∧
            (Rendering.ofPath (chain.map (·.boundary)) (chain.map (·.split))
              ⟨2, 0, by decide⟩).map (·.gaps) = .ok rendering.gaps := by
  obtain ⟨hgaps, htrees⟩ := gaps_come_from_positions_fillings_and_scopes
  refine ⟨hgaps _ _ _ _ _ _ rfl rfl, ?_⟩
  have hbuilt : Tree.Built Tree.threeCalls _ :=
    .call (.call (.call .initial _ (by decide)) _ (by decide)) _ (by decide)
  obtain ⟨chain, hmade, hsame, hrenders⟩ := htrees _ _ 2 hbuilt (by decide)
  obtain ⟨rendering, hrendering⟩ := hrenders ⟨70, 50, by decide⟩
  refine ⟨_, hbuilt, chain, hmade, rendering, hrendering, ?_⟩
  rw [← hsame _ ⟨70, 50, by decide⟩, hrendering]
  rfl

end LineBreak
