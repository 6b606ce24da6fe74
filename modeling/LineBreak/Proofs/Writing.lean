-- The text along a path: each gap, then its right token. A rendering says the
-- same, and the column of a layout is the length of the last line written.
import LineBreak.Proofs.Lines
import LineBreak.Rendering

namespace LineBreak

/-! ## The characters of a gap -/

theorem Buffer.toList_writeAll (buffer : Buffer) (pieces : List Piece) :
    (buffer.writeAll pieces).contents.toList =
      buffer.contents.toList ++ pieces.flatMap (·.render.toList) := by
  induction pieces generalizing buffer with
  | nil => simp [writeAll]
  | cons piece pieces ih =>
    rw [writeAll_cons, ih, contents_write, String.toList_append, List.flatMap_cons,
      List.append_assoc]

namespace Filling

/-- What the filling puts before its right token. -/
def chars (filling : Filling) (indentation : Width) : List Char :=
  (filling.pieces indentation).flatMap (·.render.toList)

/-- Only a line break of the layout starts a new line: a literal holds none. -/
def SingleLine : Filling → Prop
  | literal text => '\n' ∉ text.toList
  | _ => True

instance (filling : Filling) : Decidable filling.SingleLine := by
  unfold SingleLine
  split <;> infer_instance

variable {filling : Filling} {indentation : Width}

theorem chars_newline (blankLine noIndent : Bool) (indentation : Width) :
    (newline blankLine noIndent).chars indentation =
      List.replicate (blankLine.toNat + 1) '\n' ++
        List.replicate (if noIndent then 0 else indentation.val) ' ' := by
  unfold chars pieces
  cases blankLine <;> cases noIndent <;> simp [Piece.render]

theorem not_mem_chars (h : filling.SingleLine) (hline : filling.isNewline = false) :
    '\n' ∉ filling.chars indentation := by
  cases filling with
  | newline blankLine noIndent => cases hline
  | literal text =>
    have htext : '\n' ∉ text.toList := h
    simpa [chars, pieces, Piece.render] using htext
  | space => simp [chars, pieces, Piece.render]
  | nothing => simp [chars, pieces]

theorem width_eq (hline : filling.isNewline = false) (indentation : Width) :
    filling.width = Capped.ofNat _ (filling.chars indentation).length := by
  cases filling with
  | newline blankLine noIndent => cases hline
  | literal text => simp [chars, pieces, Piece.render, width, textWidth, String.length_toList]
  | space => rfl
  | nothing => rfl

theorem lastLine_append_newline (text : List Char) (blankLine noIndent : Bool)
    (indentation : Width) :
    lastLine (text ++ (newline blankLine noIndent).chars indentation) =
      List.replicate (if noIndent then 0 else indentation.val) ' ' := by
  rw [chars_newline, List.replicate_succ', List.append_assoc, ← List.append_assoc,
    List.singleton_append]
  exact lastLine_append_cons (by simp) _

theorem fits_append_chars {width : Nat} {text : List Char} (hwidth : 0 < width)
    (h : filling.SingleLine) :
    Fits width (text ++ filling.chars indentation) ↔
      Fits width text ∧ (lastLine (text ++ filling.chars indentation)).length < width := by
  cases hline : filling.isNewline with
  | false => exact fits_append (not_mem_chars h hline)
  | true =>
    obtain ⟨blankLine, noIndent, rfl⟩ := exists_of_isNewline hline
    rw [chars_newline, ← List.append_assoc, fits_append (by simp), fits_append_feeds hwidth]

end Filling

theorem Rendering.toList_gapText (split : Split) (after : Layout) :
    (gapText split after).toList = split.filling.chars after.indentation := by
  unfold gapText
  rw [Buffer.toList_writeAll]
  rfl

/-! ## Writing along a path -/

namespace Layout

/-- The text goes on with the gap and the right token of one more boundary. -/
def write (layout : Layout) (limit : Limit) (text : String) (split : Split)
    (boundary : Boundary) : String :=
  text ++ Rendering.gapText split (layout.extend limit split boundary) ++ boundary.right.text

/-- The text after all gaps and right tokens of a path. -/
def writeAll (limit : Limit) (layout : Layout) (text : String) : List (Boundary × Split) → String
  | [] => text
  | (boundary, split) :: path =>
    writeAll limit (layout.extend limit split boundary)
      (layout.write limit text split boundary) path

theorem walk_cons_eq_none {limit : Limit} {layout : Layout} {boundary : Boundary} {split : Split}
    {path : List (Boundary × Split)} {layouts : List Layout}
    (h : layout.walk limit ((boundary, split) :: path) = (layouts, none)) :
    layout.step limit split boundary = .ok (layout.extend limit split boundary) ∧
      ∃ rest, (layout.extend limit split boundary).walk limit path = (rest, none) ∧
        layouts = layout.extend limit split boundary :: rest := by
  unfold walk at h
  cases hstep : layout.step limit split boundary with
  | error fault =>
    rw [hstep] at h
    cases h
  | ok after =>
    rw [hstep] at h
    obtain ⟨_, _, rfl⟩ := step_eq_ok_iff.mp hstep
    obtain ⟨hlayouts, hfault⟩ := Prod.mk.inj h
    exact ⟨rfl, _, Prod.ext rfl hfault, hlayouts.symm⟩

/-- What is written when a walk comes to its end. -/
theorem foldl_gaps_of_walk {limit : Limit} {path : List (Boundary × Split)} {layout : Layout}
    {layouts : List Layout} (h : layout.walk limit path = (layouts, none)) {gaps : List Gap}
    (hgaps : gaps.map (·.text) =
      ((path.map (·.2)).zip layouts).map fun step => Rendering.gapText step.1 step.2)
    (text : String) :
    ((path.map (·.1)).zip gaps).foldl (fun text step => text ++ step.2.text ++ step.1.right.text)
      text = layout.writeAll limit text path := by
  induction path generalizing layout layouts gaps text with
  | nil => rfl
  | cons step path ih =>
    obtain ⟨_, rest, hrest, rfl⟩ := walk_cons_eq_none h
    cases gaps with
    | nil => cases hgaps
    | cons gap gaps =>
      simp only [List.map_cons, List.zip_cons_cons, List.cons.injEq] at hgaps ⊢
      rw [List.foldl_cons, ih hrest hgaps.2, hgaps.1]
      rfl

end Layout

namespace Rendering

variable {boundaries : List Boundary} {splits : List Split} {limit : Limit} {rendering : Rendering}

/-- A rendering is read off a walk that comes to its end, with one split for each boundary. -/
theorem exists_walk_of_ofPath (h : ofPath boundaries splits limit = .ok rendering) :
    boundaries.length = splits.length ∧
      ∃ layouts, Layout.start.walk limit (boundaries.zip splits) = (layouts, none) ∧
        rendering.gaps =
          (splits.zip layouts).mapIdx (fun index step => ⟨index, gapText step.1 step.2⟩) ∧
        rendering.cost = (layouts.getLastD Layout.start).cost := by
  unfold ofPath at h
  by_cases hlength : boundaries.length = splits.length
  · rw [if_neg (not_not_intro hlength)] at h
    split at h
    · cases h
    · rename_i layouts hwalk
      cases h
      exact ⟨hlength, layouts, hwalk, by simp [writeGaps_empty], rfl⟩
  · rw [if_pos hlength] at h
    cases h

theorem text_eq (h : ofPath boundaries splits limit = .ok rendering) :
    rendering.text boundaries =
      Layout.start.writeAll limit (boundaries.head?.elim "" (·.left.text))
        (boundaries.zip splits) := by
  obtain ⟨hlength, layouts, hwalk, hgaps, _⟩ := exists_walk_of_ofPath h
  have htexts : rendering.gaps.map (·.text) =
      (((boundaries.zip splits).map (·.2)).zip layouts).map fun step =>
        gapText step.1 step.2 := by
    rw [List.map_snd_zip (Nat.le_of_eq hlength.symm), hgaps]
    exact List.ext_getElem (by simp) (by simp)
  have htext := Layout.foldl_gaps_of_walk hwalk htexts (boundaries.head?.elim "" (·.left.text))
  rw [List.map_fst_zip (Nat.le_of_eq hlength)] at htext
  exact htext

end Rendering

/-! ## The column -/

namespace Layout

/-- The layout stands where the text ends. -/
def Tracks (layout : Layout) (text : String) : Prop :=
  layout.column = Capped.ofNat _ (lastLine text.toList).length

variable {layout : Layout} {text : String} {split : Split} {boundary : Boundary}

/-- The right token starts where the text with the gap ends. -/
theorem Tracks.lineStart_eq (h : layout.Tracks text) (hsplit : split.filling.SingleLine)
    (limit : Limit) :
    layout.lineStart split boundary = Capped.ofNat _
      (lastLine (text ++
        Rendering.gapText split (layout.extend limit split boundary)).toList).length := by
  rw [String.toList_append, Rendering.toList_gapText, Capped.ext_iff, Capped.val_ofNat]
  cases hline : split.filling.isNewline with
  | false =>
    rw [lineStart_of_isNewline_eq_false hline, h,
      Filling.width_eq hline (layout.extend limit split boundary).indentation,
      lastLine_append (Filling.not_mem_chars hsplit hline), List.length_append, Capped.val_add,
      Capped.val_ofNat, Capped.val_ofNat]
    omega
  | true =>
    obtain ⟨blankLine, noIndent, hfilling⟩ := Filling.exists_of_isNewline hline
    rw [lineStart_of_newline hfilling, hfilling, Filling.lastLine_append_newline,
      List.length_replicate]
    cases noIndent with
    | true => rfl
    | false => exact (Nat.min_eq_left (Capped.val_le _)).symm

/-- The line of the right token ends where the text with the gap ends, once the token is cut at
its first line feed. -/
theorem Tracks.lineEnd_eq (h : layout.Tracks text) (hsplit : split.filling.SingleLine)
    (limit : Limit) :
    layout.lineEnd split boundary = Capped.ofNat _
      (lastLine ((text ++ Rendering.gapText split (layout.extend limit split boundary)).toList ++
        firstLine boundary.right.text.toList)).length := by
  unfold lineEnd
  rw [lastLine_append (not_mem_firstLine _), h.lineStart_eq hsplit limit]
  show _ + Capped.ofNat _ (firstLine boundary.right.text.toList).length = _
  rw [Capped.ext_iff, List.length_append, Capped.val_add, Capped.val_ofNat, Capped.val_ofNat,
    Capped.val_ofNat]
  omega

theorem Tracks.lineEnd_eq_of_not_mem (h : layout.Tracks text) (hsplit : split.filling.SingleLine)
    (hright : '\n' ∉ boundary.right.text.toList) (limit : Limit) :
    layout.lineEnd split boundary = Capped.ofNat _
      (lastLine (layout.write limit text split boundary).toList).length := by
  rw [h.lineEnd_eq hsplit limit, firstLine_eq_self hright, ← String.toList_append]
  rfl

/-- The column is told right again after one more boundary, as long as the extent of the right
token tells whether there is a line feed in it. -/
theorem Tracks.extend (h : layout.Tracks text) (hsplit : split.filling.SingleLine)
    (hright : '\n' ∉ boundary.right.text.toList ∨ boundary.right.text.length ≤ 4294967295)
    (limit : Limit) :
    (layout.extend limit split boundary).Tracks (layout.write limit text split boundary) := by
  have hmultiline : boundary.right.extent.isMultiline = true ↔ '\n' ∈ boundary.right.text.toList :=
    Extent.isMultiline_iff hright
  unfold Tracks
  show layout.columnAfter split boundary = _
  unfold columnAfter
  split
  · rename_i hfeed
    unfold write
    rw [String.toList_append, lastLine_append_of_mem (hmultiline.mp hfeed)]
    rfl
  · rename_i hfeed
    exact h.lineEnd_eq_of_not_mem hsplit (fun hmem => hfeed (hmultiline.mpr hmem)) limit

end Layout

end LineBreak
