-- The lines of a text, cut at every line feed, and what becomes of them when
-- the text goes on: without a line feed only the last line grows.
import LineBreak.Extent
import Mathlib.Data.List.TakeWhile

namespace LineBreak

/-- What stands between the line feeds. -/
def lines (chars : List Char) : List (List Char) := chars.splitOn '\n'

/-- Every line has fewer characters than `width`. -/
def Fits (width : Nat) (chars : List Char) : Prop := ∀ line ∈ lines chars, line.length < width

instance (width : Nat) (chars : List Char) : Decidable (Fits width chars) :=
  inferInstanceAs (Decidable (∀ line ∈ lines chars, line.length < width))

variable {chars added : List Char} {width : Nat}

/-! ## The first and the last line -/

theorem firstLine_eq_self (h : '\n' ∉ chars) : firstLine chars = chars := by
  refine List.takeWhile_eq_self_iff.mpr fun c hc => ?_
  exact bne_iff_ne.mpr (ne_of_mem_of_not_mem hc h)

theorem firstLine_append_cons (h : '\n' ∉ chars) (rest : List Char) :
    firstLine (chars ++ '\n' :: rest) = chars := by
  have hpos : ∀ c ∈ chars, (c != '\n') = true :=
    fun c hc => bne_iff_ne.mpr (ne_of_mem_of_not_mem hc h)
  unfold firstLine
  rw [List.takeWhile_append_of_pos hpos, List.takeWhile_cons_of_neg (by decide), List.append_nil]

theorem lastLine_eq_self (h : '\n' ∉ chars) : lastLine chars = chars := by
  unfold lastLine
  rw [firstLine_eq_self (by rwa [List.mem_reverse]), List.reverse_reverse]

theorem lastLine_append_cons (h : '\n' ∉ added) (chars : List Char) :
    lastLine (chars ++ '\n' :: added) = added := by
  unfold lastLine
  rw [List.reverse_append, List.reverse_cons, List.append_assoc, List.singleton_append,
    firstLine_append_cons (by rwa [List.mem_reverse]), List.reverse_reverse]

/-- A text is one line, or it is cut at its last line feed. -/
theorem not_mem_or_exists_last_feed (chars : List Char) :
    '\n' ∉ chars ∨ ∃ before after, chars = before ++ '\n' :: after ∧ '\n' ∉ after := by
  by_cases h : '\n' ∈ chars.reverse
  · obtain ⟨after, before, heq, hafter⟩ := List.eq_append_cons_of_mem h
    refine .inr ⟨before.reverse, after.reverse, ?_, by rwa [List.mem_reverse]⟩
    rw [← List.reverse_reverse chars, heq]
    simp
  · exact .inl (by rwa [List.mem_reverse] at h)

theorem lastLine_append (h : '\n' ∉ added) :
    lastLine (chars ++ added) = lastLine chars ++ added := by
  rcases not_mem_or_exists_last_feed chars with hchars | ⟨before, after, rfl, hafter⟩
  · rw [lastLine_eq_self hchars, lastLine_eq_self (List.not_mem_append hchars h)]
  · rw [List.append_assoc, List.cons_append, lastLine_append_cons hafter,
      lastLine_append_cons (List.not_mem_append hafter h)]

/-- After a line feed, what stood before it no longer matters. -/
theorem lastLine_append_of_mem (h : '\n' ∈ added) : lastLine (chars ++ added) = lastLine added := by
  rcases not_mem_or_exists_last_feed added with hnone | ⟨before, after, rfl, hafter⟩
  · exact absurd h hnone
  · rw [lastLine_append_cons hafter, ← List.append_assoc, lastLine_append_cons hafter]

theorem length_firstLine_le (chars : List Char) : (firstLine chars).length ≤ chars.length :=
  (List.takeWhile_prefix _).length_le

theorem length_firstLine_lt (h : '\n' ∈ chars) : (firstLine chars).length < chars.length := by
  obtain ⟨before, after, rfl, hbefore⟩ := List.eq_append_cons_of_mem h
  rw [firstLine_append_cons hbefore]
  simp

theorem length_lastLine_le (chars : List Char) : (lastLine chars).length ≤ chars.length := by
  have hle := length_firstLine_le chars.reverse
  rw [List.length_reverse] at hle
  unfold lastLine
  rwa [List.length_reverse]

theorem not_mem_firstLine (chars : List Char) : '\n' ∉ firstLine chars := by
  intro h
  have := List.mem_takeWhile_imp h
  simp at this

/-- The widths tell whether there is a line feed in a text, unless they both stop at the
greatest one. -/
theorem Extent.isMultiline_iff {text : String}
    (h : '\n' ∉ text.toList ∨ text.length ≤ 4294967295) :
    (Extent.measure text).isMultiline = true ↔ '\n' ∈ text.toList := by
  have hwidths : (Extent.measure text).isMultiline = true ↔
      min (LineBreak.firstLine text.toList).length 4294967295 ≠ min text.length 4294967295 := by
    unfold isMultiline measure textWidth
    rw [bne_iff_ne, ne_eq, Capped.ext_iff]
    rfl
  rw [hwidths]
  constructor
  · intro hne
    by_contra hnone
    rw [firstLine_eq_self hnone, String.length_toList] at hne
    exact hne rfl
  · intro hmem
    have hlt := length_firstLine_lt hmem
    rw [String.length_toList] at hlt
    have hlength : text.length ≤ 4294967295 := h.resolve_left (not_not_intro hmem)
    omega

/-! ## All lines -/

theorem lines_eq_singleton (h : '\n' ∉ chars) : lines chars = [chars] :=
  List.splitOnP_eq_singleton fun _ hc => beq_eq_false_iff_ne.mpr (ne_of_mem_of_not_mem hc h)

theorem lines_append_cons (chars added : List Char) :
    lines (chars ++ '\n' :: added) = lines chars ++ lines added :=
  List.splitOnP_append_cons chars added rfl

/-- A text without a line feed goes on with the last line and leaves the others alone. -/
theorem lines_append (chars : List Char) (h : '\n' ∉ added) :
    ∃ before, lines chars = before ++ [lastLine chars] ∧
      lines (chars ++ added) = before ++ [lastLine chars ++ added] := by
  rcases not_mem_or_exists_last_feed chars with hchars | ⟨before, after, rfl, hafter⟩
  · refine ⟨[], ?_, ?_⟩
    · rw [lines_eq_singleton hchars, lastLine_eq_self hchars, List.nil_append]
    · rw [lines_eq_singleton (List.not_mem_append hchars h), lastLine_eq_self hchars,
        List.nil_append]
  · refine ⟨lines before, ?_, ?_⟩
    · rw [lines_append_cons, lines_eq_singleton hafter, lastLine_append_cons hafter]
    · rw [List.append_assoc, List.cons_append, lines_append_cons, lastLine_append_cons hafter,
        lines_eq_singleton (List.not_mem_append hafter h)]

/-! ## Lines below a width -/

theorem fits_append (h : '\n' ∉ added) :
    Fits width (chars ++ added) ↔
      Fits width chars ∧ (lastLine (chars ++ added)).length < width := by
  obtain ⟨before, hchars, hadded⟩ := lines_append chars h
  have hlength : (lastLine chars).length ≤ (lastLine chars ++ added).length := by
    rw [List.length_append]
    exact Nat.le_add_right _ _
  unfold Fits
  rw [lastLine_append h, hchars, hadded]
  simp only [List.forall_mem_append, List.forall_mem_singleton]
  constructor
  · rintro ⟨hbefore, hlast⟩
    exact ⟨⟨hbefore, Nat.lt_of_le_of_lt hlength hlast⟩, hlast⟩
  · rintro ⟨⟨hbefore, _⟩, hlast⟩
    exact ⟨hbefore, hlast⟩

theorem fits_nil (hwidth : 0 < width) : Fits width [] := by
  unfold Fits
  rw [lines_eq_singleton List.not_mem_nil, List.forall_mem_singleton]
  exact hwidth

theorem fits_append_feeds (hwidth : 0 < width) (count : Nat) :
    Fits width (chars ++ List.replicate count '\n') ↔ Fits width chars := by
  induction count with
  | zero => rw [List.replicate_zero, List.append_nil]
  | succ count ih =>
    rw [List.replicate_succ', ← List.append_assoc, ← ih]
    unfold Fits
    rw [lines_append_cons, List.forall_mem_append]
    exact and_iff_left (fits_nil hwidth)

end LineBreak
