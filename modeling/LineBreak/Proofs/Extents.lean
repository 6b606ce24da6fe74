-- The extent of a text tells of its lines: how far the first and the last of
-- them go, and how many characters there are with the line feeds between. Two
-- texts, one behind the other, share one line where they meet.
import LineBreak.Proofs.Lines
import Mathlib

namespace LineBreak

variable {chars added : List Char}

/-! ## The lines of a text -/

theorem lines_cons_feed (chars : List Char) : lines ('\n' :: chars) = [] :: lines chars := by
  have h := lines_append_cons [] chars
  rwa [List.nil_append, lines_eq_singleton List.not_mem_nil] at h

theorem lines_cons_of_ne {c : Char} (h : c ≠ '\n') (chars : List Char) :
    lines (c :: chars) = (lines chars).modifyHead (c :: ·) := by
  unfold lines List.splitOn
  rw [List.splitOnP_cons_eq_if_modifyHead, if_neg (by simpa using h)]

theorem lines_ne_nil (chars : List Char) : lines chars ≠ [] := List.splitOn_ne_nil '\n' chars

theorem not_mem_of_mem_lines {line : List Char} (h : line ∈ lines chars) : '\n' ∉ line := by
  induction chars generalizing line with
  | nil =>
    rw [List.mem_singleton.mp h]
    exact List.not_mem_nil
  | cons c chars ih =>
    by_cases hfeed : c = '\n'
    · subst hfeed
      rw [lines_cons_feed] at h
      rcases List.mem_cons.mp h with rfl | h
      · exact List.not_mem_nil
      · exact ih h
    · obtain ⟨first, rest, hlines⟩ := List.exists_cons_of_ne_nil (lines_ne_nil chars)
      rw [hlines] at ih
      rw [lines_cons_of_ne hfeed, hlines] at h
      rcases List.mem_cons.mp h with rfl | h
      · exact List.not_mem_cons_of_ne_of_not_mem (Ne.symm hfeed) (ih List.mem_cons_self)
      · exact ih (List.mem_cons_of_mem _ h)

theorem head?_lines (chars : List Char) : (lines chars).head? = some (firstLine chars) := by
  induction chars with
  | nil => rfl
  | cons c chars ih =>
    by_cases h : c = '\n'
    · subst h
      rw [lines_cons_feed]
      rfl
    · simp [lines_cons_of_ne h, ih, firstLine, h]

theorem getLast?_lines (chars : List Char) : (lines chars).getLast? = some (lastLine chars) := by
  obtain ⟨before, hlines, _⟩ := lines_append chars List.not_mem_nil
  rw [hlines, List.getLast?_append, List.getLast?_singleton]
  rfl

/-- There is one line more than there are line feeds, and the lines hold all other characters. -/
theorem sum_length_lines (chars : List Char) :
    ((lines chars).map List.length).sum + (lines chars).length = chars.length + 1 := by
  induction chars with
  | nil => rfl
  | cons c chars ih =>
    by_cases h : c = '\n'
    · subst h
      rw [lines_cons_feed]
      simp only [List.map_cons, List.sum_cons, List.length_nil, List.length_cons]
      omega
    · obtain ⟨first, rest, hlines⟩ := List.exists_cons_of_ne_nil (lines_ne_nil chars)
      rw [hlines] at ih
      rw [lines_cons_of_ne h, hlines]
      simp only [List.modifyHead_cons, List.map_cons, List.sum_cons, List.length_cons] at ih ⊢
      omega

theorem one_lt_length_lines_iff : 1 < (lines chars).length ↔ '\n' ∈ chars := by
  constructor
  · intro hlt
    by_contra hnone
    simp [lines_eq_singleton hnone] at hlt
  · intro hmem
    obtain ⟨before, after, rfl, _⟩ := List.eq_append_cons_of_mem hmem
    have hbefore := List.length_pos_iff.mpr (lines_ne_nil before)
    have hafter := List.length_pos_iff.mpr (lines_ne_nil after)
    rw [lines_append_cons, List.length_append]
    omega

/-! ## The first line of two texts -/

theorem firstLine_append (h : '\n' ∉ chars) :
    firstLine (chars ++ added) = chars ++ firstLine added := by
  apply List.takeWhile_append_of_pos
  intro c hc
  exact bne_iff_ne.mpr (ne_of_mem_of_not_mem hc h)

/-- Behind a line feed, what follows no longer matters. -/
theorem firstLine_append_of_mem (h : '\n' ∈ chars) :
    firstLine (chars ++ added) = firstLine chars := by
  obtain ⟨before, after, rfl, hbefore⟩ := List.eq_append_cons_of_mem h
  rw [List.append_assoc, List.cons_append, firstLine_append_cons hbefore,
    firstLine_append_cons hbefore]

/-! ## Extents -/

namespace Extent

variable {text : String}

theorem val_width (h : text.length ≤ 4294967295) : (measure text).width.val = text.length :=
  Nat.min_eq_left h

theorem val_firstLine (h : text.length ≤ 4294967295) :
    (measure text).firstLine.val = (LineBreak.firstLine text.toList).length := by
  have hle := length_firstLine_le text.toList
  rw [String.length_toList] at hle
  exact Nat.min_eq_left (Nat.le_trans hle h)

theorem val_lastLine (h : text.length ≤ 4294967295) :
    (measure text).lastLine.val = (LineBreak.lastLine text.toList).length := by
  have hle := length_lastLine_le text.toList
  rw [String.length_toList] at hle
  exact Nat.min_eq_left (Nat.le_trans hle h)

theorem val_firstLine_append {a b : String} (h : (a ++ b).length ≤ 4294967295) :
    (measure (a ++ b)).firstLine.val =
      if (measure a).isMultiline then (measure a).firstLine.val
      else (measure a).firstLine.val + (measure b).firstLine.val := by
  have hlength := String.length_append a b
  have ha : a.length ≤ 4294967295 := by omega
  rw [val_firstLine h, val_firstLine ha, val_firstLine (by omega), String.toList_append]
  by_cases hfeed : '\n' ∈ a.toList
  · rw [if_pos ((isMultiline_iff (.inr ha)).mpr hfeed), firstLine_append_of_mem hfeed]
  · rw [if_neg (mt (isMultiline_iff (.inr ha)).mp hfeed), firstLine_append hfeed,
      firstLine_eq_self hfeed, List.length_append]

theorem val_lastLine_append {a b : String} (h : (a ++ b).length ≤ 4294967295) :
    (measure (a ++ b)).lastLine.val =
      if (measure b).isMultiline then (measure b).lastLine.val
      else (measure a).lastLine.val + (measure b).lastLine.val := by
  have hlength := String.length_append a b
  have hb : b.length ≤ 4294967295 := by omega
  rw [val_lastLine h, val_lastLine hb, val_lastLine (by omega), String.toList_append]
  by_cases hfeed : '\n' ∈ b.toList
  · rw [if_pos ((isMultiline_iff (.inr hb)).mpr hfeed), lastLine_append_of_mem hfeed]
  · rw [if_neg (mt (isMultiline_iff (.inr hb)).mp hfeed), lastLine_append hfeed,
      lastLine_eq_self hfeed, List.length_append]

end Extent

/-- The extent of a text is that of its lines, as long as the text has no more characters than the
greatest width. The text is cut into `k + 1` lines, none of them with a line feed in it. The first
and the last of them are as wide as the extent tells, the whole is as wide as all of them and the
`k` line feeds between, and the text counts as one of many lines if and only if `k` is positive.
Of two texts, one behind the other, the first line is that of the first text, unless that has one
line only, which then goes on with the first line of the second. The last line is told likewise. -/
theorem extents_tell_of_the_lines :
    (∀ text : String, text.length ≤ 4294967295 → ∃ first last k,
      ['\n'].intercalate (lines text.toList) = text.toList ∧
      (∀ line ∈ lines text.toList, '\n' ∉ line) ∧
      (lines text.toList).length = k + 1 ∧
      (lines text.toList).head? = some first ∧ (lines text.toList).getLast? = some last ∧
      (Extent.measure text).firstLine.val = first.length ∧
      (Extent.measure text).lastLine.val = last.length ∧
      (Extent.measure text).width.val = ((lines text.toList).map List.length).sum + k ∧
      ((Extent.measure text).isMultiline = true ↔ 0 < k)) ∧
    ∀ a b : String, (a ++ b).length ≤ 4294967295 →
      (Extent.measure (a ++ b)).firstLine.val =
        (if (Extent.measure a).isMultiline then (Extent.measure a).firstLine.val
          else (Extent.measure a).firstLine.val + (Extent.measure b).firstLine.val) ∧
      (Extent.measure (a ++ b)).lastLine.val =
        (if (Extent.measure b).isMultiline then (Extent.measure b).lastLine.val
          else (Extent.measure a).lastLine.val + (Extent.measure b).lastLine.val) := by
  constructor
  · intro text h
    have hpos := List.length_pos_iff.mpr (lines_ne_nil text.toList)
    have hsum := sum_length_lines text.toList
    rw [String.length_toList] at hsum
    refine ⟨_, _, (lines text.toList).length - 1, List.intercalate_splitOn '\n',
      fun _ => not_mem_of_mem_lines, (Nat.sub_add_cancel hpos).symm, head?_lines _,
      getLast?_lines _, Extent.val_firstLine h, Extent.val_lastLine h, ?_, ?_⟩
    · rw [Extent.val_width h]
      omega
    · rw [Extent.isMultiline_iff (.inr h), ← one_lt_length_lines_iff]
      omega
  · intro a b h
    exact ⟨Extent.val_firstLine_append h, Extent.val_lastLine_append h⟩

/-- A remark that ends with a line feed and an empty line, and then what goes on below it. -/
theorem a_remark_with_an_empty_line_is_measured :
    lines "// é\n\n".toList = ["// é".toList, [], []] ∧
      (Extent.measure "// é\n\n").width.val = 6 ∧
      (Extent.measure ("// é\n\n" ++ "x =")).firstLine.val = 4 ∧
      (Extent.measure ("// é\n\n" ++ "x =")).lastLine.val = 3 := by
  have hlines : lines "// é\n\n".toList = ["// é".toList, [], []] := by decide
  obtain ⟨hone, htwo⟩ := extents_tell_of_the_lines
  obtain ⟨_, _, k, _, _, hk, _, _, _, _, hwidth, _⟩ := hone "// é\n\n" (by decide)
  obtain ⟨hfirst, hlast⟩ := htwo "// é\n\n" "x =" (by decide)
  rw [hlines] at hk hwidth
  obtain rfl : 2 = k := Nat.succ.inj hk
  exact ⟨hlines, hwidth.trans (by decide), hfirst.trans (by decide), hlast.trans (by decide)⟩

end LineBreak
