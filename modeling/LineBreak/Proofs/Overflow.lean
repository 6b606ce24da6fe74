-- No line is too long that could have been short. A text stays below the width
-- exactly where its layouts do, and then it costs less than the penalty, so an
-- optimal solution takes such a path if there is one.
import LineBreak.Proofs.Optimality
import LineBreak.Proofs.Penalty
import LineBreak.Proofs.Writing

namespace LineBreak

/-! ## A text that fits -/

namespace Layout

variable {limit : Limit} {layout : Layout} {text : String}

theorem Tracks.fits_write {split : Split} {boundary : Boundary} (h : layout.Tracks text)
    (hsplit : split.filling.SingleLine) (hright : '\n' ∉ boundary.right.text.toList) :
    Fits limit.width.val (layout.write limit text split boundary).toList ↔
      Fits limit.width.val text.toList ∧ layout.lineEnd split boundary < limit.width := by
  have hend : layout.lineEnd split boundary < limit.width ↔
      (lastLine (layout.write limit text split boundary).toList).length < limit.width.val := by
    have := limit.width.val_le
    rw [h.lineEnd_eq_of_not_mem hsplit hright limit, Capped.lt_iff, Capped.val_ofNat]
    omega
  rw [hend]
  unfold write
  rw [String.toList_append, fits_append hright, String.toList_append, Rendering.toList_gapText,
    Filling.fits_append_chars limit.width_pos hsplit, lastLine_append hright, List.length_append]
  constructor
  · rintro ⟨⟨htext, _⟩, hlast⟩
    exact ⟨htext, hlast⟩
  · rintro ⟨htext, hlast⟩
    exact ⟨⟨htext, Nat.lt_of_le_of_lt (Nat.le_add_right _ _) hlast⟩, hlast⟩

/-- Along a path, the text fits as long as no line end reaches the width. -/
theorem Tracks.fits_writeAll {path : List (Boundary × Split)} (h : layout.Tracks text)
    (hpath : ∀ step ∈ path, '\n' ∉ step.1.right.text.toList ∧ step.2.filling.SingleLine) :
    Fits limit.width.val (layout.writeAll limit text path).toList ↔
      Fits limit.width.val text.toList ∧ layout.Inside limit path := by
  induction path generalizing layout text with
  | nil => exact (and_iff_left trivial).symm
  | cons step path ih =>
    obtain ⟨⟨hright, hsplit⟩, hrest⟩ := List.forall_mem_cons.mp hpath
    show Fits _ (writeAll limit _ (layout.write limit text step.2 step.1) path).toList ↔ _
    rw [ih (h.extend hsplit (.inl hright) limit) hrest, h.fits_write hsplit hright, and_assoc]
    rfl

end Layout

/-- Neither the right token nor a literal on offer holds a line feed. -/
def Slot.SingleLine (slot : Slot) : Prop :=
  '\n' ∉ slot.boundary.right.text.toList ∧ ∀ split ∈ slot.splits, split.filling.SingleLine

instance (slot : Slot) : Decidable slot.SingleLine := inferInstanceAs (Decidable (_ ∧ _))

theorem Slot.SingleLine.steps {slots : List Slot} {splits : List Split}
    (h : ∀ slot ∈ slots, slot.SingleLine)
    (hoffered : List.Forall₂ (fun slot split => split ∈ slot.splits) slots splits) :
    ∀ step ∈ (Slot.boundaries slots).zip splits,
      '\n' ∉ step.1.right.text.toList ∧ step.2.filling.SingleLine := by
  induction hoffered with
  | nil => intro step hstep; cases hstep
  | @cons slot split slots splits hsplit _ ih =>
    obtain ⟨hslot, hslots⟩ := List.forall_mem_cons.mp h
    exact List.forall_mem_cons.mpr ⟨⟨hslot.1, hslot.2 split hsplit⟩, ih hslots⟩

/-- The text of a path fits exactly when the path stays within the width. -/
theorem Path.fits_iff {limit : Limit} {slots : List Slot} {splits : List Split} {last : Layout}
    {rendering : Rendering} (h : Path limit Layout.start slots splits last)
    (hrendering : Rendering.ofPath (Slot.boundaries slots) splits limit = .ok rendering)
    (hfirst : ∀ slot ∈ slots.head?, slot.boundary.left.text = "")
    (hsingle : ∀ slot ∈ slots, slot.SingleLine) :
    Fits limit.width.val (rendering.text (Slot.boundaries slots)).toList ↔
      Layout.start.Inside limit ((Slot.boundaries slots).zip splits) := by
  have hleft : (Slot.boundaries slots).head?.elim "" (·.left.text) = "" := by
    cases slots with
    | nil => rfl
    | cons slot slots => exact hfirst slot rfl
  have htracks : Layout.start.Tracks "" := rfl
  rw [Rendering.text_eq hrendering, hleft,
    htracks.fits_writeAll (Slot.SingleLine.steps hsingle h.forall₂_mem)]
  exact and_iff_right (fits_nil limit.width_pos)

/-- Where every line of some path's text can be kept below the width, an uncut search without
markers keeps every line below it. -/
theorem no_line_is_too_long_without_need {slots : List Slot} {settings : Settings}
    {solution : Solution} {splits : List Split} {last : Layout} {rendering : Rendering}
    (hfirst : ∀ slot ∈ slots.head?, slot.boundary.left.text = "")
    (hsingle : ∀ slot ∈ slots, slot.SingleLine) (hmarkers : Unmarked slots)
    (hcosts : (slots.map (·.dearest.val)).sum < 18446744073709551615)
    (hsearch : search slots settings = .ok solution) (hending : solution.ending = .optimal)
    (hpath : Path solution.limit Layout.start slots splits last)
    (hrendering : Rendering.ofPath (Slot.boundaries slots) splits solution.limit = .ok rendering)
    (hfits : Fits settings.maxWidth.val (rendering.text (Slot.boundaries slots)).toList) :
    ∃ text, format slots settings = .ok text ∧ Fits settings.maxWidth.val text.toList := by
  have hlimit := (exists_run_of_search_eq_ok hsearch).1.limit_eq
  obtain ⟨last', hpath', hcost⟩ := Solution.path hsearch
  obtain ⟨rendering', hrendering', _⟩ := Solution.exists_rendering hsearch
  refine ⟨_, format_eq_of_rendering hsearch hrendering', ?_⟩
  rw [← (Slot.effectiveLimit_eq_ok hlimit).1] at hfits ⊢
  rw [hpath.fits_iff hrendering hfirst hsingle] at hfits
  rw [hpath'.fits_iff hrendering' hfirst hsingle]
  -- Otherwise the solution pays the penalty, and the path that fits is cheaper.
  by_contra hoverflow
  have hlt := Layout.cost_lt_of_inside hlimit hcosts hpath.forall₂_mem hpath.follow_eq hfits
    hpath'.follow_eq hoverflow
  have hle := Solution.cost_le hsearch hending (honest_of_unmarked _ hmarkers) hpath
  rw [← hcost] at hle
  exact Nat.not_lt_of_le hle hlt

/-- Side by side the two texts are cheap but too wide for four columns. -/
def crowded : List Slot :=
  [⟨⟨⟨"", 0⟩, ⟨"ab", 2⟩⟩, [.nothing 0]⟩, ⟨⟨⟨"ab", 2⟩, ⟨"cd", 4⟩⟩, [.space 0, .newline 5]⟩]

theorem crowded_texts_are_broken :
    (∃ solution, search crowded ⟨4, 1, 10⟩ = .ok solution ∧ solution.ending = .optimal) ∧
      ∃ text, format crowded ⟨4, 1, 10⟩ = .ok text ∧ Fits 4 text.toList := by
  obtain ⟨solution, hsearch, hending⟩ :=
    exists_solution_of_ending (show (search crowded ⟨4, 1, 10⟩).toOption.map _ = _ by cbv)
  have hlimit : solution.limit = ⟨4, 6, by decide⟩ :=
    Except.ok.inj ((exists_run_of_search_eq_ok hsearch).1.limit_eq.symm.trans (by rfl))
  have hpath : Path solution.limit Layout.start crowded [.nothing 0, .newline 5]
      ((Layout.start.extend solution.limit (.nothing 0) ⟨⟨"", 0⟩, ⟨"ab", 2⟩⟩).extend
        solution.limit (.newline 5) ⟨⟨"ab", 2⟩, ⟨"cd", 4⟩⟩) := by
    refine .cons ⟨List.mem_cons_self, .inl rfl⟩ rfl (.cons ⟨?_, .inl rfl⟩ rfl (.nil _))
    exact List.mem_cons_of_mem _ List.mem_cons_self
  have hrendering : Rendering.ofPath (Slot.boundaries crowded) [.nothing 0, .newline 5]
      solution.limit = .ok ⟨[⟨0, ""⟩, ⟨1, "\n"⟩], 5⟩ := by
    rw [hlimit]
    rfl
  exact ⟨⟨solution, hsearch, hending⟩, no_line_is_too_long_without_need (by decide) (by decide)
    (by decide) (by decide) hsearch hending hpath hrendering (by decide)⟩

end LineBreak
