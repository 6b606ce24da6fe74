-- What a solution is: a path through the slots, made of splits as they were
-- offered, that leads to a layout of the cost told. Filling the slots with its
-- splits again gives the same cost, so whatever can be searched can be
-- formatted.
import LineBreak.Proofs.Outcome
import Mathlib

namespace LineBreak

variable {slots : List Slot} {settings : Settings} {solution : Solution}

/-- The splits of a solution fill all slots, at the cost of the solution. -/
theorem Solution.path (h : search slots settings = .ok solution) :
    ∃ last, Path solution.limit Layout.start slots solution.splits last ∧
      last.cost = solution.cost := by
  obtain ⟨_, after, id, _, hafter, hdepth, hsolution⟩ := exists_run_of_search_eq_ok h
  have hpath := hafter.grown.path hafter.id_lt solution.ending
  rw [hdepth, List.take_of_length_le (Nat.le_refl _), ← hsolution] at hpath
  exact ⟨_, hpath, (congrArg Solution.cost hsolution).symm⟩

/-- How a search ends can be evaluated, and then there is a solution with that ending. -/
theorem exists_solution_of_ending {ending : Ending}
    (h : (search slots settings).toOption.map (·.ending) = some ending) :
    ∃ solution, search slots settings = .ok solution ∧ solution.ending = ending := by
  cases hsearch : search slots settings with
  | error fault =>
    rw [hsearch] at h
    cases h
  | ok solution =>
    rw [hsearch] at h
    exact ⟨solution, rfl, Option.some.inj h⟩

theorem Solution.exists_rendering (h : search slots settings = .ok solution) :
    ∃ rendering, solution.rendering slots = .ok rendering ∧ rendering.cost = solution.cost := by
  obtain ⟨last, hpath, hcost⟩ := Solution.path h
  obtain ⟨rendering, hrendering, hcost'⟩ := hpath.rendering_eq
  exact ⟨rendering, hrendering, hcost'.trans hcost⟩

theorem format_eq_of_rendering {rendering : Rendering} (h : search slots settings = .ok solution)
    (hrendering : solution.rendering slots = .ok rendering) :
    format slots settings = .ok (rendering.text (Slot.boundaries slots)) := by
  unfold format
  rw [h]
  show (solution.rendering slots >>= _) = _
  rw [hrendering]
  rfl

/-- A solution takes one split for each slot, as it was offered there. Replayed from the start,
the splits are never at fault, and each of them is admitted by the constraints collected so
far unless these admit none of the splits on offer. Rendered, they cost what the solution
says; so a text is found whenever a solution is. -/
theorem a_solution_is_a_path_of_the_cost_told (slots : List Slot) (settings : Settings) :
    (∀ solution, search slots settings = .ok solution →
      solution.splits.length = slots.length ∧
      (∀ i slot, slots[i]? = some slot → ∃ split before after,
        solution.splits[i]? = some split ∧ split ∈ slot.splits ∧
        Layout.start.follow solution.limit (((Slot.boundaries slots).zip solution.splits).take i) =
          .ok before ∧
        (before.constraints.admits split.filling slot.boundary = true ∨
          ∀ other ∈ slot.splits,
            before.constraints.admits other.filling slot.boundary = false) ∧
        before.step solution.limit split slot.boundary = .ok after) ∧
      ∃ rendering, solution.rendering slots = .ok rendering ∧ rendering.cost = solution.cost) ∧
    ((∃ text, format slots settings = .ok text) ↔
      ∃ solution, search slots settings = .ok solution) := by
  refine ⟨?_, ?_⟩
  · intro solution h
    obtain ⟨last, hpath, _⟩ := Solution.path h
    refine ⟨hpath.length_eq.symm, ?_, Solution.exists_rendering h⟩
    intro i slot hslot
    obtain ⟨split, before, after, hsplit, hfollow, ⟨hmem, hadmitted⟩, hstep⟩ :=
      hpath.exists_step hslot
    exact ⟨split, before, after, hsplit, hmem, hfollow, hadmitted, hstep⟩
  · constructor
    · rintro ⟨text, htext⟩
      cases hsearch : search slots settings with
      | ok solution => exact ⟨solution, rfl⟩
      | error fault =>
        unfold format at htext
        rw [hsearch] at htext
        cases htext
    · rintro ⟨solution, h⟩
      obtain ⟨rendering, hrendering, _⟩ := Solution.exists_rendering h
      exact ⟨_, format_eq_of_rendering h hrendering⟩

/-- The first text keeps what follows on its line, so the cheap line break is not admitted. -/
def keptTogether : List Slot :=
  [⟨⟨⟨"", 0⟩, ⟨"if", 2⟩⟩, [(Split.nothing 0).withConstraint (.unbroken 2)]⟩,
    ⟨⟨⟨"if", 2⟩, ⟨"x", 3⟩⟩, [.newline 0, .space 4]⟩]

theorem a_cut_search_still_replays :
    ∃ solution, search keptTogether ⟨80, 10000, 0⟩ = .ok solution ∧
      solution.ending = .truncated ∧ solution.splits.length = 2 ∧
      (∃ split, solution.splits[1]? = some split ∧ split ∈ [Split.newline 0, Split.space 4]) ∧
      (∃ rendering, solution.rendering keptTogether = .ok rendering ∧
        rendering.cost = solution.cost) ∧
      ∃ text, format keptTogether ⟨80, 10000, 0⟩ = .ok text := by
  obtain ⟨hsolution, htext⟩ := a_solution_is_a_path_of_the_cost_told keptTogether ⟨80, 10000, 0⟩
  obtain ⟨solution, hsearch, hending⟩ :=
    exists_solution_of_ending (show (search keptTogether ⟨80, 10000, 0⟩).toOption.map _ = _ by cbv)
  obtain ⟨hlength, hsplits, hrendering⟩ := hsolution solution hsearch
  obtain ⟨split, _, _, hsplit, hmem, _⟩ := hsplits 1 _ rfl
  exact ⟨solution, hsearch, hending, hlength, ⟨split, hsplit, hmem⟩, hrendering,
    htext.mpr ⟨solution, hsearch⟩⟩

end LineBreak
