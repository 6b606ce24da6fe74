-- The boundaries of texts that stand back to back, and scopes over them. Each
-- token ends where the texts up to it end, so no boundary lies behind an
-- earlier one, and a scope meant to last through some boundary is in force up
-- to there. Only an empty text can make it last longer.
import LineBreak.Proofs.Outcome
import Mathlib

namespace LineBreak

/-! ## The tokens of a chain -/

namespace Token

/-- The last of the tokens that follow this one. -/
def followedByAll (token : Token) (texts : List String) : Token := texts.foldl followedBy token

theorem followedByAll_append (token : Token) (texts more : List String) :
    token.followedByAll (texts ++ more) = (token.followedByAll texts).followedByAll more :=
  List.foldl_append

/-- A token ends behind all texts up to it. -/
theorem stop_followedByAll (token : Token) (texts : List String) :
    (token.followedByAll texts).stop = token.stop + (texts.map String.utf8ByteSize).sum := by
  induction texts generalizing token with
  | nil => rfl
  | cons text texts ih =>
    show ((token.followedBy text).followedByAll texts).stop = _
    simp only [ih, followedBy, List.map_cons, List.sum_cons]
    omega

end Token

namespace Boundary

variable {texts : List String} {boundary : Boundary} {i j : Nat}

theorem length_chainFrom (left : Token) (texts : List String) :
    (chainFrom left texts).length = texts.length := by
  induction texts generalizing left with
  | nil => rfl
  | cons text texts ih => simp [chainFrom, ih]

theorem getElem?_chainFrom (left : Token) (texts : List String) (i : Nat) :
    (chainFrom left texts)[i]? = texts[i]?.map fun _ =>
      ⟨left.followedByAll (texts.take i), left.followedByAll (texts.take (i + 1))⟩ := by
  induction texts generalizing left i with
  | nil => rfl
  | cons text texts ih =>
    cases i with
    | zero => rfl
    | succ i => exact ih (left.followedBy text) i

/-- The token that ends the first `i` texts, the empty one where `i` is zero. -/
def tokenAt (texts : List String) (i : Nat) : Token := Token.start.followedByAll (texts.take i)

/-- The boundary numbered `i` lies between the tokens that end the first `i` texts and the first
`i + 1`. -/
theorem getElem?_chain_eq_some_iff :
    (chain texts)[i]? = some boundary ↔
      i < texts.length ∧ boundary = ⟨tokenAt texts i, tokenAt texts (i + 1)⟩ := by
  unfold chain tokenAt
  rw [getElem?_chainFrom, Option.map_eq_some_iff]
  constructor
  · rintro ⟨text, htext, rfl⟩
    exact ⟨(List.getElem?_eq_some_iff.mp htext).1, rfl⟩
  · rintro ⟨hi, rfl⟩
    exact ⟨_, List.getElem?_eq_getElem hi, rfl⟩

theorem tokenAt_succ {text : String} (h : texts[i]? = some text) :
    tokenAt texts (i + 1) = ⟨text, ((texts.take (i + 1)).map String.utf8ByteSize).sum⟩ := by
  have hstop := Token.start.stop_followedByAll (texts.take (i + 1))
  unfold tokenAt
  rw [show Token.start.stop = 0 from rfl, Nat.zero_add] at hstop
  rw [← hstop, List.take_add_one, h, Option.toList_some, Token.followedByAll_append]
  rfl

theorem stop_tokenAt_le (texts : List String) (h : i ≤ j) :
    (tokenAt texts i).stop ≤ (tokenAt texts j).stop := by
  obtain ⟨k, rfl⟩ := Nat.exists_eq_add_of_le h
  unfold tokenAt
  rw [List.take_add, Token.followedByAll_append, Token.stop_followedByAll _ (List.take k _)]
  exact Nat.le_add_right _ _

/-- A text that is not empty moves the end on. -/
theorem stop_tokenAt_lt (hne : "" ∉ texts) (hi : i < texts.length) (h : i < j) :
    (tokenAt texts i).stop < (tokenAt texts j).stop := by
  refine Nat.lt_of_lt_of_le ?_ (stop_tokenAt_le texts (Nat.succ_le_of_lt h))
  have htext : texts[i] ≠ "" := fun heq => hne (heq ▸ List.getElem_mem hi)
  have hsize : texts[i].utf8ByteSize ≠ 0 := mt String.utf8ByteSize_eq_zero_iff.mp htext
  unfold tokenAt
  rw [List.take_add_one, List.getElem?_eq_getElem hi, Option.toList_some,
    Token.followedByAll_append]
  show _ < _ + texts[i].utf8ByteSize
  omega

end Boundary

/-! ## The boundaries of a chain -/

section

variable {texts : List String} {here target : Boundary} {i j : Nat}

open Boundary (chain)

theorem Side.stop_le_of_chain (side : Side) (h : i ≤ j) (hhere : (chain texts)[i]? = some here)
    (htarget : (chain texts)[j]? = some target) : side.stop here ≤ side.stop target := by
  obtain ⟨_, rfl⟩ := Boundary.getElem?_chain_eq_some_iff.mp hhere
  obtain ⟨_, rfl⟩ := Boundary.getElem?_chain_eq_some_iff.mp htarget
  cases side with
  | left => exact Boundary.stop_tokenAt_le texts h
  | right => exact Boundary.stop_tokenAt_le texts (Nat.succ_le_succ h)

theorem Side.stop_lt_of_chain (side : Side) (hne : "" ∉ texts) (h : i < j)
    (hhere : (chain texts)[i]? = some here) (htarget : (chain texts)[j]? = some target) :
    side.stop here < side.stop target := by
  obtain ⟨hi, rfl⟩ := Boundary.getElem?_chain_eq_some_iff.mp hhere
  obtain ⟨hj, rfl⟩ := Boundary.getElem?_chain_eq_some_iff.mp htarget
  cases side with
  | left => exact Boundary.stop_tokenAt_lt hne hi h
  | right => exact Boundary.stop_tokenAt_lt hne (by omega) (Nat.succ_lt_succ h)

theorem Boundary.ordered_of_chain (h : (chain texts)[i]? = some here) : here.Ordered := by
  obtain ⟨_, rfl⟩ := getElem?_chain_eq_some_iff.mp h
  exact stop_tokenAt_le texts (Nat.le_succ i)

/-- Slots on a chain are well formed as soon as each of them offers a split. -/
theorem Slot.checkFrom_of_chainFrom {slots : List Slot} {left : Token} {index previous : Nat}
    (h : boundaries slots = Boundary.chainFrom left texts) (hprevious : previous ≤ left.stop)
    (hoffers : ∀ slot ∈ slots, slot.splits ≠ []) : checkFrom index previous slots = .ok () := by
  induction texts generalizing slots left index previous with
  | nil =>
    obtain rfl : slots = [] := List.map_eq_nil_iff.mp h
    rfl
  | cons text texts ih =>
    obtain ⟨slot, slots, rfl, hslot, hslots⟩ := List.map_eq_cons_iff.mp h
    obtain ⟨hfirst, hrest⟩ := List.forall_mem_cons.mp hoffers
    have hmoves : left.stop ≤ (left.followedBy text).stop := Nat.le_add_right _ _
    refine checkFrom_cons_eq_ok_iff.mpr ⟨hfirst, ?_, ?_, ?_⟩
    · rw [hslot]
      exact hmoves
    · rwa [hslot]
    · rw [hslot]
      exact ih hslots hmoves hrest

end

/-! ## Scopes along a walk -/

namespace Layout

variable {limit : Limit} {layout before after : Layout} {path : List (Boundary × Split)}
  {boundary : Boundary} {split : Split} {opened : OpenScope} {scope : Scope} {i k : Nat}

/-- Whatever is in force after a step is live at its boundary. -/
theorem liveAt_of_step (h : before.step limit split boundary = .ok after)
    (hopened : opened ∈ after.scopes) : opened.scope.LiveAt boundary := by
  obtain ⟨_, hopens, rfl⟩ := step_eq_ok_iff.mp h
  rcases List.mem_append.mp hopened with hold | hnew
  · simpa using (List.mem_filter.mp hold).2
  · obtain ⟨scope, hscope, rfl⟩ := List.mem_map.mp hnew
    exact hopens scope hscope

theorem mem_scopes_of_step (h : before.step limit split boundary = .ok after)
    (hopened : opened ∈ before.scopes) (hlive : opened.scope.LiveAt boundary) :
    opened ∈ after.scopes := by
  obtain ⟨_, _, rfl⟩ := step_eq_ok_iff.mp h
  exact List.mem_append_left _ (List.mem_filter.mpr ⟨hopened, by simpa using hlive⟩)

theorem opened_mem_of_step (h : before.step limit split boundary = .ok after)
    (hscope : scope ∈ split.scopes) :
    ⟨scope, before.column, before.indentation⟩ ∈ after.scopes := by
  obtain ⟨_, _, rfl⟩ := step_eq_ok_iff.mp h
  exact List.mem_append_right _ (List.mem_map_of_mem hscope)

/-- Each layout of a walk is one step from the layout before it, even if the walk ends with a
fault. -/
theorem exists_step_of_walk (h : (layout.walk limit path).1[k]? = some after) :
    ∃ before boundary split, (layout :: (layout.walk limit path).1)[k]? = some before ∧
      path[k]? = some (boundary, split) ∧ before.step limit split boundary = .ok after := by
  induction path generalizing layout k with
  | nil => cases h
  | cons first path ih =>
    obtain ⟨boundary, split⟩ := first
    rw [walk] at h ⊢
    cases hstep : layout.step limit split boundary with
    | error fault =>
      rw [hstep] at h
      cases h
    | ok next =>
      rw [hstep] at h
      cases k with
      | zero =>
        cases h
        exact ⟨layout, boundary, split, rfl, rfl, hstep⟩
      | succ k => exact ih h

/-- A scope opened at a step is in force after every later one, as long as it is live there. -/
theorem exists_opened_of_walk (hik : i ≤ k) (hafter : (layout.walk limit path).1[k]? = some after)
    (hstep : path[i]? = some (boundary, split)) (hscope : scope ∈ split.scopes)
    (hlive : ∀ m step, i < m → m ≤ k → path[m]? = some step → scope.LiveAt step.1) :
    ∃ before, (layout :: (layout.walk limit path).1)[i]? = some before ∧
      ⟨scope, before.column, before.indentation⟩ ∈ after.scopes := by
  induction k, hik using Nat.le_induction generalizing after with
  | base =>
    obtain ⟨before, _, _, hbefore, hpath, hnext⟩ := exists_step_of_walk hafter
    cases hstep.symm.trans hpath
    exact ⟨before, hbefore, opened_mem_of_step hnext hscope⟩
  | succ k hik ih =>
    obtain ⟨middle, _, _, hmiddle, hpath, hnext⟩ := exists_step_of_walk hafter
    obtain ⟨before, hbefore, hopened⟩ := ih hmiddle fun m step him hmk =>
      hlive m step him (Nat.le_succ_of_le hmk)
    exact ⟨before, hbefore, mem_scopes_of_step hnext hopened
      (hlive (k + 1) _ (Nat.lt_succ_of_le hik) (Nat.le_refl _) hpath)⟩

end Layout

/-- Scopes work over every chain of texts. There is one boundary for each text. Its right token is
that text and ends where the texts up to it end, and its left token is the right one of the boundary
before, or the empty token at the start. So slots on a chain that all offer a split are well formed.
A scope meant to last through a boundary is live at every boundary up to there, and no split is ever
at fault for it. On every walk over the chain, a scope opened at a step is in force after each step
from there through the boundary it is meant for, and, if no text is empty, after none behind. -/
theorem scopes_work_over_every_chain (texts : List String) :
    (Boundary.chain texts).length = texts.length ∧
    (∀ i text, texts[i]? = some text → ∃ boundary, (Boundary.chain texts)[i]? = some boundary ∧
      boundary.right = ⟨text, ((texts.take (i + 1)).map String.utf8ByteSize).sum⟩ ∧
      (i = 0 → boundary.left = ⟨"", 0⟩) ∧
      ∀ j, i = j + 1 → ∃ earlier, (Boundary.chain texts)[j]? = some earlier ∧
        boundary.left = earlier.right) ∧
    (∀ slots, Slot.boundaries slots = Boundary.chain texts →
      (∀ slot ∈ slots, slot.splits ≠ []) → Slot.check slots = .ok ()) ∧
    ∀ (i j : Nat) here target length side, i ≤ j → (Boundary.chain texts)[i]? = some here →
      (Boundary.chain texts)[j]? = some target →
      (Scope.through length side target).LiveAt here ∧
      (∀ (layout : Layout) limit split fault, layout.step limit split here = .error fault →
        ∃ other ∈ split.scopes, other ≠ Scope.through length side target ∧ ¬ other.LiveAt here) ∧
      ∀ (first : Layout) limit (splits : List Split) split, splits[i]? = some split →
        Scope.through length side target ∈ split.scopes →
        ∀ k after, (first.walk limit ((Boundary.chain texts).zip splits)).1[k]? = some after →
          (i ≤ k → k ≤ j → ∃ before,
            (first :: (first.walk limit ((Boundary.chain texts).zip splits)).1)[i]? = some before ∧
            ⟨Scope.through length side target, before.column, before.indentation⟩ ∈
              after.scopes) ∧
          ("" ∉ texts → j < k →
            ∀ opened ∈ after.scopes, opened.scope ≠ Scope.through length side target) := by
  refine ⟨Boundary.length_chainFrom _ _, ?_, ?_, ?_⟩
  · intro i text htext
    obtain ⟨hi, _⟩ := List.getElem?_eq_some_iff.mp htext
    refine ⟨_, Boundary.getElem?_chain_eq_some_iff.mpr ⟨hi, rfl⟩, Boundary.tokenAt_succ htext, ?_, ?_⟩
    · rintro rfl
      rfl
    · rintro j rfl
      exact ⟨_, Boundary.getElem?_chain_eq_some_iff.mpr ⟨Nat.lt_of_succ_lt hi, rfl⟩, rfl⟩
  · intro slots hslots hoffers
    exact Slot.checkFrom_of_chainFrom hslots (Nat.zero_le _) hoffers
  · intro i j here target length side hij hhere htarget
    have hlive : ∀ m boundary, m ≤ j → (Boundary.chain texts)[m]? = some boundary →
        (Scope.through length side target).LiveAt boundary := fun m boundary hmj hm =>
      side.stop_le_of_chain hmj hm htarget
    refine ⟨hlive i here hij hhere, ?_, ?_⟩
    · intro layout limit split fault hfault
      obtain ⟨_, hopens⟩ :=
        Layout.step_eq_error_of_ordered (Boundary.ordered_of_chain hhere) hfault
      obtain ⟨other, hother, hover⟩ : ∃ other ∈ split.scopes, ¬ other.LiveAt here := by
        simpa [Split.OpensAt] using hopens
      refine ⟨other, hother, ?_, hover⟩
      rintro rfl
      exact hover (hlive i here hij hhere)
    · intro first limit splits split hsplit hscope k after hafter
      constructor
      · intro hik hkj
        have hfirst : ((Boundary.chain texts).zip splits)[i]? = some (here, split) :=
          List.getElem?_zip_eq_some.mpr ⟨hhere, hsplit⟩
        apply Layout.exists_opened_of_walk hik hafter hfirst hscope
        intro m step _ hmk hstep
        exact hlive m step.1 (Nat.le_trans hmk hkj) (List.getElem?_zip_eq_some.mp hstep).1
      · rintro hne hjk opened hopened heq
        obtain ⟨_, boundary, _, _, hstep, hnext⟩ := Layout.exists_step_of_walk hafter
        have hboundary := (List.getElem?_zip_eq_some.mp hstep).1
        have hstill := Layout.liveAt_of_step hnext hopened
        rw [heq] at hstill
        exact Nat.not_le_of_lt (side.stop_lt_of_chain hne hjk htarget hboundary) hstill

/-- A call whose argument is one letter of two bytes. -/
def callTexts : List String := ["f", "(", "é", ")"]

/-- The scope of the argument, by its left side: it is over where the letter is the left token. -/
def argumentScope : Scope := .through 2 .left ⟨⟨"(", 2⟩, ⟨"é", 4⟩⟩

/-- The scope is opened before the parenthesis. -/
def callSplits : List Split :=
  [.nothing 0, (Split.nothing 0).withScope argumentScope, .newline 1, .newline 1]

theorem the_argument_is_indented_and_the_parenthesis_is_not :
    ∃ inside behind,
      (Layout.start.walk ⟨12, 20, by decide⟩ ((Boundary.chain callTexts).zip callSplits)).1[2]? =
        some inside ∧
      (Layout.start.walk ⟨12, 20, by decide⟩ ((Boundary.chain callTexts).zip callSplits)).1[3]? =
        some behind ∧
      argumentScope ∈ inside.scopes.map (·.scope) ∧
      argumentScope ∉ behind.scopes.map (·.scope) := by
  obtain ⟨_, _, _, hscopes⟩ := scopes_work_over_every_chain callTexts
  obtain ⟨_, _, hwalk⟩ := hscopes 1 2 _ _ 2 .left (by decide) rfl rfl
  have halong := hwalk Layout.start ⟨12, 20, by decide⟩ callSplits _ rfl (List.mem_singleton_self _)
  refine ⟨_, _, rfl, rfl, ?_, ?_⟩
  · obtain ⟨_, _, hopened⟩ := (halong 2 _ rfl).1 (by decide) (by decide)
    exact List.mem_map_of_mem hopened
  · intro hmem
    obtain ⟨opened, hopened, heq⟩ := List.mem_map.mp hmem
    exact (halong 3 _ rfl).2 (by decide) (by decide) opened hopened heq

/-- An empty text does not move the end on, so the scope outlasts the boundary it is meant for. -/
example : ((Layout.start.walk ⟨12, 20, by decide⟩ ((Boundary.chain ["f", "", "x"]).zip
    [.nothing 0, (Split.nothing 0).withScope (.through 2 .left ⟨⟨"f", 1⟩, ⟨"", 1⟩⟩),
      .newline 1])).1.getLastD Layout.start).indentation = 2 := by
  decide

end LineBreak
