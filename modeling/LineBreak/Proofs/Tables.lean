-- The tables of a search fit its tree: the frontier holds stored nodes at
-- their priorities, and the node kept for an outlook has that outlook and
-- costs no more than any other stored node with it.
import LineBreak.Proofs.Turn

namespace LineBreak

namespace Search

variable {problem : Problem} {cap : Nat} {search after : Search} {id : NodeId} {slot : Slot}
  {split : Split} {choice : Nat} {child : Node} {rest : Heap Entry} {entry : Entry}

structure Tabled (problem : Problem) (search : Search) : Prop extends Grown problem search where
  frontier : ∀ entry ∈ search.frontier.toList, entry.id < search.tree.size ∧
    entry.priority = (search.tree.get entry.id).layout.priority
  best : ∀ outlook id, search.best[outlook]? = some id →
    id < search.tree.size ∧ (search.tree.get id).layout.outlook = outlook
  kept : ∀ id < search.tree.size, id ≠ NodeId.start →
    ∃ kept, search.best[(search.tree.get id).layout.outlook]? = some kept ∧
      (search.tree.get kept).layout.cost ≤ (search.tree.get id).layout.cost

theorem tabled_initial (problem : Problem) (told : Array Event) :
    (initial told).Tabled problem where
  toGrown := grown_initial problem told
  frontier entry hentry := by
    obtain rfl : entry = ⟨Layout.start.priority, NodeId.start⟩ := List.mem_singleton.mp hentry
    exact ⟨Nat.zero_lt_one, rfl⟩
  best outlook id h := by
    have hnone : (initial told).best[outlook]? = none := Std.TreeMap.getElem?_emptyc
    rw [hnone] at h
    cases h
  kept id h hid := absurd (Nat.lt_one_iff.mp h) hid

/-! ## The milestones are noted apart -/

theorem noteMilestone_eq (search : Search) (child : Layout) (split : Split) :
    ∃ cheapest, search.noteMilestone child split = { search with cheapest } := by
  unfold noteMilestone
  split
  · exact ⟨search.cheapest, rfl⟩
  · exact ⟨_, rfl⟩

/-! ## Keeping a child -/

theorem keep_tree (search : Search) (child : Node) (choice : Nat) :
    (search.keep child choice).tree = (search.store child choice).1.tree := rfl

theorem keep_best (search : Search) (child : Node) (choice : Nat) :
    (search.keep child choice).best = search.best.insert child.layout.outlook search.tree.size :=
  rfl

theorem keep_get_of_lt (search : Search) (child : Node) (choice : Nat)
    (h : id < search.tree.size) :
    (search.keep child choice).tree.get id = search.tree.get id :=
  store_get_of_lt search child choice h

theorem keep_layout_size (search : Search) (child : Node) (choice : Nat) :
    ((search.keep child choice).tree.get search.tree.size).layout = child.layout := by
  rw [keep_tree, store_get_size]

theorem keep_size (search : Search) (child : Node) (choice : Nat) :
    (search.keep child choice).tree.size = search.tree.size + 1 :=
  store_size search child choice

theorem lt_keep_size (search : Search) (child : Node) (choice : Nat) (h : id < search.tree.size) :
    id < (search.keep child choice).tree.size := by
  rw [keep_size]
  exact Nat.lt_succ_of_lt h

theorem size_lt_keep_size (search : Search) (child : Node) (choice : Nat) :
    search.tree.size < (search.keep child choice).tree.size := by
  rw [keep_size]
  exact Nat.lt_succ_self _

theorem mem_keep_frontier (search : Search) (child : Node) (choice : Nat) :
    entry ∈ (search.keep child choice).frontier.toList ↔
      entry = ⟨child.layout.priority, search.tree.size⟩ ∨ entry ∈ search.frontier.toList := by
  rw [← List.mem_cons]
  exact (Heap.toList_push search.frontier ⟨child.layout.priority, search.tree.size⟩).mem_iff

theorem keep_best_getElem? (search : Search) (child : Node) (choice : Nat) (outlook : Outlook) :
    (search.keep child choice).best[outlook]? =
      if child.layout.outlook = outlook then some search.tree.size else search.best[outlook]? := by
  rw [keep_best, Std.TreeMap.getElem?_insert]
  simp only [Std.LawfulEqOrd.compare_eq_iff_eq]

/-- A node that is not dominated is cheaper than the one kept for its outlook. -/
theorem cost_lt_of_not_isDominated {layout : Layout} {kept : NodeId}
    (hdom : search.isDominated layout = false) (hkept : search.best[layout.outlook]? = some kept)
    (houtlook : (search.tree.get kept).layout.outlook = layout.outlook) :
    layout.cost < (search.tree.get kept).layout.cost := by
  unfold isDominated at hdom
  rw [hkept] at hdom
  simp only [decide_eq_false_iff_not] at hdom
  have hindent : (search.tree.get kept).layout.indentation = layout.indentation := by
    have hscopes := congrArg Outlook.scopes houtlook
    simp only [Layout.outlook] at hscopes
    unfold Layout.indentation OpenScope.total
    have hlengths := congrArg (List.map Scope.length) hscopes
    simp only [List.map_map, Function.comp_def] at hlengths
    rw [hlengths]
  by_contra hle
  refine hdom ⟨Nat.le_of_not_lt hle, ?_⟩
  rw [hindent]
  exact Nat.le_refl _

namespace Tabled

/-- The invariant is about four of the tables. -/
theorem congr (h : search.Tabled problem) (htree : after.tree = search.tree)
    (hchoices : after.choices = search.choices)
    (hfrontier : ∀ entry ∈ after.frontier.toList, entry ∈ search.frontier.toList)
    (hbest : after.best = search.best) : after.Tabled problem where
  toGrown := h.toGrown.congr htree hchoices
  frontier entry hentry := by
    rw [htree]
    exact h.frontier entry (hfrontier entry hentry)
  best := by
    rw [htree, hbest]
    exact h.best
  kept := by
    rw [htree, hbest]
    exact h.kept

theorem sameTables (h : search.Tabled problem) (hsame : after.SameTables search) :
    after.Tabled problem :=
  h.congr hsame.tree hsame.choices (fun _ h => hsame.frontier ▸ h) hsame.best

theorem pop (h : search.Tabled problem) (hpop : search.frontier.pop? = some (entry, rest)) :
    { search with frontier := rest }.Tabled problem := by
  refine h.congr rfl rfl ?_ rfl
  intro other hother
  exact (Heap.mem_iff_of_pop? hpop).mpr (Or.inr hother)

theorem noteMilestone (h : search.Tabled problem) (child : Layout) (split : Split) :
    (search.noteMilestone child split).Tabled problem := by
  obtain ⟨cheapest, heq⟩ := noteMilestone_eq search child split
  rw [heq]
  exact h.congr rfl rfl (fun _ h => h) rfl

theorem frontier_keep (h : search.Tabled problem) (child : Node) (choice : Nat)
    (hentry : entry ∈ (search.keep child choice).frontier.toList) :
    entry.id < (search.keep child choice).tree.size ∧
      entry.priority = ((search.keep child choice).tree.get entry.id).layout.priority := by
  rcases (mem_keep_frontier search child choice).mp hentry with rfl | hold
  · have hnew := keep_layout_size search child choice
    exact ⟨size_lt_keep_size search child choice, congrArg Layout.priority hnew.symm⟩
  · obtain ⟨hlt, hpriority⟩ := h.frontier entry hold
    rw [keep_get_of_lt search child choice hlt]
    exact ⟨lt_keep_size search child choice hlt, hpriority⟩

theorem best_keep (h : search.Tabled problem) (child : Node) (choice : Nat) {outlook : Outlook}
    {kept : NodeId} (hkept : (search.keep child choice).best[outlook]? = some kept) :
    kept < (search.keep child choice).tree.size ∧
      ((search.keep child choice).tree.get kept).layout.outlook = outlook := by
  rw [keep_best_getElem?] at hkept
  split at hkept
  · rename_i houtlook
    cases hkept
    rw [keep_layout_size]
    exact ⟨size_lt_keep_size search child choice, houtlook⟩
  · obtain ⟨hlt, houtlook⟩ := h.best outlook kept hkept
    rw [keep_get_of_lt search child choice hlt]
    exact ⟨lt_keep_size search child choice hlt, houtlook⟩

/-- A child that takes the place of the node kept for its outlook is cheaper still. -/
theorem kept_keep (h : search.Tabled problem) (choice : Nat)
    (hdom : search.isDominated child.layout = false)
    (hid : id < (search.keep child choice).tree.size) (hne : id ≠ NodeId.start) :
    ∃ kept, (search.keep child choice).best[((search.keep child choice).tree.get
        id).layout.outlook]? = some kept ∧
      ((search.keep child choice).tree.get kept).layout.cost ≤
        ((search.keep child choice).tree.get id).layout.cost := by
  have hnew := keep_layout_size search child choice
  by_cases hlt : id < search.tree.size
  · obtain ⟨kept, hkept, hcost⟩ := h.kept id hlt hne
    obtain ⟨hklt, hkoutlook⟩ := h.best _ kept hkept
    rw [keep_get_of_lt search child choice hlt, keep_best_getElem?]
    split
    · rename_i houtlook
      refine ⟨search.tree.size, rfl, ?_⟩
      rw [hnew]
      rw [← houtlook] at hkept hkoutlook
      have hcheaper := cost_lt_of_not_isDominated hdom hkept hkoutlook
      exact Nat.le_trans (Nat.le_of_lt hcheaper) hcost
    · refine ⟨kept, hkept, ?_⟩
      rw [keep_get_of_lt search child choice hklt]
      exact hcost
  · rw [keep_size] at hid
    obtain rfl : id = search.tree.size :=
      Nat.le_antisymm (Nat.le_of_lt_succ hid) (Nat.le_of_not_lt hlt)
    refine ⟨search.tree.size, ?_, Nat.le_refl _⟩
    rw [hnew, keep_best_getElem?, if_pos rfl]

/-- Keeping a child that is not dominated keeps the invariant. -/
theorem keep (h : search.Tabled problem) (hid : id < search.tree.size)
    (hslot : problem.slots[(search.tree.get id).layout.depth]? = some slot)
    (hoption : (split, choice) ∈ slot.options (search.tree.get id).layout.constraints)
    (hnext : (search.tree.get id).next problem.limit split slot.boundary = .ok child)
    (hdom : search.isDominated child.layout = false) :
    (search.keep child choice).Tabled problem where
  toGrown := (h.toGrown.store hid hslot hoption hnext).congr rfl rfl
  frontier _ hentry := h.frontier_keep child choice hentry
  best _ _ hkept := h.best_keep child choice hkept
  kept _ hlt hne := h.kept_keep choice hdom hlt hne

/-- Taking up a child keeps the invariant, whatever becomes of the child. -/
theorem takeUp (h : search.Tabled problem) (hid : id < search.tree.size)
    (hslot : problem.slots[(search.tree.get id).layout.depth]? = some slot)
    (hoption : (split, choice) ∈ slot.options (search.tree.get id).layout.constraints)
    (hnext : (search.tree.get id).next problem.limit split slot.boundary = .ok child) :
    (search.takeUp child split choice).Tabled problem := by
  rcases takeUp_cases search child split choice with ⟨_, heq⟩ | ⟨_, _, heq⟩ | ⟨_, hdom, heq⟩
  · rw [heq]
    exact h.congr rfl rfl (fun _ h => h) rfl
  · rw [heq]
    exact (h.noteMilestone child.layout split).congr rfl rfl (fun _ h => h) rfl
  · have hnoted := h.noteMilestone child.layout split
    obtain ⟨cheapest, hnote⟩ := noteMilestone_eq search child.layout split
    rw [heq]
    rw [hnote] at hnoted hdom ⊢
    exact hnoted.keep hid hslot hoption hnext hdom

end Tabled

end Search

end LineBreak
