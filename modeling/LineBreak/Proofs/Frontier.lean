-- A queue that gives back a greatest element each time is emptied in one order
-- only, however it keeps its elements: of two priorities, and of two entries of
-- a frontier, one is the greater unless they are the same. So the layout that a
-- search takes up next is settled by what is in its frontier.
import LineBreak.Proofs.BestFirst
import Mathlib

namespace LineBreak

/-! ## Emptying a queue -/

section Emptying

variable {α : Type} [Ord α] {elements others taken : List α} {a b top : α}

/-- The element is there, and none is greater. -/
def Greatest (elements : List α) (top : α) : Prop :=
  top ∈ elements ∧ ∀ a ∈ elements, (compare a top).isLE

/-- A greatest element is taken out, then a greatest of those left, until none is left. The
second list tells the order. -/
inductive Emptying : List α → List α → Prop
  | done : Emptying [] []
  | take {elements rest taken : List α} {top : α} (greatest : Greatest elements top)
      (left : elements.Perm (top :: rest)) (after : Emptying rest taken) :
      Emptying elements (top :: taken)

theorem Greatest.of_perm (h : Greatest elements top) (hperm : elements.Perm others) :
    Greatest others top :=
  ⟨hperm.mem_iff.mp h.1, fun a ha => h.2 a (hperm.mem_iff.mpr ha)⟩

theorem Emptying.of_perm (h : Emptying elements taken) (hperm : elements.Perm others) :
    Emptying others taken := by
  cases h with
  | done =>
    rw [List.nil_perm.mp hperm]
    exact .done
  | take greatest left after => exact .take (greatest.of_perm hperm) (hperm.symm.trans left) after

theorem Emptying.perm (h : Emptying elements taken) : taken.Perm elements := by
  induction h with
  | done => exact List.Perm.refl _
  | take _ left _ ih => exact (ih.cons _).trans left.symm

variable [Std.TransOrd α]

/-- What is taken out is no less than what is taken out later. -/
theorem Emptying.pairwise (h : Emptying elements taken) :
    taken.Pairwise (fun a b => (compare a b).isGE) := by
  induction h with
  | done => exact .nil
  | @take elements rest taken top greatest left after ih =>
    refine List.pairwise_cons.mpr ⟨fun a ha => ?_, ih⟩
    have hrest : a ∈ rest := after.perm.mem_iff.mp ha
    rw [Std.OrientedCmp.isGE_iff_isLE]
    exact greatest.2 a (left.mem_iff.mpr (List.mem_cons_of_mem _ hrest))

variable [Std.LawfulEqOrd α]

theorem Greatest.unique (h : Greatest elements a) (h' : Greatest elements b) : a = b :=
  Std.LawfulEqOrd.eq_of_compare (Std.OrientedCmp.isLE_antisymm (h'.2 a h.1) (h.2 b h'.1))

/-- The order depends on nothing but the elements. -/
theorem Emptying.unique {later : List α} (h : Emptying elements taken)
    (hperm : elements.Perm others) (h' : Emptying others later) : taken = later := by
  induction h generalizing others later with
  | done =>
    cases h' with
    | done => rfl
    | take _ left _ => cases List.nil_perm.mp (hperm.trans left)
  | take greatest left _ ih =>
    cases h' with
    | done => cases List.nil_perm.mp (hperm.symm.trans left)
    | take greatest' left' after' =>
      -- The greatest is the same on both sides, so what is left is the same as well.
      obtain rfl := (greatest.of_perm hperm).unique greatest'
      have hrest := (left.symm.trans (hperm.trans left')).cons_inv
      rw [ih hrest after']

end Emptying

namespace Heap

variable {α : Type} [Ord α] [Std.TransOrd α] {heap rest : Heap α} {elements : List α} {top : α}

theorem greatest_of_pop? (h : heap.pop? = some (top, rest)) : Greatest heap.toList top := by
  refine ⟨(mem_iff_of_pop? h).mpr (.inl rfl), fun a ha => ?_⟩
  rcases (mem_iff_of_pop? h).mp ha with rfl | hrest
  · exact Std.ReflCmp.isLE_rfl
  · exact le_of_pop? h a hrest

theorem emptying_drain (heap : Heap α) : Emptying heap.toList heap.drain := by
  fun_induction drain heap with
  | case1 heap h =>
    rw [(pop?_eq_none_iff heap).mp h]
    exact .done
  | case2 heap top rest h ih => exact .take (greatest_of_pop? h) (toList_of_pop? h) ih

theorem emptying_drain_ofList (elements : List α) : Emptying elements (ofList elements).drain :=
  (ofList elements).emptying_drain.of_perm (toList_ofList elements)

theorem exists_pop?_ofList (h : elements ≠ []) :
    ∃ top rest, (ofList elements).pop? = some (top, rest) ∧ Greatest elements top := by
  have hperm := toList_ofList elements
  cases hpop : (ofList elements).pop? with
  | none =>
    rw [pop?_eq_none_iff] at hpop
    rw [hpop] at hperm
    exact absurd (List.nil_perm.mp hperm) h
  | some popped => exact ⟨_, _, rfl, (greatest_of_pop? hpop).of_perm hperm⟩

end Heap

/-! ## The entries of a frontier -/

namespace Entry

variable {entry other : Entry} {heap rest : Heap Entry}

/-- Of entries with one priority the greater is the one stored first. -/
theorem id_le_of_isLE (h : (compare other entry).isLE)
    (hpriority : other.priority = entry.priority) : entry.id ≤ other.id := by
  by_contra hlt
  have hgt : compare other entry = .gt :=
    compare_eq_gt_iff.mpr (.inr ⟨hpriority, Nat.lt_of_not_le hlt⟩)
  rw [hgt] at h
  cases h

/-- Where no two entries have one id, those left are less than the one taken out. -/
theorem lt_of_pop? (hids : (heap.toList.map id).Nodup) (h : heap.pop? = some (entry, rest))
    (hother : other ∈ rest.toList) : compare other entry = .lt := by
  have hne : other ≠ entry := by
    rintro rfl
    have hids' := ((Heap.toList_of_pop? h).map id).nodup_iff.mp hids
    exact (List.nodup_cons.mp hids').1 (List.mem_map_of_mem hother)
  have hle := Ordering.isLE_iff_eq_lt_or_eq_eq.mp (Heap.le_of_pop? h other hother)
  exact hle.resolve_right (mt Std.compare_eq_iff_eq.mp hne)

end Entry

/-- At every turn of a search, the entry taken up is the only greatest of the frontier. -/
theorem Search.Reaches.lt_of_pop? {problem : Problem} {cap : Nat} {told : Array Event}
    {search : Search} {entry other : Entry} {rest : Heap Entry}
    (hreaches : Reaches problem cap (initial told) search)
    (hpop : search.frontier.pop? = some (entry, rest)) (hother : other ∈ rest.toList) :
    compare other entry = .lt := by
  obtain ⟨_, horderly⟩ := (orderly_initial problem told).reaches hreaches
  exact Entry.lt_of_pop? horderly.single hpop hother

/-- The comparisons of priorities and of entries are those of total orders, in which only the same
are equal. Of two priorities the greater is the one that costs less, then the deeper, then the less
indented; of two entries the one of the greater priority, then the one with the lower id.
From a heap of any priorities all of them come out, each no less than the next. Every queue that
takes out a greatest each time gives them back in the same order, and so does a heap into which they
were put otherwise. Of entries no two of which have one id there is exactly one greatest. The heap
gives it back first, and all others are less. None costs less, and none of the same priority has a
lower id. -/
theorem a_queue_is_emptied_in_one_order_only :
    (Std.TransOrd Priority ∧ Std.LawfulEqOrd Priority) ∧
    (Std.TransOrd Entry ∧ Std.LawfulEqOrd Entry) ∧
    (∀ p q : Priority, compare p q = .gt ↔ p.Before q) ∧
    (∀ entry other : Entry, compare entry other = .gt ↔
      entry.priority.Before other.priority ∨
        entry.priority = other.priority ∧ entry.id < other.id) ∧
    (∀ priorities : List Priority,
      (Heap.ofList priorities).drain.Perm priorities ∧
      (Heap.ofList priorities).drain.Pairwise (fun p q => (compare p q).isGE) ∧
      (∀ taken, Emptying priorities taken ↔ taken = (Heap.ofList priorities).drain) ∧
      ∀ others : List Priority, others.Perm priorities →
        (Heap.ofList others).drain = (Heap.ofList priorities).drain) ∧
    ∀ entries : List Entry, entries ≠ [] → (entries.map Entry.id).Nodup →
      ∃ top rest, (Heap.ofList entries).pop? = some (top, rest) ∧
        (∀ other, Greatest entries other ↔ other = top) ∧
        (∀ other ∈ rest.toList, compare other top = .lt) ∧
        (∀ other ∈ entries, top.priority.cost ≤ other.priority.cost) ∧
        ∀ other ∈ entries, other.priority = top.priority → top.id ≤ other.id := by
  refine ⟨⟨inferInstance, inferInstance⟩, ⟨inferInstance, inferInstance⟩,
    fun _ _ => Priority.compare_eq_gt_iff, fun _ _ => Entry.compare_eq_gt_iff, ?_, ?_⟩
  · intro priorities
    have hdrain := Heap.emptying_drain_ofList priorities
    refine ⟨hdrain.perm, hdrain.pairwise, fun taken => ⟨?_, ?_⟩, fun others hperm => ?_⟩
    · intro htaken
      exact htaken.unique (List.Perm.refl _) hdrain
    · rintro rfl
      exact hdrain
    · exact (Heap.emptying_drain_ofList others).unique hperm hdrain
  · intro entries hne hids
    obtain ⟨top, rest, hpop, htop⟩ := Heap.exists_pop?_ofList hne
    have hheld := ((Heap.toList_ofList entries).map Entry.id).nodup_iff.mpr hids
    refine ⟨top, rest, hpop, fun other => ⟨fun h => h.unique htop, ?_⟩, ?_, ?_, ?_⟩
    · rintro rfl
      exact htop
    · exact fun other => Entry.lt_of_pop? hheld hpop
    · exact fun other hother => Entry.cost_le_of_isLE (htop.2 other hother)
    · exact fun other hother => Entry.id_le_of_isLE (htop.2 other hother)

/-- The four priorities come out in the same order, whichever was put in first. Of two entries with
one priority, the one stored earlier is taken out, though it was put in last. -/
theorem an_equal_stored_earlier_comes_first :
    (Heap.ofList [⟨1, 2, 4⟩, ⟨3, 1, 0⟩, ⟨1, 2, 0⟩, ⟨1, 1, 4⟩]).drain =
      ([⟨1, 2, 0⟩, ⟨1, 2, 4⟩, ⟨1, 1, 4⟩, ⟨3, 1, 0⟩] : List Priority) ∧
    ∃ rest, (Heap.ofList [⟨⟨3, 1, 0⟩, 1⟩, ⟨⟨1, 2, 4⟩, 5⟩, ⟨⟨1, 2, 4⟩, 2⟩]).pop? =
        some ((⟨⟨1, 2, 4⟩, 2⟩ : Entry), rest) ∧
      ∀ other ∈ rest.toList, compare other ⟨⟨1, 2, 4⟩, 2⟩ = .lt := by
  obtain ⟨_, _, _, _, hpriorities, hentries⟩ := a_queue_is_emptied_in_one_order_only
  constructor
  · obtain ⟨_, _, _, hsame⟩ := hpriorities [⟨3, 1, 0⟩, ⟨1, 1, 4⟩, ⟨1, 2, 4⟩, ⟨1, 2, 0⟩]
    rw [hsame _ (by decide)]
    cbv
  · obtain ⟨top, rest, hpop, hgreatest, hless, _⟩ :=
      hentries [⟨⟨3, 1, 0⟩, 1⟩, ⟨⟨1, 2, 4⟩, 5⟩, ⟨⟨1, 2, 4⟩, 2⟩] (by decide) (by decide)
    obtain rfl : (⟨⟨1, 2, 4⟩, 2⟩ : Entry) = top := (hgreatest _).mp (by unfold Greatest; decide)
    exact ⟨rest, hpop, hless⟩

end LineBreak
