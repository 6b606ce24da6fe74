-- The layouts that a search visits, and how it completes one of them when it
-- has reached its cap. A layout is visited only if nothing was at fault on the
-- way, not even a split that was not taken.
import LineBreak.Proofs.Cover

namespace LineBreak

/-! ## Visited layouts -/

/-- The start, and what becomes of a visited layout at a slot with no option at fault. -/
inductive Visited (problem : Problem) : Layout → Prop
  | start : Visited problem Layout.start
  | step {layout after : Layout} {slot : Slot} {split : Split} (visited : Visited problem layout)
      (slot_eq : problem.slots[layout.depth]? = some slot)
      (passable : slot.Passable problem.limit layout)
      (allowed : slot.Allows layout.constraints split)
      (step_eq : layout.step problem.limit split slot.boundary = .ok after) :
      Visited problem after

/-- Every slot before a visited layout has been passed by a visited layout. -/
theorem Visited.exists_passable {problem : Problem} {layout : Layout}
    (h : Visited problem layout) {depth : Nat} (hdepth : depth < layout.depth) :
    ∃ earlier slot, Visited problem earlier ∧ earlier.depth = depth ∧
      problem.slots[depth]? = some slot ∧ slot.Passable problem.limit earlier := by
  induction h with
  | start => exact absurd hdepth (Nat.not_lt_zero depth)
  | @step layout _ slot _ visited slot_eq passable _ step_eq ih =>
    obtain ⟨_, _, rfl⟩ := Layout.step_eq_ok_iff.mp step_eq
    by_cases hlast : depth = layout.depth
    · subst hlast
      exact ⟨layout, slot, visited, rfl, slot_eq, passable⟩
    · have hlt : depth < layout.depth + 1 := hdepth
      exact ih (by omega)

namespace Search

variable {problem : Problem} {search after : Search} {limit : Limit} {node child : Node}
  {boundary : Boundary} {options : List (Split × Nat)} {slot : Slot} {id : NodeId}
  {choice : Nat} {split : Split}

/-- All stored layouts are visited ones. -/
def Seen (problem : Problem) (search : Search) : Prop :=
  ∀ id < search.tree.size, Visited problem (search.tree.get id).layout

theorem seen_initial (problem : Problem) (told : Array Event) : (initial told).Seen problem := by
  intro id hid
  obtain rfl : id = 0 := Nat.lt_one_iff.mp hid
  exact Visited.start

theorem Seen.branch (h : search.Seen problem) (hnode : Visited problem node.layout)
    (hslot : problem.slots[node.layout.depth]? = some slot)
    (hpass : slot.Passable problem.limit node.layout) :
    (branch problem.limit node slot.boundary (slot.options node.layout.constraints)
      search).1.Seen problem := by
  refine branch_keeps h ?_
  intro s split choice child hmem hnext hs id hid
  rcases takeUp_get s child split choice hid with ⟨hlt, hget⟩ | hlayout
  · rw [hget]
    exact hs id hlt
  · rw [hlayout]
    obtain ⟨layout, hstep, rfl⟩ := Node.next_eq_ok_iff.mp hnext
    exact hnode.step hslot hpass (Slot.mem_options_iff.mp hmem).2 hstep

/-- A turn that goes on visits the children of the node that it takes up. -/
theorem Seen.turn {cap : Nat} (h : search.Seen problem) (htabled : search.Tabled problem)
    (hturn : Search.turn problem cap search = .goOn after) : after.Seen problem := by
  obtain ⟨entry, rest, hpop, ⟨_, rfl⟩ | ⟨_, _, slot, hslot, hexpand⟩⟩ := turn_goOn_cases hturn
  · exact h
  · obtain ⟨told, htold, rfl, hnone⟩ := expand_cases hexpand
    have hext := htabled.extending hpop hslot htold
    have htold_seen : told.Seen problem := by
      unfold Seen
      rw [htold.tree]
      exact h
    have hnode := htold_seen entry.id hext.id_lt
    rw [hext.get_eq] at hnode
    exact htold_seen.branch hnode hslot (passable_of_next (passable_of_branch hnone))

theorem Reaches.seen {cap : Nat} {told : Array Event}
    (h : Reaches problem cap (initial told) search) : search.Seen problem :=
  (h.keeps (P := fun s => s.Tabled problem ∧ s.Seen problem)
    ⟨tabled_initial problem told, seen_initial problem told⟩
    fun _ _ hs hturn => ⟨hs.1.turn hturn, hs.2.turn hs.1 hturn⟩).2

/-! ## The greediest child -/

theorem prefer_cases (seen : Option (Node × Nat)) (child : Node) (choice : Nat) :
    prefer seen child choice = some (child, choice) ∨
      (prefer seen child choice = seen ∧ seen ≠ none) := by
  unfold prefer
  split
  · exact Or.inl rfl
  · split
    · exact Or.inl rfl
    · exact Or.inr ⟨rfl, by simp⟩

/-- What is found by going through options is what was seen before, or one of the children. -/
theorem foldlM_prefer_eq_ok {seen found : Option (Node × Nat)}
    (h : options.foldlM (fun seen option =>
      (node.next limit option.1 boundary).map (prefer seen · option.2)) seen = .ok found) :
    (∀ option ∈ options, ∃ child, node.next limit option.1 boundary = .ok child) ∧
      ((found = seen ∧ (seen ≠ none ∨ options = [])) ∨
        ∃ option ∈ options, ∃ child, node.next limit option.1 boundary = .ok child ∧
          found = some (child, option.2)) := by
  induction options generalizing seen with
  | nil =>
    cases h
    exact ⟨fun _ hmem => (nomatch hmem), Or.inl ⟨rfl, Or.inr rfl⟩⟩
  | cons first options ih =>
    rw [List.foldlM_cons] at h
    cases hfirst : node.next limit first.1 boundary with
    | error fault =>
      rw [hfirst] at h
      cases h
    | ok child =>
      rw [hfirst] at h
      obtain ⟨hall, hfound⟩ := ih h
      refine ⟨?_, ?_⟩
      · intro option hmem
        rcases List.mem_cons.mp hmem with rfl | hrest
        · exact ⟨child, hfirst⟩
        · exact hall option hrest
      · rcases hfound with ⟨rfl, _⟩ | ⟨option, hmem, child', hnext, heq⟩
        · rcases prefer_cases seen child first.2 with heq | ⟨heq, hseen⟩
          · exact Or.inr ⟨first, List.mem_cons_self, child, hfirst, heq⟩
          · exact Or.inl ⟨heq, Or.inl hseen⟩
        · exact Or.inr ⟨option, List.mem_cons_of_mem _ hmem, child', hnext, heq⟩

theorem foldlM_prefer_eq_error {seen : Option (Node × Nat)} {fault : Fault}
    (h : options.foldlM (fun seen option =>
      (node.next limit option.1 boundary).map (prefer seen · option.2)) seen = .error fault) :
    ∃ option ∈ options, node.next limit option.1 boundary = .error fault := by
  induction options generalizing seen with
  | nil => cases h
  | cons first options ih =>
    rw [List.foldlM_cons] at h
    cases hfirst : node.next limit first.1 boundary with
    | error fault' =>
      rw [hfirst] at h
      cases h
      exact ⟨first, List.mem_cons_self, hfirst⟩
    | ok child =>
      rw [hfirst] at h
      obtain ⟨option, hmem, hfault⟩ := ih h
      exact ⟨option, List.mem_cons_of_mem _ hmem, hfault⟩

/-! ## Completing a layout -/

/-- A visited layout has come to a slot with a split at fault. -/
def AtFault (problem : Problem) (fault : Fault) : Prop :=
  ∃ layout slot split, Visited problem layout ∧ problem.slots[layout.depth]? = some slot ∧
    split ∈ slot.splits ∧ layout.step problem.limit split slot.boundary = .error fault

theorem atFault_of_next {fault : Fault} {option : Split × Nat} (hnode : Visited problem node.layout)
    (hslot : problem.slots[node.layout.depth]? = some slot)
    (hoption : option ∈ slot.options node.layout.constraints)
    (hfault : node.next problem.limit option.1 slot.boundary = .error fault) :
    AtFault problem fault :=
  ⟨node.layout, slot, option.1, hnode, hslot, (Slot.mem_options_iff.mp hoption).2.1,
    Node.next_eq_error_iff.mp hfault⟩

/-- A node that a completion can go on from. -/
structure Completable (problem : Problem) (id : NodeId) (search : Search) : Prop where
  grown : search.Grown problem
  seen : search.Seen problem
  id_lt : id < search.tree.size

theorem Completable.sameTables (h : search.Completable problem id)
    (hsame : after.SameTables search) : after.Completable problem id := by
  obtain ⟨hgrown, hseen, hlt⟩ := h
  refine ⟨hgrown.congr hsame.tree hsame.choices, ?_, ?_⟩
  · unfold Seen
    rwa [hsame.tree]
  · rwa [hsame.tree]

theorem Completable.store (h : search.Completable problem id)
    (hslot : problem.slots[(search.tree.get id).layout.depth]? = some slot)
    (hpass : slot.Passable problem.limit (search.tree.get id).layout)
    (hoption : (split, choice) ∈ slot.options (search.tree.get id).layout.constraints)
    (hnext : (search.tree.get id).next problem.limit split slot.boundary = .ok child) :
    (search.store child choice).1.Completable problem search.tree.size := by
  have hsize := store_size search child choice
  refine ⟨h.grown.store h.id_lt hslot hoption hnext, ?_,
    Nat.lt_of_lt_of_eq (Nat.lt_succ_self _) hsize.symm⟩
  intro i hi
  by_cases hlt : i < search.tree.size
  · rw [store_get_of_lt search child choice hlt]
    exact h.seen i hlt
  · obtain rfl : i = search.tree.size := by omega
    rw [store_get_size]
    obtain ⟨layout, hstep, rfl⟩ := Node.next_eq_ok_iff.mp hnext
    exact (h.seen id h.id_lt).step hslot hpass (Slot.mem_options_iff.mp hoption).2 hstep

theorem getElem?_of_drop_eq {slots : Array Slot} {depth : Nat} {ahead : List Slot}
    (h : slots.toList.drop depth = slot :: ahead) : slots[depth]? = some slot := by
  rw [← Array.getElem?_toList, ← List.head?_drop, h, List.head?_cons]

/-- What is stored has the first of the slots ahead behind it. -/
theorem drop_depth_store {slots : Array Slot} {ahead : List Slot}
    (h : slots.toList.drop (search.tree.get id).layout.depth = slot :: ahead)
    (hnext : (search.tree.get id).next limit split boundary = .ok child) (choice : Nat) :
    slots.toList.drop
      ((search.store child choice).1.tree.get search.tree.size).layout.depth = ahead := by
  rw [store_get_size]
  rw [Node.depth_of_next hnext, ← List.tail_drop, h, List.tail_cons]

/-- A completion ends with all boundaries filled, or with a fault that some split is to blame
for. -/
theorem complete_cases (hoffers : ∀ slot ∈ problem.slots.toList, slot.splits ≠ [])
    {ahead : List Slot} (h : search.Completable problem id)
    (hahead : problem.slots.toList.drop (search.tree.get id).layout.depth = ahead) :
    (∃ after last, complete problem.limit ahead id search = (after, .ok last) ∧
      after.Completable problem last ∧
      (after.tree.get last).layout.depth = problem.slots.size) ∨
    ∃ after fault, complete problem.limit ahead id search = (after, .error fault) ∧
      AtFault problem fault := by
  induction ahead generalizing search id with
  | nil =>
    refine Or.inl ⟨search, id, rfl, h, ?_⟩
    have hle := h.grown.depth_le h.id_lt
    rw [List.drop_eq_nil_iff, Array.length_toList] at hahead
    exact Nat.le_antisymm hle hahead
  | cons slot ahead ih =>
    have hslot := getElem?_of_drop_eq hahead
    have hsame := sameTables_logConflict search slot (search.tree.get id).layout
    have hvisited := h.seen id h.id_lt
    unfold complete
    dsimp only
    split
    · rename_i fault hgreedy
      obtain ⟨option, hoption, hfault⟩ := foldlM_prefer_eq_error hgreedy
      exact Or.inr ⟨_, fault, rfl, atFault_of_next hvisited hslot hoption hfault⟩
    · rename_i hgreedy
      obtain ⟨_, ⟨_, hnone | hnil⟩ | ⟨_, _, _, _, hsome⟩⟩ := foldlM_prefer_eq_ok hgreedy
      · exact absurd rfl hnone
      · have hmem : slot ∈ problem.slots.toList :=
          List.mem_of_mem_drop (hahead ▸ List.mem_cons_self)
        exact absurd hnil (Slot.options_ne_nil _ (hoffers slot hmem))
      · cases hsome
    · rename_i child choice hgreedy
      obtain ⟨hall, ⟨hnone, _⟩ | ⟨⟨split, _⟩, hoption, _, hnext, heq⟩⟩ :=
        foldlM_prefer_eq_ok hgreedy
      · cases hnone
      · cases heq
        have h' := h.sameTables hsame
        rw [← hsame.tree] at hslot hoption hall hnext hahead
        have hstored := h'.store hslot (passable_of_next hall) hoption hnext
        exact ih hstored (drop_depth_store hahead hnext _)

theorem truncate_cases (hoffers : ∀ slot ∈ problem.slots.toList, slot.splits ≠ [])
    (h : search.Completable problem id) :
    (∃ after last,
      truncate problem search id (search.tree.get id).layout.depth =
        (after, .ok (last, .truncated)) ∧
      after.Completable problem last ∧
      (after.tree.get last).layout.depth = problem.slots.size) ∨
    ∃ after fault,
      truncate problem search id (search.tree.get id).layout.depth = (after, .error fault) ∧
      AtFault problem fault := by
  have hlogged := h.sameTables (sameTables_log search (.capReached search.expanded
    (search.tree.get id).layout.depth problem.slots.size))
  have hahead : problem.slots.toList.drop
      ((search.log (.capReached search.expanded (search.tree.get id).layout.depth
        problem.slots.size)).tree.get id).layout.depth =
      problem.slots.toList.drop (search.tree.get id).layout.depth := rfl
  unfold truncate
  rcases complete_cases hoffers hlogged hahead with
    ⟨after, last, hcomplete, hafter⟩ | ⟨after, fault, hcomplete, hfault⟩
  · dsimp only
    rw [hcomplete]
    exact Or.inl ⟨after, last, rfl, hafter⟩
  · dsimp only
    rw [hcomplete]
    exact Or.inr ⟨after, fault, rfl, hfault⟩

theorem ending_of_truncate {id last : NodeId} {depth : Nat} {ending : Ending}
    (h : (after, .ok (last, ending)) = truncate problem search id depth) : ending = .truncated := by
  have houtcome := congrArg Prod.snd h
  unfold truncate at houtcome
  dsimp only at houtcome
  generalize (complete problem.limit _ id _).2 = outcome at houtcome
  cases outcome with
  | error fault => cases houtcome
  | ok last =>
    cases houtcome
    rfl

end Search

end LineBreak
