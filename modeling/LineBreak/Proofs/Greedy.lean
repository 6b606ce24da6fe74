-- How a search that has reached its cap completes the layout at hand: at each
-- boundary ahead it takes the option that leads to the lowest cost, of equals
-- the one with the lowest indentation, and of equals the first on offer. The
-- splits up to the layout at hand stay as they are.
import LineBreak.Proofs.Expansions

namespace LineBreak

/-! ## The best of the options -/

/-- What an option is judged by: the cost and the indentation that it leads to, and then its place
in the offer. -/
def Layout.rank (layout : Layout) (limit : Limit) (boundary : Boundary) (option : Split × Nat) :
    Nat ×ₗ Nat ×ₗ Nat :=
  toLex ((layout.extend limit option.1 boundary).cost.val,
    toLex ((layout.extend limit option.1 boundary).indentation.val, option.2))

/-- The option is one that the layout may take, and none of the others ranks lower. -/
def Slot.Greediest (slot : Slot) (limit : Limit) (layout : Layout) (option : Split × Nat) : Prop :=
  option ∈ slot.options layout.constraints ∧
    ∀ other ∈ slot.options layout.constraints,
      layout.rank limit slot.boundary option ≤ layout.rank limit slot.boundary other

/-- The options stand in the order of the offer. -/
theorem Slot.pairwise_options (slot : Slot) (constraints : Constraints) :
    (slot.options constraints).Pairwise (·.2 < ·.2) := by
  have hnumbered : slot.numbered.Pairwise (·.2 < ·.2) := by
    have hplaces : (slot.numbered.map Prod.snd).Pairwise (· < ·) := by
      rw [numbered, List.zipIdx_map_snd]
      exact List.pairwise_lt_range' 1
    exact List.pairwise_map.mp hplaces
  unfold options
  split
  · exact hnumbered
  · exact hnumbered.filter _

/-- Of two layouts that are equally deep, one comes first if it costs less, or as much with less
indentation. -/
theorem Layout.compare_priority_eq_gt_iff {layout other : Layout} (h : layout.depth = other.depth) :
    compare layout.priority other.priority = .gt ↔
      layout.cost.val < other.cost.val ∨ other.cost.val = layout.cost.val ∧
        layout.indentation.val < other.indentation.val := by
  rw [Priority.compare_eq_gt_iff]
  show layout.cost < other.cost ∨ layout.cost = other.cost ∧ (other.depth < layout.depth ∨
    layout.depth = other.depth ∧ layout.indentation < other.indentation) ↔ _
  simp [h, Capped.ext_iff, Capped.lt_iff, eq_comm]

namespace Search

variable {problem : Problem} {cap : Nat} {search after last : Search} {limit : Limit}
  {node child : Node} {boundary : Boundary} {done options : List (Split × Nat)} {slot : Slot}
  {seen found : Option (Node × Nat)} {id : NodeId} {choice : Nat} {split : Split}

/-- What was seen is what becomes of the node by the best of the options gone through. -/
def Leads (limit : Limit) (node : Node) (boundary : Boundary) (done : List (Split × Nat)) :
    Option (Node × Nat) → Prop
  | none => done = []
  | some (child, choice) => ∃ split, (split, choice) ∈ done ∧
      node.next limit split boundary = .ok child ∧
      ∀ other ∈ done, node.layout.rank limit boundary (split, choice) ≤
        node.layout.rank limit boundary other

theorem rank_of_next (h : node.next limit split boundary = .ok child) (choice : Nat) :
    node.layout.rank limit boundary (split, choice) =
      toLex (child.layout.cost.val, toLex (child.layout.indentation.val, choice)) := by
  obtain ⟨after, hstep, rfl⟩ := Node.next_eq_ok_iff.mp h
  obtain ⟨_, _, rfl⟩ := Layout.step_eq_ok_iff.mp hstep
  rfl

/-- A later option is preferred to an earlier one if and only if it ranks lower. -/
theorem compare_priority_eq_gt_iff_rank_lt {best : Node} {first : Split} {place : Nat}
    (hnext : node.next limit split boundary = .ok child)
    (hbest : node.next limit first boundary = .ok best) (hlater : place < choice) :
    compare child.layout.priority best.layout.priority = .gt ↔
      node.layout.rank limit boundary (split, choice) <
        node.layout.rank limit boundary (first, place) := by
  have hdepth : child.layout.depth = best.layout.depth :=
    (Node.depth_of_next hnext).trans (Node.depth_of_next hbest).symm
  rw [Layout.compare_priority_eq_gt_iff hdepth, rank_of_next hnext, rank_of_next hbest,
    Prod.Lex.toLex_lt_toLex, Prod.Lex.toLex_lt_toLex]
  dsimp only
  omega

/-- One more option is preferred only if it ranks lower, so of equals the first is kept. -/
theorem Leads.prefer (h : Leads limit node boundary done seen)
    (hlater : ∀ other ∈ done, other.2 < choice)
    (hnext : node.next limit split boundary = .ok child) :
    Leads limit node boundary (done ++ [(split, choice)]) (prefer seen child choice) := by
  cases seen with
  | none =>
    have hnil : done = [] := h
    simp [Search.prefer, Leads, hnil, hnext]
  | some best =>
    obtain ⟨best, place⟩ := best
    obtain ⟨first, hmem, hbest, hleast⟩ := h
    have hiff := compare_priority_eq_gt_iff_rank_lt hnext hbest (hlater _ hmem)
    unfold Search.prefer
    dsimp only
    split
    · rename_i hgt
      refine ⟨split, by simp, hnext, ?_⟩
      intro other hother
      rcases List.mem_append.mp hother with hold | hnew
      · exact le_trans (le_of_lt (hiff.mp hgt)) (hleast other hold)
      · rw [List.mem_singleton.mp hnew]
    · rename_i hgt
      refine ⟨first, List.mem_append_left _ hmem, hbest, ?_⟩
      intro other hother
      rcases List.mem_append.mp hother with hold | hnew
      · exact hleast other hold
      · rw [List.mem_singleton.mp hnew]
        exact le_of_not_gt (mt hiff.mpr hgt)

/-- Going through options in the order of the offer finds the best of them. -/
theorem Leads.foldlM (h : Leads limit node boundary done seen)
    (hsorted : (done ++ options).Pairwise (·.2 < ·.2))
    (hfold : options.foldlM (fun seen option =>
      (node.next limit option.1 boundary).map (Search.prefer seen · option.2)) seen = .ok found) :
    Leads limit node boundary (done ++ options) found := by
  induction options generalizing done seen with
  | nil =>
    cases hfold
    rwa [List.append_nil]
  | cons option options ih =>
    obtain ⟨split, choice⟩ := option
    rw [List.foldlM_cons] at hfold
    cases hnext : node.next limit split boundary with
    | error fault =>
      rw [hnext] at hfold
      cases hfold
    | ok child =>
      rw [hnext] at hfold
      have hlater : ∀ other ∈ done, other.2 < choice := fun other hother =>
        (List.pairwise_append.mp hsorted).2.2 other hother _ List.mem_cons_self
      rw [List.append_cons] at hsorted ⊢
      exact ih (h.prefer hlater hnext) hsorted hfold

theorem greediest_eq_ok
    (h : greediest limit node slot.boundary (slot.options node.layout.constraints) =
      .ok (some (child, choice))) :
    ∃ split, node.next limit split slot.boundary = .ok child ∧
      slot.Passable limit node.layout ∧ slot.Greediest limit node.layout (split, choice) := by
  have hpass := passable_of_next (foldlM_prefer_eq_ok h).1
  have hnone : Leads limit node slot.boundary [] none := rfl
  obtain ⟨split, hmem, hnext, hleast⟩ := hnone.foldlM (slot.pairwise_options _) h
  exact ⟨split, hnext, hpass, hmem, hleast⟩

end Search

/-! ## Greedy paths -/

/-- A path on which every split is the best that its slot has to offer there, no option being at
fault. The places are those of the splits in the offers of the slots. -/
inductive GreedyPath (limit : Limit) : Layout → List Slot → List Nat → List Split → Layout → Prop
  | nil (layout : Layout) : GreedyPath limit layout [] [] [] layout
  | cons {before middle after : Layout} {slot : Slot} {slots : List Slot} {choice : Nat}
      {places : List Nat} {split : Split} {splits : List Split}
      (passable : slot.Passable limit before)
      (greediest : slot.Greediest limit before (split, choice))
      (step : before.step limit split slot.boundary = .ok middle)
      (rest : GreedyPath limit middle slots places splits after) :
      GreedyPath limit before (slot :: slots) (choice :: places) (split :: splits) after

/-- Where a greedy path has come to a slot, it takes the best of the options there. -/
theorem GreedyPath.exists_step {limit : Limit} {before after : Layout} {slots : List Slot}
    {places : List Nat} {splits : List Split}
    (h : GreedyPath limit before slots places splits after) {i : Nat} {slot : Slot}
    (hslot : slots[i]? = some slot) :
    ∃ here split choice, splits[i]? = some split ∧ places[i]? = some choice ∧
      before.follow limit (((Slot.boundaries slots).zip splits).take i) = .ok here ∧
      slot.Passable limit here ∧ slot.Greediest limit here (split, choice) := by
  induction h generalizing i with
  | nil => cases hslot
  | @cons before _ _ _ _ choice _ split _ passable greediest step _ ih =>
    cases i with
    | zero =>
      cases hslot
      exact ⟨before, split, choice, rfl, rfl, rfl, passable, greediest⟩
    | succ i =>
      obtain ⟨here, split', choice', hsplit, hplace, hfollow, hrest⟩ := ih hslot
      exact ⟨here, split', choice', hsplit, hplace, (Layout.follow_cons step _).trans hfollow,
        hrest⟩

/-- From the slot numbered `first` on, each split is the best that its slot has to offer to the
layout that the splits before it lead to. -/
def GreedyFrom (limit : Limit) (slots : List Slot) (places : List Nat) (splits : List Split)
    (first : Nat) : Prop :=
  ∀ d slot, first ≤ d → slots[d]? = some slot → ∃ here split choice,
    splits[d]? = some split ∧ places[d]? = some choice ∧
    Layout.start.follow limit (((Slot.boundaries slots).zip splits).take d) = .ok here ∧
    slot.Passable limit here ∧ slot.Greediest limit here (split, choice)

theorem Layout.follow_append {limit : Limit} {before middle : Layout}
    {path : List (Boundary × Split)} (h : before.follow limit path = .ok middle)
    (path' : List (Boundary × Split)) :
    before.follow limit (path ++ path') = middle.follow limit path' := by
  unfold follow at h ⊢
  rw [List.foldlM_append, h]
  rfl

/-- A path that goes on greedily is greedy from there on. -/
theorem GreedyPath.greedyFrom {limit : Limit} {middle after : Layout} {slots slots' : List Slot}
    {places places' : List Nat} {splits splits' : List Split}
    (h : GreedyPath limit middle slots' places' splits' after)
    (hpath : Path limit Layout.start slots splits middle) (hplaces : places.length = slots.length) :
    GreedyFrom limit (slots ++ slots') (places ++ places') (splits ++ splits') slots.length := by
  intro d slot hle hslot
  obtain ⟨i, rfl⟩ := Nat.exists_eq_add_of_le hle
  rw [List.getElem?_append_right hle, Nat.add_sub_cancel_left] at hslot
  obtain ⟨here, split, choice, hsplit, hplace, hfollow, hbest⟩ := h.exists_step hslot
  have hlength := hpath.length_eq
  have hzip : (Slot.boundaries (slots ++ slots')).zip (splits ++ splits') =
      (Slot.boundaries slots).zip splits ++ (Slot.boundaries slots').zip splits' := by
    unfold Slot.boundaries
    rw [List.map_append, List.zip_append]
    rw [List.length_map, hlength]
  have hfilled : ((Slot.boundaries slots).zip splits).length = slots.length := by
    simp [Slot.boundaries, hlength]
  refine ⟨here, split, choice, ?_, ?_, ?_, hbest⟩
  · rw [hlength, List.getElem?_append_right (Nat.le_add_right _ _), Nat.add_sub_cancel_left]
    exact hsplit
  · rw [← hplaces, List.getElem?_append_right (Nat.le_add_right _ _), Nat.add_sub_cancel_left]
    exact hplace
  · rw [hzip, ← hfilled, List.take_length_add_append, Layout.follow_append hpath.follow_eq]
    exact hfollow

/-! ## Reading back what a completion has stored -/

namespace Search

variable {problem : Problem} {cap : Nat} {told : Array Event} {search after last : Search}
  {limit : Limit} {child : Node} {boundary : Boundary} {slot : Slot} {id final : NodeId}
  {choice : Nat} {split : Split}

/-- The places, in the offers of the slots, of the splits on the way to a node. -/
def places (search : Search) (id : NodeId) : List Nat :=
  (search.tree.path id).tail.filterMap (search.choices[·]?)

namespace Grown

/-- What holds of the start and passes on to every node from its parent holds of all nodes. -/
theorem induction {P : NodeId → Prop} (h : search.Grown problem) (hstart : P NodeId.start)
    (hchild : ∀ parent id, id < search.tree.size → parent < id →
      (search.tree.get id).parent = some parent → search.Extends problem parent id →
      P parent → P id)
    (hid : id < search.tree.size) : P id := by
  induction id using Nat.strongRecOn with
  | ind id ih =>
    by_cases hne : id = NodeId.start
    · rwa [hne]
    · obtain ⟨parent, hlt, hparent, hextends⟩ := h.grown id hid hne
      exact hchild parent id hid hlt hparent hextends (ih parent hlt (Nat.lt_trans hlt hid))

theorem path_start (h : search.Grown problem) :
    search.tree.path NodeId.start = [NodeId.start] := by
  apply Tree.path_of_depth_zero
  rw [h.start]
  rfl

theorem lt_of_mem_path (h : search.Grown problem) (hid : id < search.tree.size) {i : NodeId}
    (hi : i ∈ search.tree.path id) : i < search.tree.size := by
  revert hi
  refine h.induction (P := fun id => i ∈ search.tree.path id → i < search.tree.size) ?_ ?_ hid
  · rw [h.path_start]
    intro hi
    rw [List.mem_singleton.mp hi]
    exact h.size_pos
  · intro parent id hid _ hparent hextends ih
    rw [Tree.path_of_parent hparent (depth_of_extends hextends)]
    intro hi
    rcases List.mem_append.mp hi with hi | hi
    · exact ih hi
    · rwa [List.mem_singleton.mp hi]

theorem length_places (h : search.Grown problem) (hid : id < search.tree.size) :
    (search.places id).length = (search.tree.get id).layout.depth := by
  refine h.induction (P := fun id => (search.places id).length =
    (search.tree.get id).layout.depth) ?_ ?_ hid
  · unfold places
    rw [h.path_start, h.start]
    rfl
  · intro parent id _ _ hparent hextends ih
    have hdepth := depth_of_extends hextends
    obtain ⟨_, _, choice, _, hchoice, _⟩ := hextends
    unfold places at ih ⊢
    rw [Tree.path_of_parent hparent hdepth,
      List.tail_append_of_ne_nil (search.tree.path_ne_nil parent), List.filterMap_append,
      List.length_append, ih, List.filterMap_cons, hchoice, hdepth]
    rfl

/-- One more node leaves the way to an earlier one as it was. -/
theorem path_store (h : search.Grown problem) (node : Node) (choice : Nat)
    (hid : id < search.tree.size) :
    (search.store node choice).1.tree.path id = search.tree.path id := by
  refine h.induction (P := fun id =>
    (search.store node choice).1.tree.path id = search.tree.path id) ?_ ?_ hid
  · rw [h.path_start]
    apply Tree.path_of_depth_zero
    have hget : (search.store node choice).1.tree.get NodeId.start = _ :=
      store_get_of_lt search node choice h.size_pos
    rw [hget, h.start]
    rfl
  · intro parent id hid hlt hparent hextends ih
    have hget := store_get_of_lt search node choice hid
    have hget' := store_get_of_lt search node choice (Nat.lt_trans hlt hid)
    have hdepth := depth_of_extends hextends
    rw [Tree.path_of_parent hparent hdepth, ← ih]
    apply Tree.path_of_parent
    · rw [hget, hparent]
    · rw [hget, hget', hdepth]

/-- What is read off the way to a node grows by one where the node is extended. -/
theorem filterMap_path_store {α : Type} {f f' : NodeId → Option α} {a : α}
    (h : search.Grown problem) (hid : id < search.tree.size)
    (hnext : (search.tree.get id).next limit split boundary = .ok child)
    (hold : ∀ i < search.tree.size, f' i = f i) (hnew : f' search.tree.size = some a) :
    ((search.store child choice).1.tree.path search.tree.size).tail.filterMap f' =
      (search.tree.path id).tail.filterMap f ++ [a] := by
  have hget := store_get_size search child choice
  have hparent : child.parent = some id := by
    obtain ⟨_, _, rfl⟩ := Node.next_eq_ok_iff.mp hnext
    exact h.id_eq id hid
  have hpath : (search.store child choice).1.tree.path search.tree.size =
      search.tree.path id ++ [search.tree.size] := by
    rw [← h.path_store child choice hid]
    apply Tree.path_of_parent
    · rw [hget]
      exact hparent
    · rw [hget, store_get_of_lt search child choice hid, ← Node.depth_of_next hnext]
  have hcongr : (search.tree.path id).tail.filterMap f' =
      (search.tree.path id).tail.filterMap f := by
    apply List.filterMap_congr
    intro i hi
    exact hold i (h.lt_of_mem_path hid (List.mem_of_mem_tail hi))
  rw [hpath, List.tail_append_of_ne_nil (search.tree.path_ne_nil id), List.filterMap_append,
    hcongr, List.filterMap_cons, hnew]
  rfl

theorem places_store (h : search.Grown problem) (hid : id < search.tree.size)
    (hnext : (search.tree.get id).next limit split boundary = .ok child) :
    (search.store child choice).1.places search.tree.size = search.places id ++ [choice] := by
  apply h.filterMap_path_store hid hnext
  · intro i hi
    exact store_choices_of_lt h child choice hi
  · exact store_choices_size h child choice

theorem splits_store (h : search.Grown problem) (hid : id < search.tree.size)
    (hslot : problem.slots[(search.tree.get id).layout.depth]? = some slot)
    (hsplit : slot.splits[choice]? = some split)
    (hnext : (search.tree.get id).next limit split boundary = .ok child) (ending : Ending) :
    ((search.store child choice).1.solution problem search.tree.size ending).splits =
      (search.solution problem id ending).splits ++ [split] := by
  apply h.filterMap_path_store hid hnext
  · intro i hi
    unfold choice?
    rw [store_get_of_lt search child choice hi, store_choices_of_lt h child choice hi]
  · unfold choice?
    rw [store_get_size, store_choices_size h child choice]
    dsimp only
    rw [Node.depth_of_next hnext, Nat.add_sub_cancel, hslot]
    exact hsplit

end Grown

theorem SameTables.places_eq (h : after.SameTables search) (id : NodeId) :
    after.places id = search.places id := by
  unfold places
  rw [h.tree, h.choices]

theorem SameTables.splits_eq (h : after.SameTables search) (problem : Problem) (id : NodeId)
    (ending : Ending) :
    (after.solution problem id ending).splits = (search.solution problem id ending).splits := by
  unfold solution choice?
  rw [h.tree, h.choices]

/-- A completion goes on greedily from the layout that it starts with. -/
theorem greedyPath_of_complete {ahead : List Slot} (h : search.Completable problem id)
    (hahead : problem.slots.toList.drop (search.tree.get id).layout.depth = ahead)
    (hcomplete : complete problem.limit ahead id search = (after, .ok final)) :
    ∃ places splits,
      GreedyPath problem.limit (search.tree.get id).layout ahead places splits
        (after.tree.get final).layout ∧
      after.places final = search.places id ++ places ∧
      ∀ ending, (after.solution problem final ending).splits =
        (search.solution problem id ending).splits ++ splits := by
  induction ahead generalizing search id with
  | nil =>
    cases hcomplete
    exact ⟨[], [], .nil _, (List.append_nil _).symm, fun _ => (List.append_nil _).symm⟩
  | cons slot ahead ih =>
    have hslot := getElem?_of_drop_eq hahead
    have hsame := sameTables_logConflict search slot (search.tree.get id).layout
    unfold complete at hcomplete
    dsimp only at hcomplete
    split at hcomplete
    · cases hcomplete
    · cases hcomplete
    · rename_i child choice hgreedy
      obtain ⟨split, hnext, hpass, hbest⟩ := greediest_eq_ok hgreedy
      obtain ⟨middle, hstep, hchild⟩ := Node.next_eq_ok_iff.mp hnext
      have hsplit := (Slot.mem_options_iff.mp hbest.1).1
      -- Only the tables matter from here on, and what is told leaves them alone.
      generalize search.logConflict slot (search.tree.get id).layout = told at hsame hcomplete
      have htold := h.sameTables hsame
      rw [← hsame.tree] at hslot hpass hbest hnext hahead hstep ⊢
      have hstored := htold.store hslot hpass hbest.1 hnext
      have hget : ((told.store child choice).1.tree.get told.tree.size).layout = child.layout := by
        rw [store_get_size]
      obtain ⟨places, splits, hrest, hplaces, hsplits⟩ :=
        ih hstored (drop_depth_store hahead hnext choice) hcomplete
      rw [hget, hchild] at hrest
      refine ⟨choice :: places, split :: splits, .cons hpass hbest hstep hrest, ?_, ?_⟩
      · rw [hplaces, htold.grown.places_store htold.id_lt hnext, ← List.append_cons,
          hsame.places_eq]
      · intro ending
        rw [hsplits, htold.grown.splits_store htold.id_lt hslot hsplit hnext,
          ← List.append_cons, hsame.splits_eq]

/-! ## The cut -/

/-- The search has reached its cap when it takes up the node `id`, which has boundaries left to
fill. It ends with the node `final`, as `after` has it. -/
structure Cut (problem : Problem) (cap : Nat) (search after : Search) (id final : NodeId) :
    Prop where
  popped : ∃ entry rest, search.frontier.pop? = some (entry, rest) ∧ entry.id = id
  current : search.isSuperseded id = false
  unfilled : (search.tree.get id).layout.depth < problem.slots.size
  reached : cap ≤ search.expanded
  turn_eq : turn problem cap search = .stop after (.ok (final, .truncated))

theorem turn_truncated_cases
    (h : turn problem cap search = .stop after (.ok (final, .truncated))) :
    ∃ entry rest, search.frontier.pop? = some (entry, rest) ∧
      search.Cut problem cap after entry.id final ∧
      (after, .ok (final, .truncated)) = truncate problem { search with frontier := rest } entry.id
        (search.tree.get entry.id).layout.depth := by
  rcases turn_stop_cases h with ⟨_, houtcome⟩ | ⟨entry, rest, hpop, hsuper, hcases⟩
  · cases houtcome
  · rcases hcases with ⟨_, _, houtcome⟩ | ⟨slot, hslot, ⟨hcap, heq⟩ | ⟨_, _, houtcome, _⟩⟩
    · cases houtcome
    · obtain ⟨hdepth, _⟩ := Array.getElem?_eq_some_iff.mp hslot
      exact ⟨entry, rest, hpop, ⟨⟨entry, rest, hpop, rfl⟩, hsuper, hdepth, hcap, h⟩, heq⟩
    · cases houtcome

theorem complete_of_truncate {depth : Nat} {ending : Ending}
    (h : (after, .ok (final, ending)) = truncate problem search id depth) :
    complete problem.limit (problem.slots.toList.drop depth) id
      (search.log (.capReached search.expanded depth problem.slots.size)) = (after, .ok final) := by
  unfold truncate at h
  dsimp only at h
  generalize complete problem.limit _ id _ = result at h ⊢
  obtain ⟨search', outcome⟩ := result
  cases outcome with
  | error fault => cases h
  | ok last =>
    cases h
    rfl

theorem Cut.id_lt (h : search.Cut problem cap after id final) (htabled : search.Tabled problem) :
    id < search.tree.size := by
  obtain ⟨entry, rest, hpop, rfl⟩ := h.popped
  exact (htabled.frontier entry ((Heap.mem_iff_of_pop? hpop).mpr (.inl rfl))).1

/-- A search that is cut goes on greedily from the node at hand. -/
theorem Cut.greedyPath (h : last.Cut problem cap after id final)
    (hreaches : Reaches problem cap (initial told) last) :
    ∃ places splits,
      GreedyPath problem.limit (last.tree.get id).layout
        (problem.slots.toList.drop (last.tree.get id).layout.depth) places splits
        (after.tree.get final).layout ∧
      after.places final = last.places id ++ places ∧
      ∀ ending, (after.solution problem final ending).splits =
        (last.solution problem id ending).splits ++ splits := by
  have htabled := hreaches.tabled
  have hlt := h.id_lt htabled
  obtain ⟨entry', rest', hpop', rfl⟩ := h.popped
  obtain ⟨entry, rest, hpop, _, heq⟩ := turn_truncated_cases h.turn_eq
  cases hpop'.symm.trans hpop
  have hpopped : { last with frontier := rest' }.Completable problem entry'.id :=
    ⟨(htabled.pop hpop').toGrown, hreaches.seen, hlt⟩
  have hgreedy := greedyPath_of_complete (hpopped.sameTables (sameTables_log _ _)) rfl
    (complete_of_truncate heq)
  exact hgreedy

/-- Where nothing may be expanded, no turn goes on: the start is taken up at once. -/
theorem Reaches.eq_initial (h : Reaches problem 0 (initial told) last) : last = initial told := by
  rcases h.cases_head with heq | ⟨next, hturn, _⟩
  · exact heq.symm
  · obtain ⟨entry, rest, hpop, ⟨hsuper, _⟩ | ⟨_, hlt, _⟩⟩ := turn_goOn_cases hturn
    · cases hsuper
    · exact absurd hlt (Nat.not_lt_zero _)

theorem eq_start_of_pop? {entry : Entry} {rest : Heap Entry}
    (h : (initial told).frontier.pop? = some (entry, rest)) : entry.id = NodeId.start := by
  have hentry := (Heap.mem_iff_of_pop? h).mpr (.inl rfl)
  rw [List.mem_singleton.mp hentry]

theorem Cut.eq_start (h : (initial told).Cut problem cap after id final) :
    id = NodeId.start := by
  obtain ⟨entry, rest, hpop, rfl⟩ := h.popped
  exact eq_start_of_pop? hpop

end Search

section

variable {slots : List Slot} {settings : Settings} {solution : Solution}

/-- A solution is that of the last turn. -/
theorem exists_last_turn (h : search slots settings = .ok solution) :
    ∃ (last after : Search) (final : NodeId),
      Search.Reaches ⟨slots.toArray, solution.limit⟩ settings.maxExpansions
        (Search.initial (Report.preamble slots settings solution.limit)) last ∧
      Search.turn ⟨slots.toArray, solution.limit⟩ settings.maxExpansions last =
        .stop after (.ok (final, solution.ending)) ∧
      solution = after.solution ⟨slots.toArray, solution.limit⟩ final solution.ending := by
  obtain ⟨_, after, final, hrun, _, _, hsolution⟩ := exists_run_of_search_eq_ok h
  obtain ⟨last, hreaches, hstop⟩ := Search.run_stops ⟨slots.toArray, solution.limit⟩
    settings.maxExpansions (Search.initial (Report.preamble slots settings solution.limit))
  rw [hrun] at hstop
  exact ⟨last, after, final, hreaches, hstop, hsolution⟩

theorem exists_cut_of_truncated (h : search slots settings = .ok solution)
    (hending : solution.ending = .truncated) :
    ∃ (last after : Search) (id final : NodeId),
      Search.Reaches ⟨slots.toArray, solution.limit⟩ settings.maxExpansions
        (Search.initial (Report.preamble slots settings solution.limit)) last ∧
      last.Cut ⟨slots.toArray, solution.limit⟩ settings.maxExpansions after id final ∧
      solution = after.solution ⟨slots.toArray, solution.limit⟩ final .truncated := by
  obtain ⟨last, after, final, hreaches, hstop, hsolution⟩ := exists_last_turn h
  rw [hending] at hstop hsolution
  obtain ⟨entry, _, _, hcut, _⟩ := Search.turn_truncated_cases hstop
  exact ⟨last, after, entry.id, final, hreaches, hcut, hsolution⟩

/-- Without expansions only an empty list of slots is laid out without a cut. -/
theorem truncated_of_no_expansions (h : search slots settings = .ok solution)
    (hnone : settings.maxExpansions = 0) (hslots : slots ≠ []) :
    solution.ending = .truncated := by
  obtain ⟨last, after, final, hreaches, hstop, _⟩ := exists_last_turn h
  rw [hnone] at hreaches
  obtain rfl := hreaches.eq_initial
  rcases Search.turn_stop_cases hstop with ⟨_, houtcome⟩ | ⟨entry, rest, hpop, _, hcases⟩
  · cases houtcome
  · rcases hcases with ⟨hdone, _⟩ | ⟨_, _, ⟨_, heq⟩ | ⟨_, _, houtcome, _⟩⟩
    · rw [Search.eq_start_of_pop? hpop] at hdone
      have hempty : slots.toArray[0]? = none := hdone
      exact absurd (by simpa using hempty) hslots
    · exact Search.ending_of_truncate heq
    · cases houtcome

end

/-- A search that is cut keeps the splits of the layout that it was cut at, and from there on it
takes at each boundary, of the options that the layout reached so far may take, the one that leads
to the lowest cost, then to the lowest indentation, and then the first on offer. A search that may
expand nothing goes on like that from the start. -/
theorem a_cut_search_is_completed_greedily (slots : List Slot) (settings : Settings)
    (solution : Solution) (h : search slots settings = .ok solution) :
    (solution.ending = .truncated → ∃ (last after : Search) (id final : NodeId),
      Search.Reaches ⟨slots.toArray, solution.limit⟩ settings.maxExpansions
        (Search.initial (Report.preamble slots settings solution.limit)) last ∧
      last.Cut ⟨slots.toArray, solution.limit⟩ settings.maxExpansions after id final ∧
      solution = after.solution ⟨slots.toArray, solution.limit⟩ final .truncated ∧
      solution.splits.take (last.tree.get id).layout.depth =
        (last.solution ⟨slots.toArray, solution.limit⟩ id .truncated).splits ∧
      GreedyFrom solution.limit slots (after.places final) solution.splits
        (last.tree.get id).layout.depth) ∧
    (settings.maxExpansions = 0 → slots ≠ [] → solution.ending = .truncated ∧
      ∃ places after,
        GreedyPath solution.limit Layout.start slots places solution.splits after) := by
  constructor
  · intro hending
    obtain ⟨last, after, id, final, hreaches, hcut, hsolution⟩ := exists_cut_of_truncated h hending
    obtain ⟨places, splits, hgreedy, hplaces, hsplits⟩ := hcut.greedyPath hreaches
    have hgrown := hreaches.tabled.toGrown
    have hid := hcut.id_lt hreaches.tabled
    have hpath := hgrown.path hid .truncated
    have hunfilled : (last.tree.get id).layout.depth < slots.length := hcut.unfilled
    have htake : (slots.take (last.tree.get id).layout.depth).length =
        (last.tree.get id).layout.depth := by
      rw [List.length_take]
      omega
    have hsolved : solution.splits =
        (last.solution ⟨slots.toArray, solution.limit⟩ id .truncated).splits ++ splits :=
      (congrArg Solution.splits hsolution).trans (hsplits .truncated)
    refine ⟨last, after, id, final, hreaches, hcut, hsolution, ?_, ?_⟩
    · rw [hsolved]
      exact List.take_left' (hpath.length_eq.symm.trans htake)
    · have hfrom := hgreedy.greedyFrom hpath ((hgrown.length_places hid).trans htake.symm)
      rw [List.take_append_drop, ← hplaces, ← hsolved, htake] at hfrom
      exact hfrom
  · intro hnone hslots
    have hending := truncated_of_no_expansions h hnone hslots
    refine ⟨hending, ?_⟩
    obtain ⟨last, after, id, final, hreaches, hcut, hsolution⟩ := exists_cut_of_truncated h hending
    obtain ⟨places, splits, hgreedy, _, hsplits⟩ := hcut.greedyPath hreaches
    rw [hnone] at hreaches
    obtain rfl := hreaches.eq_initial
    obtain rfl := hcut.eq_start
    have hsolved : solution.splits = splits :=
      (congrArg Solution.splits hsolution).trans (hsplits .truncated)
    rw [hsolved]
    exact ⟨places, _, hgreedy⟩

/-- The split that costs less keeps what follows on its line, where a line break would be free. -/
def shortSighted : List Slot :=
  [⟨⟨⟨"", 0⟩, ⟨"if", 2⟩⟩, [.nothing 1, (Split.nothing 0).withConstraint (.unbroken 2)]⟩,
    ⟨⟨⟨"if", 2⟩, ⟨"x", 3⟩⟩, [.newline 0, .space 4]⟩]

/-- One search is cut after an expansion, the other at once. -/
theorem both_searches_are_completed_greedily :
    (∃ solution, search keptTogether ⟨80, 10000, 1⟩ = .ok solution ∧
      solution.ending = .truncated ∧
      ∃ depth < 2, ∃ places,
        GreedyFrom solution.limit keptTogether places solution.splits depth) ∧
    ∃ solution, search shortSighted ⟨80, 10000, 0⟩ = .ok solution ∧
      solution.ending = .truncated ∧
      ∃ places after,
        GreedyPath solution.limit Layout.start shortSighted places solution.splits after := by
  constructor
  · obtain ⟨solution, hsearch, hending⟩ := exists_solution_of_ending
      (show (search keptTogether ⟨80, 10000, 1⟩).toOption.map _ = _ by cbv)
    obtain ⟨last, after, id, final, _, hcut, _, _, hfrom⟩ :=
      (a_cut_search_is_completed_greedily _ _ solution hsearch).1 hending
    exact ⟨solution, hsearch, hending, _, hcut.unfilled, _, hfrom⟩
  · obtain ⟨limit, hlimit⟩ := Slot.exists_effectiveLimit shortSighted
      (show 0 < (⟨80, 10000, 0⟩ : Settings).maxWidth.val by decide)
    cases hsearch : search shortSighted ⟨80, 10000, 0⟩ with
    | error fault =>
      obtain ⟨_, slot, _, hslot, hexpired, _⟩ := expired_of_search_eq_error ⟨rfl, hlimit⟩ hsearch
      have hnone : ∀ slot ∈ shortSighted, ¬ slot.OffersExpired := by decide
      exact absurd hexpired (hnone slot (List.mem_of_getElem? hslot))
    | ok solution =>
      obtain ⟨hending, hgreedy⟩ :=
        (a_cut_search_is_completed_greedily _ _ solution hsearch).2 rfl (by simp [shortSighted])
      exact ⟨solution, rfl, hending, hgreedy⟩

end LineBreak
