-- How the tree of a search grows. Every node but the start extends an earlier
-- one by a split that was on offer and allowed there, and the place of that
-- split is noted. So the splits read back for a node are a path to its layout.
import LineBreak.Proofs.Path

namespace LineBreak

/-! ## Reading a path back, one node up -/

namespace Tree

theorem path_ne_nil (tree : Tree) (id : NodeId) : tree.path id ≠ [] := by
  simp [path]

theorem path_of_depth_zero {tree : Tree} {id : NodeId} (h : (tree.get id).layout.depth = 0) :
    tree.path id = [id] := by
  simp [path, ancestors, h, climb]

/-- The path to a node is the path to its parent and then the node. -/
theorem path_of_parent {tree : Tree} {id parent : NodeId}
    (hparent : (tree.get id).parent = some parent)
    (hdepth : (tree.get id).layout.depth = (tree.get parent).layout.depth + 1) :
    tree.path id = tree.path parent ++ [id] := by
  unfold path ancestors
  rw [hdepth, climb, hparent]
  simp

end Tree

namespace Node

variable {node child : Node} {limit : Limit} {split : Split} {boundary : Boundary}

theorem next_eq_ok_iff : node.next limit split boundary = .ok child ↔
    ∃ after, node.layout.step limit split boundary = .ok after ∧
      child = ⟨none, node.id, after⟩ := by
  unfold next
  cases node.layout.step limit split boundary with
  | error fault => simp [Except.map]
  | ok after => simp [Except.map, eq_comm]

theorem next_eq_error_iff {fault : Fault} : node.next limit split boundary = .error fault ↔
    node.layout.step limit split boundary = .error fault := by
  unfold next
  cases node.layout.step limit split boundary with
  | error fault => simp [Except.map]
  | ok after => simp [Except.map]

/-- What becomes of a node has one more boundary filled. -/
theorem depth_of_next (h : node.next limit split boundary = .ok child) :
    child.layout.depth = node.layout.depth + 1 := by
  obtain ⟨after, hstep, rfl⟩ := next_eq_ok_iff.mp h
  obtain ⟨_, _, rfl⟩ := Layout.step_eq_ok_iff.mp hstep
  rfl

theorem depth_pos_of_next (h : node.next limit split boundary = .ok child) :
    0 < child.layout.depth := by
  rw [depth_of_next h]
  exact Nat.succ_pos _

end Node

namespace Search

/-! ## Storing a node -/

theorem store_snd (search : Search) (node : Node) (choice : Nat) :
    (search.store node choice).2 = search.tree.size := rfl

theorem store_size (search : Search) (node : Node) (choice : Nat) :
    (search.store node choice).1.tree.size = search.tree.size + 1 :=
  Tree.size_store search.tree node

theorem store_get_of_lt {id : NodeId} (search : Search) (node : Node) (choice : Nat)
    (h : id < search.tree.size) :
    (search.store node choice).1.tree.get id = search.tree.get id :=
  Tree.get_store_of_lt node h

theorem store_get_size (search : Search) (node : Node) (choice : Nat) :
    (search.store node choice).1.tree.get search.tree.size =
      { node with id := some search.tree.size } :=
  Tree.get_store_size search.tree node

/-! ## The invariant -/

/-- The node `id` extends the node `parent` by the split noted for `id`, one that the slot of
`parent` offers and allows. -/
def Extends (problem : Problem) (search : Search) (parent id : NodeId) : Prop :=
  ∃ slot split choice, problem.slots[(search.tree.get parent).layout.depth]? = some slot ∧
    search.choices[id]? = some choice ∧ slot.splits[choice]? = some split ∧
    slot.Allows (search.tree.get parent).layout.constraints split ∧
    (search.tree.get parent).layout.step problem.limit split slot.boundary =
      .ok (search.tree.get id).layout

structure Grown (problem : Problem) (search : Search) : Prop where
  size_pos : 0 < search.tree.size
  choices_size : search.choices.size = search.tree.size
  start : search.tree.get NodeId.start = ⟨some NodeId.start, none, Layout.start⟩
  id_eq : ∀ id < search.tree.size, (search.tree.get id).id = some id
  grown : ∀ id < search.tree.size, id ≠ NodeId.start →
    ∃ parent < id, (search.tree.get id).parent = some parent ∧ search.Extends problem parent id

theorem grown_initial (problem : Problem) (told : Array Event) :
    (initial told).Grown problem where
  size_pos := Nat.zero_lt_one
  choices_size := rfl
  start := rfl
  id_eq id h := by
    obtain rfl : id = 0 := Nat.lt_one_iff.mp h
    rfl
  grown id h hid := absurd (Nat.lt_one_iff.mp h) hid

namespace Grown

variable {problem : Problem} {search after : Search} {id : NodeId} {slot : Slot}
  {split : Split} {choice : Nat} {child : Node}

/-- The invariant is about the tree and the choices alone. -/
theorem congr (h : search.Grown problem) (htree : after.tree = search.tree)
    (hchoices : after.choices = search.choices) : after.Grown problem := by
  obtain ⟨hpos, hsize, hstart, hid, hgrown⟩ := h
  constructor
  · rwa [htree]
  · rwa [htree, hchoices]
  · rwa [htree]
  · rwa [htree]
  · unfold Extends at hgrown ⊢
    rwa [htree, hchoices]

theorem store_choices_of_lt (h : search.Grown problem) (node : Node) (choice : Nat)
    (hid : id < search.tree.size) :
    (search.store node choice).1.choices[id]? = search.choices[id]? := by
  show (search.choices.push choice)[id]? = _
  rw [Array.getElem?_push, h.choices_size, if_neg (Nat.ne_of_lt hid)]

theorem store_choices_size (h : search.Grown problem) (node : Node) (choice : Nat) :
    (search.store node choice).1.choices[search.tree.size]? = some choice := by
  show (search.choices.push choice)[search.tree.size]? = some choice
  rw [← h.choices_size]
  simp

/-- What was stored before stays as it was. -/
theorem extends_store_of_lt {parent : NodeId} (h : search.Grown problem) (node : Node)
    (choice : Nat) (hparent : parent < id) (hid : id < search.tree.size)
    (hextends : search.Extends problem parent id) :
    (search.store node choice).1.Extends problem parent id := by
  have hget := store_get_of_lt search node choice hid
  have hget' := store_get_of_lt search node choice (Nat.lt_trans hparent hid)
  unfold Extends
  rw [hget, hget', h.store_choices_of_lt node choice hid]
  exact hextends

theorem extends_store_size (h : search.Grown problem) (hid : id < search.tree.size)
    (hslot : problem.slots[(search.tree.get id).layout.depth]? = some slot)
    (hoption : (split, choice) ∈ slot.options (search.tree.get id).layout.constraints)
    (hnext : (search.tree.get id).next problem.limit split slot.boundary = .ok child) :
    (search.store child choice).1.Extends problem id search.tree.size := by
  obtain ⟨after, hstep, rfl⟩ := Node.next_eq_ok_iff.mp hnext
  obtain ⟨hchoice, hallowed⟩ := Slot.mem_options_iff.mp hoption
  have hget := store_get_of_lt search ⟨none, (search.tree.get id).id, after⟩ choice hid
  have hnew := store_get_size search ⟨none, (search.tree.get id).id, after⟩ choice
  refine ⟨slot, split, choice, ?_, ?_, hchoice, ?_, ?_⟩
  · rw [hget]
    exact hslot
  · exact h.store_choices_size _ choice
  · rw [hget]
    exact hallowed
  · rw [hget, hstep]
    exact congrArg (fun node => Except.ok node.layout) hnew.symm

/-- Storing what becomes of a stored node by one of its options keeps the invariant. -/
theorem store (h : search.Grown problem) (hid : id < search.tree.size)
    (hslot : problem.slots[(search.tree.get id).layout.depth]? = some slot)
    (hoption : (split, choice) ∈ slot.options (search.tree.get id).layout.constraints)
    (hnext : (search.tree.get id).next problem.limit split slot.boundary = .ok child) :
    (search.store child choice).1.Grown problem := by
  have hold := fun (i : NodeId) (hi : i < search.tree.size) =>
    store_get_of_lt search child choice hi
  have hnew := store_get_size search child choice
  have hsize := store_size search child choice
  have hparent : child.parent = some id := by
    obtain ⟨_, _, rfl⟩ := Node.next_eq_ok_iff.mp hnext
    exact h.id_eq id hid
  refine ⟨by omega, ?_, ?_, ?_, ?_⟩
  · show (search.choices.push choice).size = _
    rw [Array.size_push, hsize, h.choices_size]
  · rw [hold NodeId.start h.size_pos]
    exact h.start
  · intro i hi
    by_cases hlt : i < search.tree.size
    · rw [hold i hlt]
      exact h.id_eq i hlt
    · obtain rfl : i = search.tree.size := by omega
      exact congrArg Node.id hnew
  · intro i hi hne
    by_cases hlt : i < search.tree.size
    · obtain ⟨parent, hplt, heq, hextends⟩ := h.grown i hlt hne
      refine ⟨parent, hplt, ?_, h.extends_store_of_lt child choice hplt hlt hextends⟩
      rw [hold i hlt]
      exact heq
    · obtain rfl : i = search.tree.size := by omega
      refine ⟨id, hid, ?_, h.extends_store_size hid hslot hoption hnext⟩
      exact (congrArg Node.parent hnew).trans hparent

/-! ## The path to a node -/

theorem depth_of_extends {parent : NodeId} (h : search.Extends problem parent id) :
    (search.tree.get id).layout.depth = (search.tree.get parent).layout.depth + 1 := by
  obtain ⟨_, _, _, _, _, _, _, hstep⟩ := h
  obtain ⟨_, _, hafter⟩ := Layout.step_eq_ok_iff.mp hstep
  rw [hafter]
  rfl

theorem choice?_of_extends {parent : NodeId} (h : search.Extends problem parent id) :
    ∃ slot split, problem.slots[(search.tree.get parent).layout.depth]? = some slot ∧
      search.choice? problem.slots id = some split ∧
      slot.Allows (search.tree.get parent).layout.constraints split ∧
      (search.tree.get parent).layout.step problem.limit split slot.boundary =
        .ok (search.tree.get id).layout := by
  have hdepth := depth_of_extends h
  obtain ⟨slot, split, choice, hslot, hchoice, hsplit, hallowed, hstep⟩ := h
  refine ⟨slot, split, hslot, ?_, hallowed, hstep⟩
  unfold choice?
  rw [hdepth, Nat.add_sub_cancel, hslot, hchoice]
  exact hsplit

/-- The splits of a solution are a path from the start to the layout it ends with. -/
theorem path (h : search.Grown problem) (hid : id < search.tree.size) (ending : Ending) :
    Path problem.limit Layout.start
      (problem.slots.toList.take (search.tree.get id).layout.depth)
      (search.solution problem id ending).splits (search.tree.get id).layout := by
  induction id using Nat.strongRecOn with
  | ind id ih =>
    by_cases hne : id = NodeId.start
    · subst hne
      have hdepth : (search.tree.get NodeId.start).layout.depth = 0 := by
        rw [h.start]
        rfl
      unfold solution
      simp only [Tree.path_of_depth_zero hdepth, hdepth]
      rw [h.start]
      exact Path.nil Layout.start
    · obtain ⟨parent, hlt, hparent, hextends⟩ := h.grown id hid hne
      have hdepth := depth_of_extends hextends
      obtain ⟨slot, split, hslot, hchoice, hallowed, hstep⟩ := choice?_of_extends hextends
      have hrest := ih parent hlt (Nat.lt_trans hlt hid)
      have hslot' : problem.slots.toList[(search.tree.get parent).layout.depth]? = some slot := by
        rw [Array.getElem?_toList]
        exact hslot
      unfold solution at hrest ⊢
      simp only [Tree.path_of_parent hparent hdepth, hdepth] at hrest ⊢
      rw [List.take_add_one, hslot', List.tail_append_of_ne_nil (search.tree.path_ne_nil parent),
        List.filterMap_append, List.filterMap_cons, hchoice]
      exact hrest.snoc hallowed hstep

theorem depth_le (h : search.Grown problem) (hid : id < search.tree.size) :
    (search.tree.get id).layout.depth ≤ problem.slots.size := by
  have hdepth := (h.path hid .optimal).depth_eq
  rw [List.length_take, Array.length_toList] at hdepth
  have hzero : Layout.start.depth = 0 := rfl
  omega

end Grown

end Search

end LineBreak
