-- A tree of layouts is a faithful history. It is built up by calls, each of
-- which extends a stored node or fails. A stored node never changes, so what
-- is read back for it is the chain of calls that led to it: their nodes, their
-- splits, their costs and their layouts.
import LineBreak.Proofs.Growth
import Mathlib

namespace LineBreak

namespace Tree

/-! ## Building a tree by calls -/

/-- The wish to extend the node `id` by a split at a boundary, under a limit. -/
structure Call where
  id : NodeId
  limit : Limit
  split : Split
  boundary : Boundary

/-- The tree after a call, and the id of the node stored or the fault. -/
def answer (tree : Tree) (call : Call) : Tree × Except Fault NodeId :=
  match tree.next call.id call.limit call.split call.boundary with
  | .error fault => (tree, .error fault)
  | .ok (after, id) => (after, .ok id)

/-- The calls, each on a node that was stored by then, lead from the start alone to the tree. -/
inductive Built : List Call → Tree → Prop
  | initial : Built [] Tree.initial
  | call {calls : List Call} {tree : Tree} (built : Built calls tree) (call : Call)
      (stored : call.id < tree.size) : Built (calls ++ [call]) (tree.answer call).1

/-- The call is one of the calls, and the node `id` is what it stored. -/
def Made (calls : List Call) (id : NodeId) (call : Call) : Prop :=
  ∃ before after tree, calls = before ++ call :: after ∧ Built before tree ∧
    (tree.answer call).2 = .ok id

variable {calls : List Call} {tree : Tree} {id : NodeId} {call : Call}

theorem Made.snoc (h : Made calls id call) (last : Call) : Made (calls ++ [last]) id call := by
  obtain ⟨before, after, earlier, rfl, hbuilt, hstored⟩ := h
  exact ⟨before, after ++ [last], earlier, by simp, hbuilt, hstored⟩

/-- A call is at fault where its step is, and then nothing changes. Otherwise one node is added
behind the others. -/
theorem answer_cases (tree : Tree) (call : Call) :
    (∃ fault, (tree.get call.id).layout.step call.limit call.split call.boundary = .error fault ∧
      tree.answer call = (tree, .error fault)) ∨
    ∃ layout, (tree.get call.id).layout.step call.limit call.split call.boundary = .ok layout ∧
      tree.answer call =
        ((tree.store ⟨none, (tree.get call.id).id, layout⟩).1, .ok tree.size) := by
  unfold answer Tree.next Node.next
  cases (tree.get call.id).layout.step call.limit call.split call.boundary with
  | error fault => exact .inl ⟨fault, rfl, rfl⟩
  | ok layout => exact .inr ⟨layout, rfl, rfl⟩

theorem eq_of_answer_eq_error {fault : Fault} (h : (tree.answer call).2 = .error fault) :
    (tree.answer call).1 = tree := by
  rcases answer_cases tree call with ⟨_, _, heq⟩ | ⟨_, _, heq⟩
  · rw [heq]
  · rw [heq] at h
    cases h

theorem push_of_answer_eq_ok (h : (tree.answer call).2 = .ok id) :
    id = tree.size ∧ ∃ node, (tree.answer call).1.nodes = tree.nodes.push node := by
  rcases answer_cases tree call with ⟨_, _, heq⟩ | ⟨_, _, heq⟩
  · rw [heq] at h
    cases h
  · rw [heq] at h ⊢
    exact ⟨(Except.ok.inj h).symm, _, rfl⟩

/-! ## Every node but the start stems from a call -/

/-- The call made the node `id` of an earlier node. -/
structure Stems (calls : List Call) (tree : Tree) (id : NodeId) (call : Call) : Prop where
  made : Made calls id call
  id_lt : call.id < id
  parent_eq : (tree.get id).parent = some call.id
  step_eq : (tree.get call.id).layout.step call.limit call.split call.boundary =
    .ok (tree.get id).layout

structure Linked (calls : List Call) (tree : Tree) : Prop where
  size_pos : 0 < tree.size
  start : tree.get NodeId.start = ⟨some NodeId.start, none, Layout.start⟩
  id_eq : ∀ id < tree.size, (tree.get id).id = some id
  stems : ∀ id < tree.size, id ≠ NodeId.start → ∃ call, Stems calls tree id call

theorem linked_initial : Linked [] Tree.initial where
  size_pos := Nat.zero_lt_one
  start := rfl
  id_eq id h := by
    obtain rfl : id = 0 := Nat.lt_one_iff.mp h
    rfl
  stems id h hid := absurd (Nat.lt_one_iff.mp h) hid

/-- A node still stems from its call when another is added behind it. -/
theorem Stems.store (h : Stems calls tree id call) (hid : id < tree.size) (node : Node)
    (last : Call) : Stems (calls ++ [last]) (tree.store node).1 id call := by
  have hget := get_store_of_lt node hid
  have hget' := get_store_of_lt node (Nat.lt_trans h.id_lt hid)
  refine ⟨h.made.snoc last, h.id_lt, ?_, ?_⟩
  · rw [hget]
    exact h.parent_eq
  · rw [hget, hget']
    exact h.step_eq

/-- A call that succeeds adds its node behind the others. -/
theorem Linked.store (h : Linked calls tree) (hid : call.id < tree.size) {layout : Layout}
    (hmade : Made (calls ++ [call]) tree.size call)
    (hstep : (tree.get call.id).layout.step call.limit call.split call.boundary = .ok layout) :
    Linked (calls ++ [call]) (tree.store ⟨none, (tree.get call.id).id, layout⟩).1 := by
  generalize hnode : (⟨none, (tree.get call.id).id, layout⟩ : Node) = node
  have hold := fun (id : NodeId) (hlt : id < tree.size) => get_store_of_lt node hlt
  have hnew := get_store_size tree node
  constructor
  · rw [size_store]
    exact Nat.succ_pos _
  · rw [hold NodeId.start h.size_pos]
    exact h.start
  · intro id hlt
    rw [size_store] at hlt
    rcases Nat.lt_succ_iff_lt_or_eq.mp hlt with hlt | rfl
    · rw [hold id hlt]
      exact h.id_eq id hlt
    · rw [hnew]
  · intro id hlt hne
    rw [size_store] at hlt
    rcases Nat.lt_succ_iff_lt_or_eq.mp hlt with hlt | rfl
    · obtain ⟨earlier, hstems⟩ := h.stems id hlt hne
      exact ⟨earlier, hstems.store hlt node call⟩
    · refine ⟨call, hmade, hid, ?_, ?_⟩
      · rw [hnew, ← hnode]
        exact h.id_eq call.id hid
      · rw [hnew, hold call.id hid, ← hnode]
        exact hstep

theorem Linked.answer (h : Linked calls tree) (hbuilt : Built calls tree)
    (hid : call.id < tree.size) : Linked (calls ++ [call]) (tree.answer call).1 := by
  rcases answer_cases tree call with ⟨fault, _, heq⟩ | ⟨layout, hstep, heq⟩
  · rw [heq]
    refine ⟨h.size_pos, h.start, h.id_eq, ?_⟩
    intro id hlt hne
    obtain ⟨earlier, hstems⟩ := h.stems id hlt hne
    exact ⟨earlier, { hstems with made := hstems.made.snoc call }⟩
  · have hmade : Made (calls ++ [call]) tree.size call :=
      ⟨calls, [], tree, rfl, hbuilt, congrArg Prod.snd heq⟩
    rw [heq]
    exact h.store hid hmade hstep

theorem Built.linked (h : Built calls tree) : Linked calls tree := by
  induction h with
  | initial => exact linked_initial
  | call built call stored ih => exact ih.answer built stored

/-- What holds of the start and passes from a node to those that stem from it holds of every
stored node. -/
theorem Linked.induction {P : NodeId → Prop} (h : Linked calls tree) (hstart : P NodeId.start)
    (hchild : ∀ id call, Stems calls tree id call → P call.id → P id) (hid : id < tree.size) :
    P id := by
  induction id using Nat.strongRecOn with
  | ind id ih =>
    by_cases hne : id = NodeId.start
    · rw [hne]
      exact hstart
    · obtain ⟨call, hstems⟩ := h.stems id hid hne
      exact hchild id call hstems (ih call.id hstems.id_lt (Nat.lt_trans hstems.id_lt hid))

/-! ## One node further -/

namespace Stems

theorem layout_eq (h : Stems calls tree id call) : (tree.get id).layout =
    (tree.get call.id).layout.extend call.limit call.split call.boundary :=
  (Layout.step_eq_ok_iff.mp h.step_eq).2.2

theorem depth_eq (h : Stems calls tree id call) :
    (tree.get id).layout.depth = (tree.get call.id).layout.depth + 1 := by
  rw [h.layout_eq]
  rfl

theorem path_eq (h : Stems calls tree id call) : tree.path id = tree.path call.id ++ [id] :=
  path_of_parent h.parent_eq h.depth_eq

theorem ancestors_eq (h : Stems calls tree id call) : tree.ancestors id = tree.path call.id :=
  List.append_cancel_right h.path_eq

theorem mem_ancestors (h : Stems calls tree id call) {ancestor : NodeId} :
    ancestor ∈ tree.ancestors id ↔ ancestor ∈ tree.ancestors call.id ∨ ancestor = call.id := by
  rw [h.ancestors_eq]
  simp [path]

theorem last_eq (h : Stems calls tree id call) : (tree.get id).layout.last =
    some (call.split.withCost
      ((tree.get call.id).layout.charge call.limit call.split call.boundary)) := by
  rw [h.layout_eq]
  rfl

theorem unwind_succ (h : Stems calls tree id call) (count : Nat) :
    tree.unwind (count + 1) id = call.split.withCost
      ((tree.get call.id).layout.charge call.limit call.split call.boundary) ::
        tree.unwind count call.id := by
  rw [unwind, h.last_eq, h.parent_eq]

theorem history_eq (h : Stems calls tree id call) :
    tree.history id = tree.history call.id ++ [call.split.withCost
      ((tree.get call.id).layout.charge call.limit call.split call.boundary)] := by
  unfold history
  rw [h.depth_eq, h.unwind_succ, List.reverse_cons]

end Stems

namespace Linked

theorem path_start (h : Linked calls tree) : tree.path NodeId.start = [NodeId.start] := by
  apply path_of_depth_zero
  rw [h.start]
  rfl

theorem ancestors_start (h : Linked calls tree) : tree.ancestors NodeId.start = [] :=
  List.append_cancel_right h.path_start

theorem history_start (h : Linked calls tree) : tree.history NodeId.start = [] := by
  unfold history
  rw [h.start]
  rfl

end Linked

/-! ## The ancestors -/

/-- The ancestors of a node lead from the start to its parent. -/
structure Descends (tree : Tree) (id : NodeId) : Prop where
  /-- There is one ancestor for each boundary filled. -/
  length_ancestors : (tree.ancestors id).length = (tree.get id).layout.depth
  /-- There are no more of them, however far one climbs. -/
  climb_eq : ∀ count, (tree.get id).layout.depth ≤ count →
    tree.climb count id = (tree.ancestors id).reverse
  /-- The ancestors, and then the node itself, begin with the start. -/
  head_path : (tree.path id).head? = some NodeId.start
  increasing : (tree.path id).Pairwise (· < ·)
  /-- Each of them is the parent of the next. -/
  parents : (tree.path id).IsChain fun parent child => (tree.get child).parent = some parent

theorem Linked.descends_start (h : Linked calls tree) : Descends tree NodeId.start := by
  constructor
  · rw [h.ancestors_start, h.start]
    rfl
  · intro count _
    rw [h.ancestors_start]
    cases count with
    | zero => rfl
    | succ count => simp [climb, h.start]
  · rw [h.path_start]
    rfl
  · rw [h.path_start]
    exact List.pairwise_singleton _ _
  · rw [h.path_start]
    exact List.IsChain.singleton _

theorem Descends.child (h : Descends tree call.id) (hstems : Stems calls tree id call) :
    Descends tree id := by
  have hdepth := hstems.depth_eq
  have hincreasing := List.pairwise_append.mp h.increasing
  constructor
  · rw [hstems.ancestors_eq, hdepth, ← h.length_ancestors]
    simp [path]
  · intro count hcount
    cases count with
    | zero => omega
    | succ count =>
      rw [climb, hstems.parent_eq, hstems.ancestors_eq]
      simp only [path, List.reverse_append, List.reverse_singleton, List.singleton_append]
      rw [h.climb_eq count (by omega)]
  · rw [hstems.path_eq, List.head?_append, h.head_path]
    rfl
  · rw [hstems.path_eq]
    refine List.pairwise_append.mpr ⟨h.increasing, List.pairwise_singleton _ _, ?_⟩
    intro ancestor hancestor other hother
    obtain rfl := List.mem_singleton.mp hother
    rw [← hstems.ancestors_eq] at hancestor
    rcases hstems.mem_ancestors.mp hancestor with hearlier | rfl
    · exact Nat.lt_trans (hincreasing.2.2 ancestor hearlier _ List.mem_cons_self) hstems.id_lt
    · exact hstems.id_lt
  · rw [hstems.path_eq]
    refine List.isChain_append.mpr ⟨h.parents, List.IsChain.singleton _, ?_⟩
    intro parent hparent child hchild
    obtain rfl : call.id = parent := by simpa [path] using hparent
    obtain rfl : id = child := by simpa using hchild
    exact hstems.parent_eq

/-! ## The splits and their costs -/

/-- The splits read back for a node are those taken on the way to it. -/
structure Recounts (tree : Tree) (id : NodeId) : Prop where
  length_history : (tree.history id).length = (tree.get id).layout.depth
  /-- There are no more of them, however far one goes back. -/
  unwind_eq : ∀ count, (tree.get id).layout.depth ≤ count →
    tree.unwind count id = (tree.history id).reverse
  /-- They are the last splits of the nodes on the path. -/
  along_path : tree.history id = (tree.path id).filterMap fun step => (tree.get step).layout.last
  history_prefix : ∀ ancestor ∈ tree.ancestors id, tree.history ancestor <+: tree.history id
  /-- The node costs what they cost with their lines, up to the greatest cost. -/
  cost_eq : (tree.get id).layout.cost.val =
    min 18446744073709551615 ((tree.history id).map (·.cost.val)).sum

theorem Linked.recounts_start (h : Linked calls tree) : Recounts tree NodeId.start := by
  constructor
  · rw [h.history_start, h.start]
    rfl
  · intro count _
    rw [h.history_start]
    cases count with
    | zero => rfl
    | succ count => simp [unwind, h.start, Layout.start]
  · rw [h.history_start, h.path_start, List.filterMap_cons, h.start]
    rfl
  · rw [h.ancestors_start]
    exact fun _ hmem => nomatch hmem
  · rw [h.history_start, h.start]
    rfl

theorem Recounts.child (h : Recounts tree call.id) (hstems : Stems calls tree id call) :
    Recounts tree id := by
  constructor
  · rw [hstems.history_eq, hstems.depth_eq, List.length_append, h.length_history]
    rfl
  · intro count hcount
    rw [hstems.depth_eq] at hcount
    cases count with
    | zero => omega
    | succ count =>
      rw [hstems.unwind_succ, h.unwind_eq count (by omega), hstems.history_eq]
      simp
  · rw [hstems.history_eq, hstems.path_eq, List.filterMap_append, h.along_path]
    simp [hstems.last_eq]
  · intro ancestor hancestor
    rw [hstems.history_eq]
    rcases hstems.mem_ancestors.mp hancestor with hearlier | rfl
    · exact (h.history_prefix ancestor hearlier).trans (List.prefix_append _ _)
    · exact List.prefix_append _ _
  · have hcost := h.cost_eq
    rw [hstems.history_eq, hstems.layout_eq]
    simp only [Layout.extend, Capped.val_add, List.map_append, List.sum_append, List.map_cons,
      List.map_nil, List.sum_singleton, Split.withCost]
    omega

/-! ## The calls again -/

/-- The calls that stored the nodes of the path extend its ancestors, one after the other.
Repeated from the start alone, without storing anything, they give the layout of the node. -/
def Replays (calls : List Call) (tree : Tree) (id : NodeId) : Prop :=
  ∃ chain, List.Forall₂ (Made calls) (tree.path id).tail chain ∧
    chain.map (·.id) = tree.ancestors id ∧
    chain.foldlM (fun node call => node.next call.limit call.split call.boundary) Node.start =
      .ok ⟨none, none, (tree.get id).layout⟩

theorem Linked.replays_start (h : Linked calls tree) : Replays calls tree NodeId.start := by
  refine ⟨[], ?_, ?_, ?_⟩
  · rw [h.path_start]
    exact List.Forall₂.nil
  · rw [h.ancestors_start]
    rfl
  · rw [h.start]
    rfl

theorem Replays.child (h : Replays calls tree call.id) (hstems : Stems calls tree id call) :
    Replays calls tree id := by
  obtain ⟨chain, hmade, hids, hfold⟩ := h
  refine ⟨chain ++ [call], ?_, ?_, ?_⟩
  · rw [hstems.path_eq, List.tail_append_of_ne_nil (tree.path_ne_nil call.id)]
    exact List.rel_append hmade (.cons hstems.made .nil)
  · rw [List.map_append, hids, hstems.ancestors_eq]
    rfl
  · have hnext : Node.next ⟨none, none, (tree.get call.id).layout⟩ call.limit call.split
        call.boundary = .ok ⟨none, none, (tree.get id).layout⟩ :=
      Node.next_eq_ok_iff.mpr ⟨_, hstems.step_eq, rfl⟩
    rw [List.foldlM_append, hfold]
    show (Node.next _ call.limit call.split call.boundary >>= pure) = _
    rw [hnext]
    rfl

/-- However a tree was built, a call that fails leaves it as it is, and one that succeeds adds one
node behind the others and changes none. Every stored node knows its id. Its ancestors lead in
order from the start to its parent, the splits read back for it are those taken on the way, and
they cost together what it costs. The calls along its path, repeated from the start, give its
layout again. -/
theorem a_tree_is_a_faithful_history (h : Built calls tree) :
    (∀ call,
      (∀ fault, (tree.answer call).2 = .error fault → (tree.answer call).1 = tree) ∧
      (∀ id, (tree.answer call).2 = .ok id →
        id = tree.size ∧ ∃ node, (tree.answer call).1.nodes = tree.nodes.push node)) ∧
    ∀ id < tree.size, (tree.get id).id = some id ∧ Descends tree id ∧ Recounts tree id ∧
      Replays calls tree id := by
  have hlinked := h.linked
  refine ⟨fun _ => ⟨fun _ => eq_of_answer_eq_error, fun _ => push_of_answer_eq_ok⟩, ?_⟩
  intro id hid
  refine ⟨hlinked.id_eq id hid, ?_, ?_, ?_⟩
  · exact hlinked.induction hlinked.descends_start (fun _ _ hstems ih => ih.child hstems) hid
  · exact hlinked.induction hlinked.recounts_start (fun _ _ hstems ih => ih.child hstems) hid
  · exact hlinked.induction hlinked.replays_start (fun _ _ hstems ih => ih.child hstems) hid

/-- Of three calls the second fails, for its tokens are out of order. The third goes on from the
first, under another limit. -/
def threeCalls : List Call :=
  [⟨0, ⟨20, 50, by decide⟩, .nothing 1, ⟨⟨"", 0⟩, ⟨"ab", 2⟩⟩⟩,
    ⟨1, ⟨20, 50, by decide⟩, .newline 2, ⟨⟨"ab", 2⟩, ⟨"c", 1⟩⟩⟩,
    ⟨1, ⟨4, 9, by decide⟩, .space 3, ⟨⟨"ab", 2⟩, ⟨"c", 3⟩⟩⟩]

/-- The space makes a line of four columns, so it costs 13 more under the other limit. -/
theorem the_third_call_goes_on_from_the_first :
    ∃ tree, Built threeCalls tree ∧ tree.size = 3 ∧ tree.ancestors 2 = [0, 1] ∧
      Descends tree 2 ∧ Replays threeCalls tree 2 ∧
      (tree.get 2).layout.cost.val = 1 + (3 + (9 + 4)) := by
  have hbuilt : Built threeCalls _ :=
    .call (.call (.call .initial _ (by decide)) _ (by decide)) _ (by decide)
  obtain ⟨_, hdescends, hrecounts, hreplays⟩ :=
    (a_tree_is_a_faithful_history hbuilt).2 2 (by decide)
  exact ⟨_, hbuilt, rfl, rfl, hdescends, hreplays, hrecounts.cost_eq.trans (by rfl)⟩

end Tree

end LineBreak
