-- A search extends the cheapest layout first. So the costs of the layouts it
-- extends never fall, no two of them have one outlook, and once a layout is
-- extended, no other takes its place.
import LineBreak.Proofs.Expansions
import LineBreak.Proofs.Optimality

namespace LineBreak

/-! ## The layouts extended -/

/-- The depth and the cost of the layout that an event tells to be extended. -/
def Event.extension? : Event → Option (Nat × Cost)
  | expanding depth cost => some (depth, cost)
  | _ => none

/-- The depths and the costs of the layouts extended, in order. -/
def Report.extensions (report : Report) : List (Nat × Cost) :=
  report.events.toList.filterMap Event.extension?

/-- What is told when a node is extended. -/
def Node.extension (node : Node) : Nat × Cost := (node.layout.depth, node.layout.cost)

theorem Node.cost_le_of_next {node child : Node} {limit : Limit} {split : Split}
    {boundary : Boundary} (h : node.next limit split boundary = .ok child) :
    node.layout.cost ≤ child.layout.cost := by
  obtain ⟨after, hstep, rfl⟩ := Node.next_eq_ok_iff.mp h
  obtain ⟨_, _, rfl⟩ := Layout.step_eq_ok_iff.mp hstep
  exact Capped.le_add_right _ _

namespace Search

variable {problem : Problem} {cap : Nat} {search after : Search} {done : List Node} {node : Node}
  {id : NodeId} {slot : Slot} {split : Split} {choice : Nat} {child : Node} {entry : Entry}
  {rest : Heap Entry} {outcome : Except Fault (NodeId × Ending)}

/-- The node that the next turn extends, if it extends one. -/
def extended? (problem : Problem) (cap : Nat) (search : Search) : Option Node :=
  match search.frontier.pop? with
  | none => none
  | some (entry, _) =>
    let node := search.tree.get entry.id
    if search.isSuperseded entry.id ∨ problem.slots.size ≤ node.layout.depth ∨ cap ≤ search.expanded
    then none else some node

/-- The nodes that a run extends, in order. -/
def extended (problem : Problem) (cap : Nat) (search : Search) : List Node :=
  match _h : turn problem cap search with
  | .stop _ _ => (extended? problem cap search).toList
  | .goOn after => (extended? problem cap search).toList ++ extended problem cap after
termination_by (cap - search.expanded, search.frontier.size)
decreasing_by
  rcases turn_goOn _h with ⟨hcap, hexpanded⟩ | ⟨hexpanded, hsize⟩
  · exact Prod.Lex.left _ _ (by omega)
  · rw [hexpanded]
    exact Prod.Lex.right _ hsize

theorem extended_of_goOn (h : turn problem cap search = .goOn after) :
    extended problem cap search =
      (extended? problem cap search).toList ++ extended problem cap after := by
  rw [extended]
  split
  · rename_i heq
    cases heq.symm.trans h
  · rename_i heq
    cases heq.symm.trans h
    rfl

theorem extended_of_stop (h : turn problem cap search = .stop after outcome) :
    extended problem cap search = (extended? problem cap search).toList := by
  rw [extended]
  split
  · rfl
  · rename_i heq
    cases heq.symm.trans h

/-- A run extends the node that its first turn extends. -/
theorem mem_extended (h : extended? problem cap search = some node) :
    node ∈ extended problem cap search := by
  cases hturn : turn problem cap search with
  | stop after outcome => simp [extended_of_stop hturn, h]
  | goOn after => simp [extended_of_goOn hturn, h]

theorem extended?_of_empty (hpop : search.frontier.pop? = none) :
    extended? problem cap search = none := by
  simp [extended?, hpop]

theorem extended?_of_superseded (hpop : search.frontier.pop? = some (entry, rest))
    (hsuper : search.isSuperseded entry.id = true) : extended? problem cap search = none := by
  simp [extended?, hpop, hsuper]

theorem extended?_of_slot (hpop : search.frontier.pop? = some (entry, rest))
    (hsuper : search.isSuperseded entry.id = false)
    (hslot : problem.slots[(search.tree.get entry.id).layout.depth]? = some slot)
    (hcap : search.expanded < cap) :
    extended? problem cap search = some (search.tree.get entry.id) := by
  obtain ⟨hdepth, _⟩ := Array.getElem?_eq_some_iff.mp hslot
  simp [extended?, hpop, hsuper, hdepth, hcap]

theorem extended?_of_complete (hpop : search.frontier.pop? = some (entry, rest))
    (hdone : problem.slots[(search.tree.get entry.id).layout.depth]? = none) :
    extended? problem cap search = none := by
  rw [Array.getElem?_eq_none_iff] at hdone
  simp [extended?, hpop, hdone]

theorem extended?_of_cap (hpop : search.frontier.pop? = some (entry, rest))
    (hcap : cap ≤ search.expanded) : extended? problem cap search = none := by
  simp [extended?, hpop, hcap]

theorem extended?_eq_some (h : extended? problem cap search = some node) :
    ∃ entry rest, search.frontier.pop? = some (entry, rest) ∧
      search.isSuperseded entry.id = false ∧ node = search.tree.get entry.id := by
  unfold extended? at h
  split at h
  · cases h
  · rename_i entry rest hpop
    dsimp only at h
    split at h
    · cases h
    · rename_i hnot
      cases h
      exact ⟨entry, rest, hpop, by simpa using fun hsuper => hnot (.inl hsuper), rfl⟩

/-- The turns to come are those of the whole run. -/
theorem Reaches.run_eq (h : Reaches problem cap search after) :
    run problem cap search = run problem cap after := by
  obtain ⟨last, hlast, hstop⟩ := run_stops problem cap after
  exact run_eq_of_stop (h.trans hlast) hstop

/-! ## What is told of them -/

/-- What a search has told of the layouts extended. -/
def extensions (search : Search) : List (Nat × Cost) :=
  search.events.toList.filterMap Event.extension?

theorem extensions_log (search : Search) (event : Event) :
    (search.log event).extensions = search.extensions ++ event.extension?.toList := by
  unfold extensions log
  rw [Array.toList_push, List.filterMap_append, List.filterMap_cons]
  cases event.extension? <;> rfl

theorem extensions_logConflict (search : Search) (slot : Slot) (layout : Layout) :
    (search.logConflict slot layout).extensions = search.extensions := by
  unfold logConflict
  split
  · rw [extensions_log]
    exact List.append_nil _
  · rfl

theorem extensions_takeUp (search : Search) (child : Node) (split : Split) (choice : Nat) :
    (search.takeUp child split choice).extensions = search.extensions := by
  obtain ⟨cheapest, hnote⟩ := noteMilestone_eq search child.layout split
  rcases takeUp_cases search child split choice with ⟨_, heq⟩ | ⟨_, _, heq⟩ | ⟨_, _, heq⟩
  · rw [heq]
    rfl
  · rw [heq, hnote]
    rfl
  · rw [heq, hnote]
    rfl

theorem extensions_expand (search : Search) (limit : Limit) (node : Node) (slot : Slot) :
    (search.expand limit node slot).1.extensions = search.extensions ++ [node.extension] := by
  unfold expand
  apply branch_keeps (P := fun s => s.extensions = search.extensions ++ [node.extension])
  · rw [extensions_logConflict, extensions_log]
    rfl
  · intro s split choice child _ _ h
    rw [extensions_takeUp]
    exact h

theorem extensions_truncate (problem : Problem) (search : Search) (id : NodeId) (depth : Nat) :
    (truncate problem search id depth).1.extensions = search.extensions := by
  rw [truncate_fst]
  apply complete_keeps (P := fun s => s.extensions = search.extensions)
  · intro s boundary h
    rw [extensions_log, h]
    exact List.append_nil _
  · intro s node choice h
    exact h
  · rw [extensions_log]
    exact List.append_nil _

theorem extensions_of_goOn (h : turn problem cap search = .goOn after) :
    after.extensions =
      search.extensions ++ (extended? problem cap search).toList.map Node.extension := by
  obtain ⟨entry, rest, hpop, ⟨hsuper, rfl⟩ | ⟨hsuper, hcap, slot, hslot, hexpand⟩⟩ :=
    turn_goOn_cases h
  · rw [extended?_of_superseded hpop hsuper]
    exact (List.append_nil _).symm
  · rw [extended?_of_slot hpop hsuper hslot hcap]
    exact (congrArg (·.1.extensions) hexpand).symm.trans (extensions_expand _ _ _ _)

theorem extensions_of_stop (h : turn problem cap search = .stop after outcome) :
    after.extensions =
      search.extensions ++ (extended? problem cap search).toList.map Node.extension := by
  rcases turn_stop_cases h with ⟨hpop, _⟩ | ⟨entry, rest, hpop, hsuper, hcases⟩
  · rw [turn_of_empty cap hpop] at h
    cases h
    rw [extended?_of_empty hpop]
    exact (List.append_nil _).symm
  · rcases hcases with ⟨hdone, rfl, _⟩ | ⟨slot, hslot, ⟨hcap, heq⟩ | ⟨hcap, fault, _, hexpand⟩⟩
    · rw [extended?_of_complete hpop hdone]
      exact (List.append_nil _).symm
    · rw [extended?_of_cap hpop hcap]
      refine ((congrArg (·.1.extensions) heq).trans (extensions_truncate _ _ _ _)).trans ?_
      exact (List.append_nil _).symm
    · rw [extended?_of_slot hpop hsuper hslot hcap]
      exact (congrArg (·.1.extensions) hexpand).symm.trans (extensions_expand _ _ _ _)

/-- A run tells of the nodes that it extends, in order. -/
theorem extensions_run (problem : Problem) (cap : Nat) (search : Search) :
    (run problem cap search).1.extensions =
      search.extensions ++ (extended problem cap search).map Node.extension := by
  fun_induction run problem cap search with
  | case1 search final outcome hturn => rw [extended_of_stop hturn, extensions_of_stop hturn]
  | case2 search next hturn ih =>
    rw [ih, extensions_of_goOn hturn, extended_of_goOn hturn, List.map_append, List.append_assoc]

/-! ## The invariant -/

/-- Nothing but the node is kept for its outlook. The start is in no table, so for its outlook
nothing is. -/
def Settled (search : Search) (node : Node) : Prop :=
  search.best[node.layout.outlook]? = if node.layout.depth = 0 then none else node.id

/-- The nodes are such as a search may have extended, in this order. -/
structure Disciplined (search : Search) (done : List Node) : Prop where
  ascending : done.Pairwise fun first second => first.layout.cost ≤ second.layout.cost
  distinct : done.Pairwise fun first second => first.layout.outlook ≠ second.layout.outlook
  settled : ∀ node ∈ done, search.Settled node

theorem Disciplined.congr (h : search.Disciplined done) (hbest : after.best = search.best) :
    after.Disciplined done where
  ascending := h.ascending
  distinct := h.distinct
  settled := by
    unfold Settled
    rw [hbest]
    exact h.settled

/-- One more node may be extended if it is no cheaper and has an outlook of its own. -/
theorem Disciplined.snoc (h : search.Disciplined done)
    (hcost : ∀ earlier ∈ done, earlier.layout.cost ≤ node.layout.cost)
    (houtlook : ∀ earlier ∈ done, earlier.layout.outlook ≠ node.layout.outlook)
    (hsettled : search.Settled node) : search.Disciplined (done ++ [node]) where
  ascending := List.pairwise_append.mpr
    ⟨h.ascending, List.pairwise_singleton _ _, by simpa using hcost⟩
  distinct := List.pairwise_append.mpr
    ⟨h.distinct, List.pairwise_singleton _ _, by simpa using houtlook⟩
  settled := List.forall_mem_append.mpr ⟨h.settled, List.forall_mem_singleton.mpr hsettled⟩

/-- The last node extended is the dearest. -/
theorem Disciplined.cost_le (h : search.Disciplined (done ++ [node])) :
    ∀ earlier ∈ done ++ [node], earlier.layout.cost ≤ node.layout.cost := by
  have hcost := (List.pairwise_append.mp h.ascending).2.2
  refine List.forall_mem_append.mpr ⟨?_, List.forall_mem_singleton.mpr (Nat.le_refl _)⟩
  intro earlier hearlier
  exact hcost earlier hearlier node List.mem_cons_self

/-- The nodes have been extended, and nothing in the frontier should have been taken up before
them. -/
structure Orderly (problem : Problem) (search : Search) (done : List Node) : Prop extends
    Tabled problem search, Disciplined search done where
  rooted : ∀ (outlook : Outlook) (id : NodeId), search.best[outlook]? = some id → 0 < outlook.depth
  single : (search.frontier.toList.map (·.id)).Nodup
  stored : ∀ node ∈ done, ∃ id < search.tree.size, search.tree.get id = node
  passed : ∀ node ∈ done, ∀ entry ∈ search.frontier.toList,
    node.id ≠ some entry.id ∧ node.layout.cost ≤ entry.priority.cost

theorem orderly_initial (problem : Problem) (told : Array Event) :
    (initial told).Orderly problem [] where
  toTabled := tabled_initial problem told
  ascending := .nil
  distinct := .nil
  settled _ h := nomatch h
  rooted outlook id h := by
    rw [show (initial told).best = ∅ from rfl, Std.TreeMap.getElem?_emptyc] at h
    cases h
  single := List.nodup_singleton _
  stored _ h := nomatch h
  passed _ h := nomatch h

/-- Only the start has no boundary filled. -/
theorem Grown.eq_start (h : search.Grown problem) (hid : id < search.tree.size)
    (hdepth : (search.tree.get id).layout.depth = 0) : id = NodeId.start := by
  by_contra hne
  obtain ⟨parent, _, _, hextends⟩ := h.grown id hid hne
  rw [Grown.depth_of_extends hextends] at hdepth
  exact Nat.succ_ne_zero _ hdepth

namespace Orderly

/-- The invariant is about four of the tables. -/
theorem congr (h : search.Orderly problem done) (htree : after.tree = search.tree)
    (hchoices : after.choices = search.choices) (hfrontier : after.frontier = search.frontier)
    (hbest : after.best = search.best) : after.Orderly problem done where
  toTabled := h.toTabled.congr htree hchoices (fun _ hentry => hfrontier ▸ hentry) hbest
  toDisciplined := h.toDisciplined.congr hbest
  rooted := by
    rw [hbest]
    exact h.rooted
  single := by
    rw [hfrontier]
    exact h.single
  stored := by
    rw [htree]
    exact h.stored
  passed := by
    rw [hfrontier]
    exact h.passed

/-! ## Taking up the first entry -/

theorem pop (h : search.Orderly problem done)
    (hpop : search.frontier.pop? = some (entry, rest)) :
    { search with frontier := rest }.Orderly problem done where
  toTabled := h.toTabled.pop hpop
  toDisciplined := h.toDisciplined.congr rfl
  rooted := h.rooted
  single := by
    have hids := ((Heap.toList_of_pop? hpop).map (·.id)).nodup_iff.mp h.single
    exact (List.nodup_cons.mp hids).2
  stored := h.stored
  passed node hnode other hother :=
    h.passed node hnode other ((Heap.mem_iff_of_pop? hpop).mpr (.inr hother))

/-- The node of an entry that is not superseded is the only one kept for its outlook. -/
theorem settled_of_live (h : search.Orderly problem done) (hlive : search.Live entry) :
    search.Settled (search.tree.get entry.id) := by
  have hlt := (h.frontier entry hlive.1).1
  unfold Settled
  split
  · rename_i hdepth
    cases hkept : search.best[(search.tree.get entry.id).layout.outlook]? with
    | none => rfl
    | some kept =>
      have hpos := h.rooted _ kept hkept
      exact absurd hdepth (Nat.ne_of_gt hpos)
  · rename_i hdepth
    rw [h.id_eq entry.id hlt]
    exact h.toTabled.best_of_live hlive (Nat.pos_of_ne_zero hdepth)

/-- No node with the outlook of a live entry has been extended before. -/
theorem outlook_ne (h : search.Orderly problem done) (hlive : search.Live entry)
    (hnode : node ∈ done) : node.layout.outlook ≠ (search.tree.get entry.id).layout.outlook := by
  intro houtlook
  obtain ⟨hlt, _⟩ := h.frontier entry hlive.1
  obtain ⟨id, hid, rfl⟩ := h.stored node hnode
  apply (h.passed _ hnode entry hlive.1).1
  -- Either both are the start, or both are the one node kept for the outlook.
  have hdepth : (search.tree.get id).layout.depth = (search.tree.get entry.id).layout.depth :=
    congrArg Outlook.depth houtlook
  have hsettled := h.settled _ hnode
  have hsettled' := h.settled_of_live hlive
  unfold Settled at hsettled hsettled'
  rw [houtlook, hsettled', hdepth, h.id_eq entry.id hlt] at hsettled
  by_cases hzero : (search.tree.get entry.id).layout.depth = 0
  · rw [h.id_eq id hid, h.eq_start hid (hdepth.trans hzero), h.eq_start hlt hzero]
  · simpa [hzero] using hsettled.symm

/-- Once the first entry is taken up, its node has been extended. -/
theorem take (h : search.Orderly problem done) (hpop : search.frontier.pop? = some (entry, rest))
    (hsuper : search.isSuperseded entry.id = false) :
    { search with frontier := rest }.Orderly problem (done ++ [search.tree.get entry.id]) := by
  have hentry := (Heap.mem_iff_of_pop? hpop).mpr (.inl rfl)
  have hlive : search.Live entry := ⟨hentry, hsuper⟩
  obtain ⟨hlt, hpriority⟩ := h.frontier entry hentry
  have hcost : entry.priority.cost = (search.tree.get entry.id).layout.cost :=
    congrArg Priority.cost hpriority
  have hids := ((Heap.toList_of_pop? hpop).map (·.id)).nodup_iff.mp h.single
  have hpopped := h.pop hpop
  refine ⟨hpopped.toTabled, ?_, h.rooted, hpopped.single, ?_, ?_⟩
  · refine hpopped.toDisciplined.snoc ?_ ?_ (h.settled_of_live hlive)
    · intro node hnode
      rw [← hcost]
      exact (h.passed node hnode entry hentry).2
    · intro node hnode
      exact h.outlook_ne hlive hnode
  · refine List.forall_mem_append.mpr ⟨h.stored, List.forall_mem_singleton.mpr ?_⟩
    exact ⟨entry.id, hlt, rfl⟩
  · refine List.forall_mem_append.mpr ⟨hpopped.passed, List.forall_mem_singleton.mpr ?_⟩
    intro other hother
    rw [← hcost, h.id_eq entry.id hlt]
    constructor
    · intro heq
      have hmem : other.id ∈ rest.toList.map (·.id) := List.mem_map_of_mem hother
      rw [← Option.some.inj heq] at hmem
      exact (List.nodup_cons.mp hids).1 hmem
    · exact Entry.cost_le_of_isLE (Heap.le_of_pop? hpop other hother)

/-! ## Taking up a child -/

/-- A child that costs no less than the nodes extended takes the place of none of them. -/
theorem settled_keep (h : search.Orderly problem done) (choice : Nat)
    (hchild : 0 < child.layout.depth) (hdom : search.isDominated child.layout = false)
    (hcost : ∀ node ∈ done, node.layout.cost ≤ child.layout.cost) (hnode : node ∈ done) :
    (search.keep child choice).Settled node := by
  have hsettled := h.settled node hnode
  have houtlook : child.layout.outlook ≠ node.layout.outlook := by
    -- With its outlook, the child would be cheaper than the node, for it is not dominated.
    intro heq
    obtain ⟨id, hid, hget⟩ := h.stored node hnode
    have hdepth : child.layout.depth = node.layout.depth := congrArg Outlook.depth heq
    have hkept : search.best[child.layout.outlook]? = some id := by
      rw [heq, hsettled, if_neg (by omega), ← hget]
      exact h.id_eq id hid
    have hcheaper := cost_lt_of_not_isDominated hdom hkept (by rw [hget, heq])
    rw [hget] at hcheaper
    exact Nat.not_lt_of_le (hcost node hnode) hcheaper
  unfold Settled
  rw [keep_best_getElem?, if_neg houtlook]
  exact hsettled

theorem keep (h : search.Orderly problem done) (hid : id < search.tree.size)
    (hslot : problem.slots[(search.tree.get id).layout.depth]? = some slot)
    (hoption : (split, choice) ∈ slot.options (search.tree.get id).layout.constraints)
    (hnext : (search.tree.get id).next problem.limit split slot.boundary = .ok child)
    (hdom : search.isDominated child.layout = false)
    (hcost : ∀ node ∈ done, node.layout.cost ≤ child.layout.cost) :
    (search.keep child choice).Orderly problem done := by
  have hchild := Node.depth_pos_of_next hnext
  have htabled := h.toTabled.keep hid hslot hoption hnext hdom
  refine ⟨htabled, ⟨h.ascending, h.distinct, ?_⟩, ?_, ?_, ?_, ?_⟩
  · intro node hnode
    exact h.settled_keep choice hchild hdom hcost hnode
  · intro outlook kept hkept
    rw [keep_best_getElem?] at hkept
    split at hkept
    · rename_i houtlook
      rw [← houtlook]
      exact hchild
    · exact h.rooted outlook kept hkept
  · have hperm := (Heap.toList_push search.frontier ⟨child.layout.priority, search.tree.size⟩).map
      (·.id)
    apply hperm.nodup_iff.mpr
    refine List.nodup_cons.mpr ⟨?_, h.single⟩
    intro hmem
    obtain ⟨entry, hentry, heq⟩ := List.mem_map.mp hmem
    exact Nat.ne_of_lt (h.frontier entry hentry).1 heq
  · intro node hnode
    obtain ⟨id, hid, hget⟩ := h.stored node hnode
    refine ⟨id, lt_keep_size search child choice hid, ?_⟩
    rw [keep_get_of_lt search child choice hid]
    exact hget
  · intro node hnode entry hentry
    rcases (mem_keep_frontier search child choice).mp hentry with rfl | hold
    · obtain ⟨id, hid, rfl⟩ := h.stored node hnode
      refine ⟨?_, hcost _ hnode⟩
      rw [h.id_eq id hid]
      intro heq
      exact Nat.ne_of_lt hid (Option.some.inj heq)
    · exact h.passed node hnode entry hold

/-- Taking up a child of an extended node keeps the invariant, whatever becomes of the child. -/
theorem takeUp (h : search.Orderly problem (done ++ [node]))
    (hslot : problem.slots[node.layout.depth]? = some slot)
    (hoption : (split, choice) ∈ slot.options node.layout.constraints)
    (hnext : node.next problem.limit split slot.boundary = .ok child) :
    (search.takeUp child split choice).Orderly problem (done ++ [node]) := by
  have hcost : ∀ earlier ∈ done ++ [node], earlier.layout.cost ≤ child.layout.cost := by
    intro earlier hearlier
    exact Nat.le_trans (h.cost_le earlier hearlier) (Node.cost_le_of_next hnext)
  obtain ⟨id, hid, rfl⟩ := h.stored node (List.mem_append_right _ List.mem_cons_self)
  obtain ⟨cheapest, hnote⟩ := noteMilestone_eq search child.layout split
  rcases takeUp_cases search child split choice with ⟨_, heq⟩ | ⟨_, _, heq⟩ | ⟨_, hdom, heq⟩
  · rw [heq]
    exact h.congr rfl rfl rfl rfl
  · rw [heq, hnote]
    exact h.congr rfl rfl rfl rfl
  · rw [hnote] at heq hdom
    have hnoted : { search with cheapest }.Orderly problem (done ++ [search.tree.get id]) :=
      h.congr rfl rfl rfl rfl
    rw [heq]
    exact hnoted.keep hid hslot hoption hnext hdom hcost

/-- Extending the node of the first entry keeps the invariant, even if a child is at fault. -/
theorem expand (h : search.Orderly problem done) (hpop : search.frontier.pop? = some (entry, rest))
    (hsuper : search.isSuperseded entry.id = false)
    (hslot : problem.slots[(search.tree.get entry.id).layout.depth]? = some slot)
    {fault? : Option Fault}
    (hexpand : { search with frontier := rest }.expand problem.limit (search.tree.get entry.id)
      slot = (after, fault?)) :
    after.Orderly problem (done ++ [search.tree.get entry.id]) := by
  obtain ⟨told, htold, rfl, _⟩ := expand_cases hexpand
  apply branch_keeps (P := fun s => s.Orderly problem (done ++ [search.tree.get entry.id]))
  · exact (h.take hpop hsuper).congr htold.tree htold.choices htold.frontier htold.best
  · intro s split choice child hoption hnext hs
    exact hs.takeUp hslot hoption hnext

/-! ## The invariant through turns -/

/-- A turn that goes on keeps the invariant, with the node that it extends. -/
theorem goOn (h : search.Orderly problem done) (hturn : turn problem cap search = .goOn after) :
    after.Orderly problem (done ++ (extended? problem cap search).toList) := by
  obtain ⟨entry, rest, hpop, ⟨hsuper, rfl⟩ | ⟨hsuper, hcap, slot, hslot, hexpand⟩⟩ :=
    turn_goOn_cases hturn
  · rw [extended?_of_superseded hpop hsuper, Option.toList_none, List.append_nil]
    exact h.pop hpop
  · rw [extended?_of_slot hpop hsuper hslot hcap]
    exact h.expand hpop hsuper hslot hexpand

theorem reaches (h : search.Orderly problem done) (hreaches : Reaches problem cap search after) :
    ∃ more, after.Orderly problem (done ++ more) := by
  induction hreaches with
  | refl => exact ⟨[], by rwa [List.append_nil]⟩
  | tail _ hturn ih =>
    obtain ⟨more, hmore⟩ := ih
    have hafter := hmore.goOn hturn
    rw [List.append_assoc] at hafter
    exact ⟨_, hafter⟩

end Orderly

/-- A completion keeps nothing for an outlook. -/
theorem best_truncate (problem : Problem) (search : Search) (id : NodeId) (depth : Nat) :
    (truncate problem search id depth).1.best = search.best := by
  rw [truncate_fst]
  apply complete_keeps (P := fun s => s.best = search.best)
  · intro s boundary h
    exact h
  · intro s node choice h
    exact h
  · rfl

namespace Orderly

/-- The turn that ends a run still leaves the nodes extended as they are. -/
theorem stop (h : search.Orderly problem done)
    (hturn : turn problem cap search = .stop after outcome) :
    after.Disciplined (done ++ (extended? problem cap search).toList) := by
  rcases turn_stop_cases hturn with ⟨hpop, _⟩ | ⟨entry, rest, hpop, hsuper, hcases⟩
  · rw [turn_of_empty cap hpop] at hturn
    cases hturn
    rw [extended?_of_empty hpop, Option.toList_none, List.append_nil]
    exact h.toDisciplined
  · rcases hcases with ⟨hdone, rfl, _⟩ | ⟨slot, hslot, ⟨hcap, heq⟩ | ⟨hcap, fault, _, hexpand⟩⟩
    · rw [extended?_of_complete hpop hdone, Option.toList_none, List.append_nil]
      exact (h.pop hpop).toDisciplined
    · rw [extended?_of_cap hpop hcap, Option.toList_none, List.append_nil]
      exact h.toDisciplined.congr ((congrArg (·.1.best) heq).trans (best_truncate _ _ _ _))
    · rw [extended?_of_slot hpop hsuper hslot hcap]
      exact (h.expand hpop hsuper hslot hexpand).toDisciplined

/-- A layout found complete costs no less than the nodes extended. -/
theorem cost_le_of_stop (h : search.Orderly problem done)
    (hturn : turn problem cap search = .stop after (.ok (id, .optimal)))
    (hnode : node ∈ done ++ (extended? problem cap search).toList) :
    node.layout.cost ≤ (after.tree.get id).layout.cost := by
  rcases turn_stop_cases hturn with ⟨_, houtcome⟩ | ⟨entry, rest, hpop, _, hcases⟩
  · cases houtcome
  · rcases hcases with ⟨hdone, rfl, houtcome⟩ | ⟨_, _, ⟨_, heq⟩ | ⟨_, _, houtcome, _⟩⟩
    · cases houtcome
      rw [extended?_of_complete hpop hdone, Option.toList_none, List.append_nil] at hnode
      have hentry := (Heap.mem_iff_of_pop? hpop).mpr (.inl rfl)
      have hcost : entry.priority.cost = (search.tree.get entry.id).layout.cost :=
        congrArg Priority.cost (h.frontier entry hentry).2
      rw [← hcost]
      exact (h.passed node hnode entry hentry).2
    · cases ending_of_truncate heq
    · cases houtcome

/-! ## The invariant through runs -/

theorem run (h : search.Orderly problem done) (cap : Nat) :
    (run problem cap search).1.Disciplined (done ++ extended problem cap search) := by
  fun_induction Search.run problem cap search generalizing done with
  | case1 search final outcome hturn =>
    rw [extended_of_stop hturn]
    exact h.stop hturn
  | case2 search next hturn ih =>
    rw [extended_of_goOn hturn, ← List.append_assoc]
    exact ih (h.goOn hturn)

theorem cost_le_of_run (h : search.Orderly problem done)
    (hrun : Search.run problem cap search = (after, .ok (id, .optimal)))
    (hnode : node ∈ done ++ extended problem cap search) :
    node.layout.cost ≤ (after.tree.get id).layout.cost := by
  fun_induction Search.run problem cap search generalizing done with
  | case1 search final outcome hturn =>
    cases hrun
    rw [extended_of_stop hturn] at hnode
    exact h.cost_le_of_stop hturn hnode
  | case2 search next hturn ih =>
    rw [extended_of_goOn hturn, ← List.append_assoc] at hnode
    exact ih (h.goOn hturn) hrun hnode

/-- The node that a turn extends stays the only one for its outlook, in all turns to come. -/
theorem settled_of_reaches (h : search.Orderly problem done)
    (hextended : extended? problem cap search = some node)
    (hreaches : Reaches problem cap search after) : after.Settled node := by
  induction hreaches using Relation.ReflTransGen.head_induction_on with
  | refl =>
    obtain ⟨entry, rest, hpop, hsuper, rfl⟩ := extended?_eq_some hextended
    exact h.settled_of_live ⟨(Heap.mem_iff_of_pop? hpop).mpr (.inl rfl), hsuper⟩
  | head hturn hrest _ =>
    have hnext := h.goOn hturn
    rw [hextended] at hnext
    obtain ⟨more, hafter⟩ := hnext.reaches hrest
    apply hafter.settled
    simp

theorem settled_of_run (h : search.Orderly problem done)
    (hextended : extended? problem cap search = some node) :
    (Search.run problem cap search).1.Settled node := by
  apply (h.run cap).settled
  exact List.mem_append_right _ (mem_extended hextended)

end Orderly

end Search

/-! ## The whole search -/

theorem Report.extensions_ofProblem (problem : Problem) (cap : Nat) (told : Array Event) :
    (ofProblem problem cap told).extensions =
      (Search.run problem cap (Search.initial told)).1.extensions := by
  unfold ofProblem extensions Search.extensions
  split
  · rename_i hrun
    rw [hrun]
  · rename_i hrun
    rw [hrun, Array.toList_push, List.filterMap_append]
    exact List.append_nil _

theorem Search.extensions_initial (slots : List Slot) (settings : Settings) (limit : Limit) :
    (initial (Report.preamble slots settings limit)).extensions = [] := by
  unfold Report.preamble
  dsimp only
  split
  · rfl
  · rfl

section

variable {slots : List Slot} {settings : Settings} {limit : Limit}

/-- The report on accepted slots tells of the nodes that the search extends, in order. -/
theorem Slot.Accepted.extensions_eq (h : Slot.Accepted slots settings limit) :
    (Report.ofSlots slots settings).extensions =
      (Search.extended ⟨slots.toArray, limit⟩ settings.maxExpansions
        (Search.initial (Report.preamble slots settings limit))).map Node.extension := by
  rw [h.report_eq, Report.extensions_ofProblem, Search.extensions_run, Search.extensions_initial]
  rfl

/-- Where slots are refused, nothing is extended. -/
theorem Report.extensions_of_refused (h : ∀ limit, ¬ Slot.Accepted slots settings limit) :
    (ofSlots slots settings).extensions = [] := by
  unfold ofSlots
  split
  · rfl
  · rfl
  · rename_i limit hcheck hlimit
    exact absurd ⟨hcheck, hlimit⟩ (h limit)

theorem Report.ascending_extensions (slots : List Slot) (settings : Settings) :
    (ofSlots slots settings).extensions.Pairwise fun first second => first.2 ≤ second.2 := by
  by_cases haccepted : ∃ limit, Slot.Accepted slots settings limit
  · obtain ⟨limit, haccepted⟩ := haccepted
    rw [haccepted.extensions_eq, List.pairwise_map]
    exact ((Search.orderly_initial _ _).run settings.maxExpansions).ascending
  · rw [extensions_of_refused (not_exists.mp haccepted)]
    exact .nil

theorem Solution.extension_cost_le {solution : Solution}
    (hsearch : search slots settings = .ok solution) (hending : solution.ending = .optimal)
    {extension : Nat × Cost} (h : extension ∈ (Report.ofSlots slots settings).extensions) :
    extension.2 ≤ solution.cost := by
  obtain ⟨haccepted, after, id, hrun, _, _, hsolution⟩ := exists_run_of_search_eq_ok hsearch
  rw [hending] at hrun
  rw [haccepted.extensions_eq] at h
  obtain ⟨node, hnode, rfl⟩ := List.mem_map.mp h
  rw [congrArg Solution.cost hsolution]
  exact (Search.orderly_initial _ _).cost_le_of_run hrun hnode

end

/-- A search extends the cheapest layout first. The costs told of the layouts extended never
fall, and none of them is greater than the cost of an optimal solution. The nodes told of have
outlooks that all differ, and once a node is extended no other takes its place: in every turn to
come, and at the end, nothing else is kept for its outlook. -/
theorem a_search_extends_the_cheapest_first (slots : List Slot) (settings : Settings) :
    (Report.ofSlots slots settings).extensions.Pairwise (fun first second => first.2 ≤ second.2) ∧
    (∀ solution, search slots settings = .ok solution → solution.ending = .optimal →
      ∀ extension ∈ (Report.ofSlots slots settings).extensions, extension.2 ≤ solution.cost) ∧
    ∀ limit, Slot.Accepted slots settings limit →
      let problem : Problem := ⟨slots.toArray, limit⟩
      let cap := settings.maxExpansions
      let first := Search.initial (Report.preamble slots settings limit)
      (Report.ofSlots slots settings).extensions =
        (Search.extended problem cap first).map Node.extension ∧
      (Search.extended problem cap first).Pairwise
        (fun node later => node.layout.outlook ≠ later.layout.outlook) ∧
      ∀ middle node, Search.Reaches problem cap first middle →
        Search.extended? problem cap middle = some node →
        (∀ after, Search.Reaches problem cap middle after → after.Settled node) ∧
          (Search.run problem cap first).1.Settled node := by
  refine ⟨Report.ascending_extensions slots settings, ?_, ?_⟩
  · intro solution hsearch hending extension hextension
    exact Solution.extension_cost_le hsearch hending hextension
  · intro limit haccepted problem cap first
    have hfirst : first.Orderly problem [] := Search.orderly_initial _ _
    refine ⟨haccepted.extensions_eq, (hfirst.run cap).distinct, ?_⟩
    intro middle node hreaches hextended
    obtain ⟨done, hmiddle⟩ := hfirst.reaches hreaches
    refine ⟨fun after hafter => hmiddle.settled_of_reaches hextended hafter, ?_⟩
    rw [hreaches.run_eq]
    exact hmiddle.settled_of_run hextended

/-- Two ways to come to the second slot. The cheaper one is found last. -/
def overtaken : List Slot :=
  [⟨⟨⟨"", 0⟩, ⟨"if", 2⟩⟩, [.newline 2, .nothing 1]⟩,
    ⟨⟨⟨"if", 2⟩, ⟨"x", 3⟩⟩, [.newline 5, .space 4]⟩]

/-- The dearer way is not gone on with, though it costs less than the solution. -/
theorem an_overtaken_layout_is_not_extended :
    ∃ (solution : Solution) (limit : Limit) (nodes : List Node) (first : Node),
      search overtaken ⟨80, 10000, 10⟩ = .ok solution ∧ solution.ending = .optimal ∧
      Slot.Accepted overtaken ⟨80, 10000, 10⟩ limit ∧
      nodes.map Node.extension = [(0, 0), (1, 1)] ∧
      (∀ node ∈ nodes, node.layout.cost ≤ solution.cost) ∧
      nodes.Pairwise (fun node later => node.layout.outlook ≠ later.layout.outlook) ∧
      first ∈ nodes ∧ (Search.run ⟨overtaken.toArray, limit⟩ 10 (Search.initial
        (Report.preamble overtaken ⟨80, 10000, 10⟩ limit))).1.Settled first := by
  obtain ⟨solution, hsearch, hending⟩ :=
    exists_solution_of_ending (show (search overtaken ⟨80, 10000, 10⟩).toOption.map _ = _ by cbv)
  have hextensions : (Report.ofSlots overtaken ⟨80, 10000, 10⟩).extensions = [(0, 0), (1, 1)] := by
    cbv
  have haccepted := (exists_run_of_search_eq_ok hsearch).1
  have hstart : Search.extended? ⟨overtaken.toArray, solution.limit⟩ 10 (Search.initial
      (Report.preamble overtaken ⟨80, 10000, 10⟩ solution.limit)) =
        some { Node.start with id := some NodeId.start } := by
    rfl
  obtain ⟨_, hcosts, hnodes⟩ := a_search_extends_the_cheapest_first overtaken ⟨80, 10000, 10⟩
  obtain ⟨heq, hdistinct, hsettled⟩ := hnodes _ haccepted
  rw [heq] at hextensions hcosts
  refine ⟨solution, _, _, _, hsearch, hending, haccepted, hextensions, ?_, hdistinct,
    Search.mem_extended hstart, (hsettled _ _ .refl hstart).2⟩
  intro node hnode
  exact hcosts solution hsearch hending _ (List.mem_map_of_mem hnode)

end LineBreak
