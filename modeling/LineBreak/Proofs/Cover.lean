-- A search loses nothing that lasts. Whenever it drops a layout with a lasting
-- property, some other layout with that property, filled at least as far, is
-- still in the frontier. The proof is the same for every lasting property;
-- that the frontier never runs dry and that the best cost is found are two
-- cases of it.
import LineBreak.Proofs.Tables

namespace LineBreak

/-- A path through the first `depth` slots, whose last split carries the marker, leads to the
layout. -/
def Arrives (limit : Limit) (slots : List Slot) (marker : Marker) (depth : Nat)
    (layout : Layout) : Prop :=
  ∃ splits split, Path limit Layout.start (slots.take depth) (splits ++ [split]) layout ∧
    split.marker = some marker

/-- A property lasts if it passes from a layout to those that may take its place in a search,
and from a layout that can be extended to one of its extensions. -/
structure Lasting (problem : Problem) (Good : Layout → Prop) : Prop where
  outlook : ∀ layout other : Layout, layout.outlook = other.outlook →
    layout.cost ≤ other.cost → Good other → Good layout
  marker : ∀ marker depth layout other,
    Arrives problem.limit problem.slots.toList marker depth layout →
    Arrives problem.limit problem.slots.toList marker depth other →
    layout.cost ≤ other.cost → Good other → Good layout
  child : ∀ layout slot, problem.slots[layout.depth]? = some slot →
    slot.Passable problem.limit layout → Good layout →
    ∃ option ∈ slot.options layout.constraints,
      ∃ after, layout.step problem.limit option.1 slot.boundary = .ok after ∧ Good after

namespace Search

variable {problem : Problem} {cap : Nat} {search after : Search} {Good : Layout → Prop}
  {Owed : Nat → Prop} {depth : Nat} {id : NodeId} {slot : Slot} {split : Split} {choice : Nat}
  {child : Node} {rest : Heap Entry} {entry : Entry}

/-! ## Live entries -/

/-- The entry is in the frontier and will not be skipped. -/
def Live (search : Search) (entry : Entry) : Prop :=
  entry ∈ search.frontier.toList ∧ search.isSuperseded entry.id = false

/-- Some live layout is good and has at least `depth` boundaries filled. -/
def Represented (search : Search) (Good : Layout → Prop) (depth : Nat) : Prop :=
  ∃ entry, search.Live entry ∧ depth ≤ (search.tree.get entry.id).layout.depth ∧
    Good (search.tree.get entry.id).layout

theorem Represented.mono {depth' : Nat} (h : search.Represented Good depth) (hle : depth' ≤ depth) :
    search.Represented Good depth' := by
  obtain ⟨entry, hlive, hdepth, hgood⟩ := h
  exact ⟨entry, hlive, Nat.le_trans hle hdepth, hgood⟩

theorem Represented.congr (h : search.Represented Good depth) (htree : after.tree = search.tree)
    (hfrontier : after.frontier = search.frontier) (hbest : after.best = search.best) :
    after.Represented Good depth := by
  unfold Represented Live isSuperseded at h ⊢
  rwa [htree, hfrontier, hbest]

/-- Skipping a superseded entry takes away no live one. -/
theorem Represented.skip (h : search.Represented Good depth)
    (hpop : search.frontier.pop? = some (entry, rest))
    (hsuper : search.isSuperseded entry.id = true) :
    { search with frontier := rest }.Represented Good depth := by
  obtain ⟨other, ⟨hmem, hlive⟩, hdepth, hgood⟩ := h
  refine ⟨other, ⟨?_, hlive⟩, hdepth, hgood⟩
  rcases (Heap.mem_iff_of_pop? hpop).mp hmem with rfl | hrest
  · rw [hsuper] at hlive
    cases hlive
  · exact hrest

/-- Taking a live entry out leaves another one, unless it is itself good and deep enough. -/
theorem Represented.pop (h : search.Represented Good depth)
    (hpop : search.frontier.pop? = some (entry, rest)) :
    { search with frontier := rest }.Represented Good depth ∨
      (Good (search.tree.get entry.id).layout ∧
        depth ≤ (search.tree.get entry.id).layout.depth) := by
  obtain ⟨other, ⟨hmem, hlive⟩, hdepth, hgood⟩ := h
  rcases (Heap.mem_iff_of_pop? hpop).mp hmem with rfl | hrest
  · exact Or.inr ⟨hgood, hdepth⟩
  · exact Or.inl ⟨other, ⟨hrest, hlive⟩, hdepth, hgood⟩

/-- A child that is kept is live. -/
theorem live_keep (search : Search) (child : Node) (choice : Nat) :
    (search.keep child choice).Live ⟨child.layout.priority, search.tree.size⟩ := by
  refine ⟨(mem_keep_frontier search child choice).mpr (Or.inl rfl), ?_⟩
  unfold isSuperseded
  rw [keep_layout_size, keep_best_getElem?, if_pos rfl]
  simp

theorem represented_keep (search : Search) (choice : Nat) (hgood : Good child.layout) :
    (search.keep child choice).Represented Good child.layout.depth := by
  refine ⟨_, live_keep search child choice, ?_, ?_⟩
  · exact Nat.le_of_eq (congrArg Layout.depth (keep_layout_size search child choice)).symm
  · rw [keep_layout_size]
    exact hgood

/-- The node of a live entry that has filled a boundary is the one kept for its outlook. -/
theorem Tabled.best_of_live (h : search.Tabled problem) (hlive : search.Live entry)
    (hdepth : 0 < (search.tree.get entry.id).layout.depth) :
    search.best[(search.tree.get entry.id).layout.outlook]? = some entry.id := by
  have hlt := (h.frontier entry hlive.1).1
  have hne : entry.id ≠ NodeId.start := by
    intro heq
    rw [heq, h.start] at hdepth
    exact Nat.lt_irrefl 0 hdepth
  obtain ⟨kept, hkept, _⟩ := h.kept entry.id hlt hne
  have hsuper := hlive.2
  unfold isSuperseded at hsuper
  rw [hkept] at hsuper ⊢
  simpa using hsuper

/-- If a child that is kept takes the place of a live layout, it is as good. -/
theorem Represented.keep (hlasting : Lasting problem Good) (h : search.Tabled problem)
    (hrep : search.Represented Good depth) (hchild : 0 < child.layout.depth)
    (hdom : search.isDominated child.layout = false) :
    (search.keep child choice).Represented Good depth := by
  obtain ⟨entry, hlive, hdepth, hgood⟩ := hrep
  have hlt := (h.frontier entry hlive.1).1
  by_cases houtlook : child.layout.outlook = (search.tree.get entry.id).layout.outlook
  · have hsame : child.layout.depth = (search.tree.get entry.id).layout.depth :=
      congrArg Outlook.depth houtlook
    have hbest := h.best_of_live hlive (hsame ▸ hchild)
    rw [← houtlook] at hbest
    have hcheaper := cost_lt_of_not_isDominated hdom hbest houtlook.symm
    have hgood' := hlasting.outlook _ _ houtlook (Nat.le_of_lt hcheaper) hgood
    exact (represented_keep search choice hgood').mono (hsame ▸ hdepth)
  · refine ⟨entry, ⟨(mem_keep_frontier search child choice).mpr (Or.inr hlive.1), ?_⟩, ?_, ?_⟩
    · have hsuper := hlive.2
      unfold isSuperseded at hsuper ⊢
      rw [keep_get_of_lt search child choice hlt, keep_best_getElem?, if_neg houtlook]
      exact hsuper
    · rw [keep_get_of_lt search child choice hlt]
      exact hdepth
    · rw [keep_get_of_lt search child choice hlt]
      exact hgood

/-! ## What becomes of a child -/

theorem milestone?_eq_some {layout : Layout} {milestone : Milestone}
    (h : milestone? layout split = some milestone) (hdepth : 0 < layout.depth) :
    split.marker = some milestone.marker ∧ milestone.depth + 1 = layout.depth := by
  unfold milestone? at h
  split at h
  · cases h
  · rename_i marker hmarker
    split at h
    · cases h
      exact ⟨hmarker, Nat.sub_add_cancel hdepth⟩
    · cases h

theorem exists_seen_of_isOutrun {layout : Layout} (h : search.isOutrun layout split = true) :
    ∃ milestone seen, milestone? layout split = some milestone ∧
      search.cheapest[milestone]? = some seen ∧ seen ≤ layout.cost := by
  unfold isOutrun at h
  split at h
  · cases h
  · rename_i milestone hmilestone
    split at h
    · cases h
    · rename_i seen hseen
      exact ⟨milestone, seen, hmilestone, hseen, of_decide_eq_true h⟩

theorem exists_kept_of_isDominated {layout : Layout} (h : search.isDominated layout = true) :
    ∃ kept, search.best[layout.outlook]? = some kept ∧
      (search.tree.get kept).layout.cost ≤ layout.cost := by
  unfold isDominated at h
  split at h
  · cases h
  · rename_i kept hkept
    exact ⟨kept, hkept, (of_decide_eq_true h).1⟩

/-- A cost noted after a child is taken up was noted before, or it is the child's. -/
theorem takeUp_cheapest {milestone : Milestone} {cost : Cost}
    (h : (search.takeUp child split choice).cheapest[milestone]? = some cost) :
    search.cheapest[milestone]? = some cost ∨
      (milestone? child.layout split = some milestone ∧ cost = child.layout.cost) := by
  have hnoted : (search.noteMilestone child.layout split).cheapest[milestone]? = some cost →
      search.cheapest[milestone]? = some cost ∨
        (milestone? child.layout split = some milestone ∧ cost = child.layout.cost) := by
    intro hcost
    unfold noteMilestone at hcost
    split at hcost
    · exact Or.inl hcost
    · rename_i other hother
      dsimp only at hcost
      rw [Std.TreeMap.getElem?_insert] at hcost
      split at hcost
      · rename_i heq
        cases hcost
        obtain rfl := Std.LawfulEqOrd.eq_of_compare heq
        exact Or.inr ⟨hother, rfl⟩
      · exact Or.inl hcost
  rcases takeUp_cases search child split choice with ⟨_, heq⟩ | ⟨_, _, heq⟩ | ⟨_, _, heq⟩
  · rw [heq] at h
    exact Or.inl h
  · rw [heq] at h
    exact hnoted h
  · rw [heq] at h
    exact hnoted h

/-- A node stored after a child is taken up was stored before, or it is the child. -/
theorem takeUp_get (search : Search) (child : Node) (split : Split) (choice : Nat)
    (hid : id < (search.takeUp child split choice).tree.size) :
    (id < search.tree.size ∧
      (search.takeUp child split choice).tree.get id = search.tree.get id) ∨
      ((search.takeUp child split choice).tree.get id).layout = child.layout := by
  obtain ⟨cheapest, hnote⟩ := noteMilestone_eq search child.layout split
  rcases takeUp_cases search child split choice with ⟨_, heq⟩ | ⟨_, _, heq⟩ | ⟨_, _, heq⟩
  · rw [heq] at hid ⊢
    exact Or.inl ⟨hid, rfl⟩
  · rw [heq, hnote] at hid ⊢
    exact Or.inl ⟨hid, rfl⟩
  · rw [heq, hnote] at hid ⊢
    by_cases hlt : id < search.tree.size
    · exact Or.inl ⟨hlt, keep_get_of_lt { search with cheapest } child choice hlt⟩
    · rw [keep_size] at hid
      obtain rfl : id = search.tree.size := Nat.le_antisymm (Nat.le_of_lt_succ hid)
        (Nat.le_of_not_lt hlt)
      exact Or.inr (keep_layout_size { search with cheapest } child choice)

theorem takeUp_get_of_lt (search : Search) (child : Node) (split : Split) (choice : Nat)
    (hid : id < search.tree.size) :
    id < (search.takeUp child split choice).tree.size ∧
      (search.takeUp child split choice).tree.get id = search.tree.get id := by
  obtain ⟨cheapest, hnote⟩ := noteMilestone_eq search child.layout split
  rcases takeUp_cases search child split choice with ⟨_, heq⟩ | ⟨_, _, heq⟩ | ⟨_, _, heq⟩
  · rw [heq]
    exact ⟨hid, rfl⟩
  · rw [heq, hnote]
    exact ⟨hid, rfl⟩
  · rw [heq, hnote]
    exact ⟨lt_keep_size { search with cheapest } child choice hid,
      keep_get_of_lt { search with cheapest } child choice hid⟩

/-- Taking up a child takes no representation away. -/
theorem Represented.takeUp (hlasting : Lasting problem Good) (h : search.Tabled problem)
    (hrep : search.Represented Good depth) (hchild : 0 < child.layout.depth) (split : Split)
    (choice : Nat) : (search.takeUp child split choice).Represented Good depth := by
  obtain ⟨cheapest, hnote⟩ := noteMilestone_eq search child.layout split
  have hnoted := h.noteMilestone child.layout split
  rcases takeUp_cases search child split choice with ⟨_, heq⟩ | ⟨_, _, heq⟩ | ⟨_, hdom, heq⟩
  · rw [heq]
    exact hrep.congr rfl rfl rfl
  · rw [heq, hnote]
    exact hrep.congr rfl rfl rfl
  · rw [heq]
    rw [hnote] at hnoted hdom ⊢
    exact Represented.keep hlasting hnoted (hrep.congr rfl rfl rfl) hchild hdom

/-! ## The invariant -/

/-- Every good layout that was stored, or whose cost at a milestone was noted, is represented,
except at the depths that are still owed. -/
structure Covers (problem : Problem) (Good : Layout → Prop) (Owed : Nat → Prop)
    (search : Search) : Prop where
  stored : ∀ id < search.tree.size, Good (search.tree.get id).layout →
    search.Represented Good (search.tree.get id).layout.depth ∨
      Owed (search.tree.get id).layout.depth
  noted : ∀ (milestone : Milestone) (cost : Cost), search.cheapest[milestone]? = some cost →
    ∃ layout, layout.cost = cost ∧
      Arrives problem.limit problem.slots.toList milestone.marker (milestone.depth + 1) layout ∧
      (Good layout → search.Represented Good (milestone.depth + 1) ∨ Owed (milestone.depth + 1))

theorem covers_initial (problem : Problem) (Good : Layout → Prop) (Owed : Nat → Prop)
    (told : Array Event) : (initial told).Covers problem Good Owed where
  stored id h hgood := by
    obtain rfl : id = 0 := Nat.lt_one_iff.mp h
    refine Or.inl ⟨⟨Layout.start.priority, NodeId.start⟩, ⟨List.mem_singleton.mpr rfl, ?_⟩,
      Nat.le_refl _, hgood⟩
    unfold isSuperseded
    rw [show (initial told).best = ∅ from rfl, Std.TreeMap.getElem?_emptyc]
  noted milestone cost h := by
    rw [show (initial told).cheapest = ∅ from rfl, Std.TreeMap.getElem?_emptyc] at h
    cases h

/-- What becomes of a stored node by a marked option arrives at the marker. -/
theorem Grown.arrives {marker : Marker} (h : search.Grown problem) (hid : id < search.tree.size)
    (hslot : problem.slots[(search.tree.get id).layout.depth]? = some slot)
    (hoption : (split, choice) ∈ slot.options (search.tree.get id).layout.constraints)
    (hnext : (search.tree.get id).next problem.limit split slot.boundary = .ok child)
    (hmarker : split.marker = some marker) :
    Arrives problem.limit problem.slots.toList marker child.layout.depth child.layout := by
  refine ⟨(search.solution problem id .optimal).splits, split, ?_, hmarker⟩
  have hslot' : problem.slots.toList[(search.tree.get id).layout.depth]? = some slot := by
    rw [Array.getElem?_toList]
    exact hslot
  rw [Node.depth_of_next hnext, List.take_add_one, hslot']
  obtain ⟨after, hstep, rfl⟩ := Node.next_eq_ok_iff.mp hnext
  exact (h.path hid .optimal).snoc (Slot.mem_options_iff.mp hoption).2 hstep

/-! ## The invariant through one child -/

namespace Covers

/-- A good child is represented once it is taken up: by itself, by the node kept for its
outlook, or by whatever represents the layout that outran it. -/
theorem represented_takeUp (hlasting : Lasting problem Good) (htabled : search.Tabled problem)
    (h : search.Covers problem Good Owed) (hid : id < search.tree.size)
    (hslot : problem.slots[(search.tree.get id).layout.depth]? = some slot)
    (hoption : (split, choice) ∈ slot.options (search.tree.get id).layout.constraints)
    (hnext : (search.tree.get id).next problem.limit split slot.boundary = .ok child)
    (howed : ¬ Owed child.layout.depth) (hgood : Good child.layout) :
    (search.takeUp child split choice).Represented Good child.layout.depth := by
  have hpos := Node.depth_pos_of_next hnext
  rcases takeUp_cases search child split choice with
    ⟨houtrun, heq⟩ | ⟨_, hdom, heq⟩ | ⟨_, _, heq⟩
  · obtain ⟨milestone, seen, hmilestone, hseen, hle⟩ := exists_seen_of_isOutrun houtrun
    obtain ⟨hmarker, hdepth⟩ := milestone?_eq_some hmilestone hpos
    obtain ⟨layout, rfl, harrives, hrep⟩ := h.noted milestone seen hseen
    rw [hdepth] at harrives hrep
    have harrives' := htabled.toGrown.arrives hid hslot hoption hnext hmarker
    rcases hrep (hlasting.marker _ _ _ _ harrives harrives' hle hgood) with hrep | hstill
    · rw [heq]
      exact hrep.congr rfl rfl rfl
    · exact absurd hstill howed
  · obtain ⟨cheapest, hnote⟩ := noteMilestone_eq search child.layout split
    rw [hnote] at hdom heq
    obtain ⟨kept, hkept, hle⟩ := exists_kept_of_isDominated hdom
    obtain ⟨hlt, houtlook⟩ := htabled.best _ kept hkept
    have hdepth : (search.tree.get kept).layout.depth = child.layout.depth :=
      congrArg Outlook.depth houtlook
    have hrep := h.stored kept hlt (hlasting.outlook _ _ houtlook hle hgood)
    rw [hdepth] at hrep
    rcases hrep with hrep | hstill
    · rw [heq]
      exact hrep.congr rfl rfl rfl
    · exact absurd hstill howed
  · rw [heq]
    exact represented_keep _ choice hgood

theorem takeUp (hlasting : Lasting problem Good) (htabled : search.Tabled problem)
    (h : search.Covers problem Good Owed) (hid : id < search.tree.size)
    (hslot : problem.slots[(search.tree.get id).layout.depth]? = some slot)
    (hoption : (split, choice) ∈ slot.options (search.tree.get id).layout.constraints)
    (hnext : (search.tree.get id).next problem.limit split slot.boundary = .ok child)
    (howed : ¬ Owed child.layout.depth) :
    (search.takeUp child split choice).Covers problem Good Owed := by
  have hpos := Node.depth_pos_of_next hnext
  have hchild := h.represented_takeUp hlasting htabled hid hslot hoption hnext howed
  have hold : ∀ depth, search.Represented Good depth ∨ Owed depth →
      (search.takeUp child split choice).Represented Good depth ∨ Owed depth :=
    fun depth => Or.imp_left fun hrep => hrep.takeUp hlasting htabled hpos split choice
  constructor
  · intro i hi hgood
    rcases takeUp_get search child split choice hi with ⟨hlt, hget⟩ | hlayout
    · rw [hget] at hgood ⊢
      exact hold _ (h.stored i hlt hgood)
    · rw [hlayout] at hgood ⊢
      exact Or.inl (hchild hgood)
  · intro milestone cost hcost
    rcases takeUp_cheapest hcost with hbefore | ⟨hmilestone, rfl⟩
    · obtain ⟨layout, hlayout, harrives, hrep⟩ := h.noted milestone cost hbefore
      exact ⟨layout, hlayout, harrives, fun hgood => hold _ (hrep hgood)⟩
    · obtain ⟨hmarker, hdepth⟩ := milestone?_eq_some hmilestone hpos
      rw [hdepth]
      exact ⟨child.layout, rfl, htabled.toGrown.arrives hid hslot hoption hnext hmarker,
        fun hgood => Or.inl (hchild hgood)⟩

end Covers

/-! ## The invariant through all children of a node -/

/-- The node `id` is being extended: while its children are taken up, it stays what it was. -/
structure Extending (problem : Problem) (slot : Slot) (id : NodeId) (node : Node)
    (search : Search) : Prop where
  tabled : search.Tabled problem
  id_lt : id < search.tree.size
  get_eq : search.tree.get id = node
  slot_eq : problem.slots[node.layout.depth]? = some slot

theorem Extending.takeUp {node : Node} (h : search.Extending problem slot id node)
    (hoption : (split, choice) ∈ slot.options node.layout.constraints)
    (hnext : node.next problem.limit split slot.boundary = .ok child) :
    (search.takeUp child split choice).Extending problem slot id node := by
  obtain ⟨htabled, hlt, rfl, hslot⟩ := h
  obtain ⟨hlt', hget⟩ := takeUp_get_of_lt search child split choice hlt
  exact ⟨htabled.takeUp hlt hslot hoption hnext, hlt', hget, hslot⟩

theorem Extending.branch {node : Node} {options : List (Split × Nat)}
    (h : search.Extending problem slot id node)
    (hoptions : ∀ option ∈ options, option ∈ slot.options node.layout.constraints) :
    (Search.branch problem.limit node slot.boundary options search).1.Extending
      problem slot id node :=
  branch_keeps h fun _ _ _ _ hmem hnext hs => hs.takeUp (hoptions _ hmem) hnext

theorem Covers.branch {node : Node} {options : List (Split × Nat)}
    (hlasting : Lasting problem Good) (h : search.Extending problem slot id node)
    (hcovers : search.Covers problem Good Owed)
    (hoptions : ∀ option ∈ options, option ∈ slot.options node.layout.constraints)
    (howed : ¬ Owed (node.layout.depth + 1)) :
    (Search.branch problem.limit node slot.boundary options search).1.Covers problem Good Owed := by
  refine (branch_keeps (P := fun s => s.Extending problem slot id node ∧
    s.Covers problem Good Owed) ⟨h, hcovers⟩ ?_).2
  rintro s split choice child hmem hnext ⟨hs, hscovers⟩
  have hs' := hs.takeUp (hoptions _ hmem) hnext
  obtain ⟨htabled, hlt, rfl, hslot⟩ := hs
  rw [← Node.depth_of_next hnext] at howed
  exact ⟨hs', hscovers.takeUp hlasting htabled hlt hslot (hoptions _ hmem) hnext howed⟩

theorem Represented.branch {node : Node} {options : List (Split × Nat)}
    (hlasting : Lasting problem Good) (h : search.Extending problem slot id node)
    (hrep : search.Represented Good depth)
    (hoptions : ∀ option ∈ options, option ∈ slot.options node.layout.constraints) :
    (Search.branch problem.limit node slot.boundary options search).1.Represented Good depth := by
  refine (branch_keeps (P := fun s => s.Extending problem slot id node ∧
    s.Represented Good depth) ⟨h, hrep⟩ ?_).2
  rintro s split choice child hmem hnext ⟨hs, hsrep⟩
  have hpos := Node.depth_pos_of_next hnext
  exact ⟨hs.takeUp (hoptions _ hmem) hnext, hsrep.takeUp hlasting hs.tabled hpos split choice⟩

/-- After a branch without a fault every good child is represented. -/
theorem represented_branch {node : Node} {options : List (Split × Nat)} {option : Split × Nat}
    (hlasting : Lasting problem Good) (h : search.Extending problem slot id node)
    (hcovers : search.Covers problem Good Owed)
    (hoptions : ∀ option ∈ options, option ∈ slot.options node.layout.constraints)
    (howed : ¬ Owed (node.layout.depth + 1))
    (hnone : (Search.branch problem.limit node slot.boundary options search).2 = none)
    (hmem : option ∈ options) (hnext : node.next problem.limit option.1 slot.boundary = .ok child)
    (hgood : Good child.layout) :
    (Search.branch problem.limit node slot.boundary options search).1.Represented Good
      (node.layout.depth + 1) := by
  -- The option is taken up at some point; from there on its representation stays.
  induction options generalizing search with
  | nil => cases hmem
  | cons first options ih =>
    obtain ⟨first, firstChoice⟩ := first
    have hfirst := hoptions _ List.mem_cons_self
    have hothers := fun option hmem => hoptions option (List.mem_cons_of_mem _ hmem)
    obtain ⟨taken, htaken⟩ := passable_of_branch hnone _ List.mem_cons_self
    rw [branch_cons htaken] at hnone ⊢
    have h' := h.takeUp hfirst htaken
    obtain ⟨htabled, hlt, rfl, hslot⟩ := h
    have howed' : ¬ Owed taken.layout.depth := by rwa [Node.depth_of_next htaken]
    rcases List.mem_cons.mp hmem with rfl | hrest
    · obtain rfl : child = taken := Except.ok.inj (hnext.symm.trans htaken)
      have hrep := hcovers.represented_takeUp hlasting htabled hlt hslot hfirst hnext howed' hgood
      rw [Node.depth_of_next hnext] at hrep
      exact hrep.branch hlasting h' hothers
    · have hcovers' := hcovers.takeUp hlasting htabled hlt hslot hfirst htaken howed'
      exact ih h' hcovers' hothers hnone hrest

/-! ## The invariant through a turn -/

theorem Covers.mono {Owed' : Nat → Prop} (h : search.Covers problem Good Owed)
    (htree : after.tree = search.tree) (hcheapest : after.cheapest = search.cheapest)
    (hrep : ∀ depth, search.Represented Good depth ∨ Owed depth →
      after.Represented Good depth ∨ Owed' depth) : after.Covers problem Good Owed' := by
  constructor
  · intro id hid hgood
    rw [htree] at hid hgood ⊢
    exact hrep _ (h.stored id hid hgood)
  · intro milestone cost hcost
    rw [hcheapest] at hcost
    obtain ⟨layout, hlayout, harrives, hrep'⟩ := h.noted milestone cost hcost
    exact ⟨layout, hlayout, harrives, fun hgood => hrep _ (hrep' hgood)⟩

/-- The first node of the frontier can be extended. -/
theorem Tabled.extending {told : Search} (h : search.Tabled problem)
    (hpop : search.frontier.pop? = some (entry, rest))
    (hslot : problem.slots[(search.tree.get entry.id).layout.depth]? = some slot)
    (htold : told.SameTables { search with frontier := rest }) :
    told.Extending problem slot entry.id (search.tree.get entry.id) where
  tabled := (h.pop hpop).sameTables htold
  id_lt := by
    rw [htold.tree]
    exact (h.frontier entry ((Heap.mem_iff_of_pop? hpop).mpr (Or.inl rfl))).1
  get_eq := by rw [htold.tree]
  slot_eq := hslot

theorem Tabled.turn (h : search.Tabled problem)
    (hturn : Search.turn problem cap search = .goOn after) : after.Tabled problem := by
  obtain ⟨entry, rest, hpop, ⟨_, rfl⟩ | ⟨_, _, slot, hslot, hexpand⟩⟩ := turn_goOn_cases hturn
  · exact h.pop hpop
  · obtain ⟨told, htold, rfl, _⟩ := expand_cases hexpand
    exact ((h.extending hpop hslot htold).branch fun _ => id).tabled

/-- A turn that goes on loses nothing good. What the node taken up stood for is represented
by one of its children afterwards. -/
theorem Covers.turn (hlasting : Lasting problem Good) (htabled : search.Tabled problem)
    (h : search.Covers problem Good fun _ => False)
    (hturn : Search.turn problem cap search = .goOn after) :
    after.Covers problem Good fun _ => False := by
  obtain ⟨entry, rest, hpop, ⟨hsuper, rfl⟩ | ⟨_, _, slot, hslot, hexpand⟩⟩ :=
    turn_goOn_cases hturn
  · exact h.mono rfl rfl fun _ => Or.imp_left fun hrep => hrep.skip hpop hsuper
  · obtain ⟨told, htold, rfl, hnone⟩ := expand_cases hexpand
    have hext := htabled.extending hpop hslot htold
    -- While the children are taken up, the depths that the node stood for are owed.
    have howing : told.Covers problem Good fun depth =>
        Good (search.tree.get entry.id).layout ∧
          depth ≤ (search.tree.get entry.id).layout.depth := by
      refine h.mono htold.tree htold.cheapest fun depth hrep => ?_
      rcases hrep with hrep | hfalse
      · exact (hrep.pop hpop).imp_left fun hrep =>
          hrep.congr htold.tree htold.frontier htold.best
      · exact hfalse.elim
    have hdeeper : ¬ (Good (search.tree.get entry.id).layout ∧
        (search.tree.get entry.id).layout.depth + 1 ≤ (search.tree.get entry.id).layout.depth) :=
      fun hle => Nat.not_succ_le_self _ hle.2
    have hafter := howing.branch hlasting hext (fun _ => id) hdeeper
    refine hafter.mono rfl rfl fun depth hrep => Or.inl ?_
    rcases hrep with hrep | ⟨hgood, hle⟩
    · exact hrep
    · obtain ⟨option, hoption, layout, hstep, hgood'⟩ :=
        hlasting.child _ slot hslot (passable_of_next (passable_of_branch hnone)) hgood
      have hrep := represented_branch hlasting hext howing (fun _ => id) hdeeper hnone hoption
        (Node.next_eq_ok_iff.mpr ⟨layout, hstep, rfl⟩) hgood'
      exact hrep.mono (Nat.le_succ_of_le hle)

/-! ## The invariant all along a run -/

theorem Reaches.tabled {told : Array Event} (h : Reaches problem cap (initial told) search) :
    search.Tabled problem :=
  h.keeps (tabled_initial problem told) fun _ _ hs hturn => hs.turn hturn

/-- As long as a search goes on, it has a live entry with every lasting property that the start
has. -/
theorem Reaches.exists_live {told : Array Event} (h : Reaches problem cap (initial told) search)
    (hlasting : Lasting problem Good) (hstart : Good Layout.start) :
    ∃ entry, search.Live entry ∧ Good (search.tree.get entry.id).layout := by
  have hcovers := (h.keeps (P := fun s => s.Tabled problem ∧ s.Covers problem Good fun _ => False)
    ⟨tabled_initial problem told, covers_initial problem Good _ told⟩
    fun _ _ hs hturn => ⟨hs.1.turn hturn, hs.2.turn hlasting hs.1 hturn⟩).2
  have hgrown := h.tabled.toGrown
  have hgood : Good (search.tree.get NodeId.start).layout := by
    rw [hgrown.start]
    exact hstart
  rcases hcovers.stored NodeId.start hgrown.size_pos hgood with ⟨entry, hlive, _, hgood⟩ | hfalse
  · exact ⟨entry, hlive, hgood⟩
  · exact hfalse.elim

end Search

end LineBreak
