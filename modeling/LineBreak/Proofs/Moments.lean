-- A search in small steps: a node is taken out of the frontier, its children
-- are taken up one by one, and a completion looks at the options of one slot
-- after the other. At every moment in between, the tables fit one another, so
-- whatever is looked up by an id or by the place of a split is there. Only the
-- milestones that a completion passes are in no table.
import LineBreak.Proofs.Greedy
import LineBreak.Proofs.Markers
import Mathlib.Order.Bounds.Basic

namespace LineBreak

namespace Search

/-! ## Small steps -/

/-- What a search is at. -/
inductive Phase where
  /-- The frontier is looked at next. -/
  | choosing
  /-- The node was taken out of the frontier. -/
  | taken (id : NodeId)
  /-- The node is being extended, and these options of the slot are still to be taken. -/
  | extending (id : NodeId) (slot : Slot) (options : List (Split × Nat))
  /-- The cap is reached, and the slots ahead of the node are to be filled. -/
  | completing (id : NodeId) (ahead : List Slot)
  /-- The first of the slots ahead is being filled: these options are still to be looked at, and
  this child, with the place of its split, is the best so far. -/
  | weighing (id : NodeId) (slot : Slot) (ahead : List Slot) (options : List (Split × Nat))
      (seen : Option (Node × Nat))

namespace Phase

/-- The node that the search is busy with. -/
def node? : Phase → Option NodeId
  | choosing => none
  | taken id | extending id _ _ | completing id _ | weighing id _ _ _ _ => some id

/-- The best child so far of the node that is being completed. -/
def candidate? : Phase → Option (Node × Nat)
  | weighing _ _ _ _ seen => seen
  | _ => none

def IsCompletion : Phase → Prop
  | choosing | taken _ | extending _ _ _ => False
  | completing _ _ | weighing _ _ _ _ _ => True

end Phase

/-- How a search comes by a child: it extends a node, or it completes a layout. -/
inductive Origin where
  | extension
  | completion
  deriving DecidableEq

/-- A child that a node has got, whether it was kept or dropped. -/
structure Birth where
  origin : Origin
  parent : Layout
  split : Split
  child : Layout

/-- The child was born at the milestone. -/
def Birth.Meets (birth : Birth) (milestone : Milestone) : Prop :=
  birth.split.marker = some milestone.marker ∧ birth.parent.depth = milestone.depth

/-- What the children born at the milestone cost. -/
def costsAt (births : List Birth) (milestone : Milestone) : Set Cost :=
  {paid | ∃ birth ∈ births, birth.Meets milestone ∧ birth.child.cost = paid}

instance (birth : Birth) (milestone : Milestone) : Decidable (birth.Meets milestone) :=
  inferInstanceAs (Decidable (_ ∧ _))

theorem isLeast_costsAt_iff {births : List Birth} {milestone : Milestone} {cost : Cost} :
    IsLeast (costsAt births milestone) cost ↔
      (∃ birth ∈ births, birth.Meets milestone ∧ birth.child.cost = cost) ∧
        ∀ birth ∈ births, birth.Meets milestone → cost ≤ birth.child.cost := by
  refine and_congr_right fun _ => ⟨?_, ?_⟩
  · intro hlower birth hbirth hmeets
    exact hlower ⟨birth, hbirth, hmeets, rfl⟩
  · rintro hle _ ⟨birth, hbirth, hmeets, rfl⟩
    exact hle birth hbirth hmeets

def byExtension (births : List Birth) : List Birth := births.filter (·.origin = .extension)

theorem byExtension_snoc (births : List Birth) (birth : Birth) :
    byExtension (births ++ [birth]) =
      if birth.origin = .extension then byExtension births ++ [birth] else byExtension births := by
  by_cases h : birth.origin = .extension <;> simp [byExtension, h]

/-- A search, what it is at, and all children that its nodes have got so far. -/
structure Moment where
  phase : Phase
  search : Search
  births : List Birth

/-- What is counted and told before a node is extended. -/
def setOut (search : Search) (node : Node) (slot : Slot) : Search :=
  ({ search with expanded := search.expanded + 1 }.log
    (.expanding node.layout.depth node.layout.cost)).logConflict slot node.layout

variable {problem : Problem} {cap : Nat} {told : Array Event} {search after : Search}
  {births : List Birth} {id : NodeId} {slot : Slot} {split : Split} {choice : Nat}
  {node child : Node} {options : List (Split × Nat)} {ahead : List Slot} {limit : Limit}
  {boundary : Boundary} {seen : Option (Node × Nat)}

theorem expand_eq_branch (search : Search) (limit : Limit) (node : Node) (slot : Slot) :
    search.expand limit node slot =
      branch limit node slot.boundary (slot.options node.layout.constraints)
        (search.setOut node slot) :=
  rfl

theorem sameTables_setOut (search : Search) (node : Node) (slot : Slot) :
    (search.setOut node slot).SameTables search := by
  obtain ⟨h1, h2, h3, h4, h5⟩ := sameTables_logConflict
    ({ search with expanded := search.expanded + 1 }.log
      (.expanding node.layout.depth node.layout.cost)) slot node.layout
  exact ⟨h1, h2, h3, h4, h5⟩

/-- One small step. Every child is a birth, also one that is dropped at once, and also one that a
completion only looks at. -/
inductive Step (problem : Problem) (cap : Nat) : Moment → Moment → Prop
  | pop {search : Search} {births : List Birth} {entry : Entry} {rest : Heap Entry}
      (pop_eq : search.frontier.pop? = some (entry, rest)) :
      Step problem cap ⟨.choosing, search, births⟩
        ⟨.taken entry.id, { search with frontier := rest }, births⟩
  | skip {search : Search} {births : List Birth} {id : NodeId}
      (superseded : search.isSuperseded id = true) :
      Step problem cap ⟨.taken id, search, births⟩ ⟨.choosing, search, births⟩
  | setOut {search : Search} {births : List Birth} {id : NodeId} {slot : Slot}
      (current : search.isSuperseded id = false)
      (slot_eq : problem.slots[(search.tree.get id).layout.depth]? = some slot)
      (below : search.expanded < cap) :
      Step problem cap ⟨.taken id, search, births⟩
        ⟨.extending id slot (slot.options (search.tree.get id).layout.constraints),
          search.setOut (search.tree.get id) slot, births⟩
  | child {search : Search} {births : List Birth} {id : NodeId} {slot : Slot} {split : Split}
      {choice : Nat} {options : List (Split × Nat)} {child : Node}
      (next_eq : (search.tree.get id).next problem.limit split slot.boundary = .ok child) :
      Step problem cap ⟨.extending id slot ((split, choice) :: options), search, births⟩
        ⟨.extending id slot options, search.takeUp child split choice,
          births ++ [⟨.extension, (search.tree.get id).layout, split, child.layout⟩]⟩
  | done {search : Search} {births : List Birth} {id : NodeId} {slot : Slot} :
      Step problem cap ⟨.extending id slot [], search, births⟩ ⟨.choosing, search, births⟩
  | cut {search : Search} {births : List Birth} {id : NodeId} {slot : Slot}
      (current : search.isSuperseded id = false)
      (slot_eq : problem.slots[(search.tree.get id).layout.depth]? = some slot)
      (reached : cap ≤ search.expanded) :
      Step problem cap ⟨.taken id, search, births⟩
        ⟨.completing id (problem.slots.toList.drop (search.tree.get id).layout.depth),
          search.log (.capReached search.expanded (search.tree.get id).layout.depth
            problem.slots.size), births⟩
  | tell {search : Search} {births : List Birth} {id : NodeId} {slot : Slot} {ahead : List Slot} :
      Step problem cap ⟨.completing id (slot :: ahead), search, births⟩
        ⟨.weighing id slot ahead (slot.options (search.tree.get id).layout.constraints) none,
          search.logConflict slot (search.tree.get id).layout, births⟩
  | weigh {search : Search} {births : List Birth} {id : NodeId} {slot : Slot} {ahead : List Slot}
      {split : Split} {choice : Nat} {options : List (Split × Nat)} {seen : Option (Node × Nat)}
      {child : Node}
      (next_eq : (search.tree.get id).next problem.limit split slot.boundary = .ok child) :
      Step problem cap ⟨.weighing id slot ahead ((split, choice) :: options) seen, search, births⟩
        ⟨.weighing id slot ahead options (prefer seen child choice), search,
          births ++ [⟨.completion, (search.tree.get id).layout, split, child.layout⟩]⟩
  | fill {search : Search} {births : List Birth} {id : NodeId} {slot : Slot} {ahead : List Slot}
      {child : Node} {choice : Nat} :
      Step problem cap ⟨.weighing id slot ahead [] (some (child, choice)), search, births⟩
        ⟨.completing search.tree.size ahead, (search.store child choice).1, births⟩

/-- There is at most one way to go on. -/
theorem Step.unique {before later other : Moment} (h : Step problem cap before later)
    (h' : Step problem cap before other) : later = other := by
  cases h with
  | pop pop_eq =>
    cases h' with
    | pop pop_eq' =>
      cases pop_eq.symm.trans pop_eq'
      rfl
  | skip superseded =>
    cases h' with
    | skip => rfl
    | setOut current => cases superseded.symm.trans current
    | cut current => cases superseded.symm.trans current
  | setOut current slot_eq below =>
    cases h' with
    | skip superseded => cases superseded.symm.trans current
    | setOut _ slot_eq' =>
      cases slot_eq.symm.trans slot_eq'
      rfl
    | cut _ _ reached => exact absurd below (Nat.not_lt_of_le reached)
  | child next_eq =>
    cases h' with
    | child next_eq' =>
      cases next_eq.symm.trans next_eq'
      rfl
  | done =>
    cases h'
    rfl
  | cut current _ reached =>
    cases h' with
    | skip superseded => cases superseded.symm.trans current
    | setOut _ _ below => exact absurd below (Nat.not_lt_of_le reached)
    | cut => rfl
  | tell =>
    cases h'
    rfl
  | weigh next_eq =>
    cases h' with
    | weigh next_eq' =>
      cases next_eq.symm.trans next_eq'
      rfl
  | fill =>
    cases h'
    rfl

/-- No small step goes on from the moment. -/
def Ends (problem : Problem) (cap : Nat) (moment : Moment) : Prop :=
  ∀ later, ¬ Step problem cap moment later

/-- Some number of small steps lead from one moment to the other. -/
def LeadsTo (problem : Problem) (cap : Nat) : Moment → Moment → Prop :=
  Relation.ReflTransGen (Step problem cap)

/-- The moments of the search from its beginning on. -/
def UnderWay (problem : Problem) (cap : Nat) (told : Array Event) : Moment → Prop :=
  LeadsTo problem cap ⟨.choosing, initial told, []⟩

/-! ## The small steps of a turn -/

/-- Taking up the children of a node is one small step for each, up to the first at fault. -/
theorem exists_leadsTo_branch (problem : Problem) (cap : Nat) (slot : Slot)
    (hid : id < search.tree.size) (hnode : search.tree.get id = node)
    (options : List (Split × Nat)) (births : List Birth) :
    ∃ left born, LeadsTo problem cap ⟨.extending id slot options, search, births⟩
        ⟨.extending id slot left,
          (branch problem.limit node slot.boundary options search).1, born⟩ ∧
      ((branch problem.limit node slot.boundary options search).2 = none → left = []) ∧
      ((branch problem.limit node slot.boundary options search).2 ≠ none →
        Ends problem cap ⟨.extending id slot left,
          (branch problem.limit node slot.boundary options search).1, born⟩) := by
  induction options generalizing search births with
  | nil => exact ⟨[], births, .refl, fun _ => rfl, fun hfault => absurd rfl hfault⟩
  | cons option options ih =>
    obtain ⟨split, choice⟩ := option
    cases hnext : node.next problem.limit split slot.boundary with
    | error fault =>
      have hbranch : branch problem.limit node slot.boundary ((split, choice) :: options) search =
          (search, some fault) := by
        simp [branch, hnext]
      rw [hbranch]
      refine ⟨(split, choice) :: options, births, .refl, by simp, ?_⟩
      intro _ later hstep
      cases hstep with
      | child next_eq =>
        rw [hnode, hnext] at next_eq
        cases next_eq
    | ok child =>
      obtain ⟨hlt, hget⟩ := takeUp_get_of_lt search child split choice hid
      obtain ⟨left, born, hleads, hends⟩ := ih hlt (hget.trans hnode)
        (births ++ [⟨.extension, (search.tree.get id).layout, split, child.layout⟩])
      rw [branch_cons hnext]
      exact ⟨left, born, .head (.child (hnode ▸ hnext)) hleads, hends⟩

theorem exists_leadsTo_expand {fault? : Option Fault}
    (hexpand : search.expand problem.limit (search.tree.get id) slot = (after, fault?))
    (hid : id < search.tree.size) (hcurrent : search.isSuperseded id = false)
    (hslot : problem.slots[(search.tree.get id).layout.depth]? = some slot)
    (hcap : search.expanded < cap) (births : List Birth) :
    ∃ left born, LeadsTo problem cap ⟨.taken id, search, births⟩
        ⟨.extending id slot left, after, born⟩ ∧ (fault? = none → left = []) ∧
      (fault? ≠ none → Ends problem cap ⟨.extending id slot left, after, born⟩) := by
  have htree := (sameTables_setOut search (search.tree.get id) slot).tree
  have hid' : id < (search.setOut (search.tree.get id) slot).tree.size := by rwa [htree]
  obtain ⟨left, born, hleads, hends⟩ := exists_leadsTo_branch problem cap slot hid'
    (congrArg (·.get id) htree) (slot.options (search.tree.get id).layout.constraints) births
  rw [← expand_eq_branch, hexpand] at hleads hends
  exact ⟨left, born, .head (.setOut hcurrent hslot hcap) hleads, hends⟩

/-- Looking for the best child is one small step for each option, up to the first at fault. -/
theorem exists_leadsTo_weigh (problem : Problem) (cap : Nat) (slot : Slot) (ahead : List Slot)
    (hnode : search.tree.get id = node) (options : List (Split × Nat))
    (seen : Option (Node × Nat)) (births : List Birth) :
    ∃ left found born, LeadsTo problem cap ⟨.weighing id slot ahead options seen, search, births⟩
        ⟨.weighing id slot ahead left found, search, born⟩ ∧
      match options.foldlM (fun seen option =>
        (node.next problem.limit option.1 slot.boundary).map (prefer seen · option.2)) seen with
      | .ok best => left = [] ∧ found = best
      | .error _ => Ends problem cap ⟨.weighing id slot ahead left found, search, born⟩ := by
  induction options generalizing seen births with
  | nil => exact ⟨[], seen, births, .refl, rfl, rfl⟩
  | cons option options ih =>
    obtain ⟨split, choice⟩ := option
    rw [List.foldlM_cons]
    cases hnext : node.next problem.limit split slot.boundary with
    | error fault =>
      refine ⟨(split, choice) :: options, seen, births, .refl, ?_⟩
      intro later hstep
      cases hstep with
      | weigh next_eq =>
        rw [hnode, hnext] at next_eq
        cases next_eq
    | ok child =>
      obtain ⟨left, found, born, hleads, hend⟩ := ih (prefer seen child choice)
        (births ++ [⟨.completion, (search.tree.get id).layout, split, child.layout⟩])
      exact ⟨left, found, born, .head (.weigh (hnode ▸ hnext)) hleads, hend⟩

/-- Completing a layout is to look for the best child and to store it, slot by slot, up to the
first where an option is at fault. -/
theorem exists_leadsTo_complete (problem : Problem) (cap : Nat) (ahead : List Slot) (id : NodeId)
    (search : Search) (births : List Birth) :
    ∃ phase born, LeadsTo problem cap ⟨.completing id ahead, search, births⟩
        ⟨phase, (complete problem.limit ahead id search).1, born⟩ ∧
      Ends problem cap ⟨phase, (complete problem.limit ahead id search).1, born⟩ := by
  induction ahead generalizing id search births with
  | nil => exact ⟨_, births, .refl, fun _ hstep => nomatch hstep⟩
  | cons slot ahead ih =>
    have hget := congrArg (·.get id)
      (sameTables_logConflict search slot (search.tree.get id).layout).tree
    obtain ⟨left, found, born, hweigh, hend⟩ := exists_leadsTo_weigh problem cap slot ahead hget
      (slot.options (search.tree.get id).layout.constraints) none births
    have htold := Relation.ReflTransGen.head .tell hweigh
    unfold complete greediest
    dsimp only
    split
    · rename_i hgreedy
      rw [hgreedy] at hend
      exact ⟨_, born, htold, hend⟩
    · rename_i hgreedy
      rw [hgreedy] at hend
      obtain ⟨rfl, rfl⟩ := hend
      exact ⟨_, born, htold, fun _ hstep => nomatch hstep⟩
    · rename_i child choice hgreedy
      rw [hgreedy] at hend
      obtain ⟨rfl, rfl⟩ := hend
      obtain ⟨phase, born', hleads, hends⟩ := ih _ _ born
      exact ⟨phase, born', htold.trans (.head .fill hleads), hends⟩

/-- A turn that goes on is some small steps, from looking at the frontier to looking at it again. -/
theorem exists_leadsTo_goOn (h : search.Tabled problem)
    (hturn : turn problem cap search = .goOn after) (births : List Birth) :
    ∃ born, LeadsTo problem cap ⟨.choosing, search, births⟩ ⟨.choosing, after, born⟩ := by
  obtain ⟨entry, rest, hpop, ⟨hsuper, rfl⟩ | ⟨hcurrent, hcap, slot, hslot, hexpand⟩⟩ :=
    turn_goOn_cases hturn
  · exact ⟨births, .head (.pop hpop) (.single (.skip hsuper))⟩
  · have hid := (h.frontier entry ((Heap.mem_iff_of_pop? hpop).mpr (.inl rfl))).1
    obtain ⟨left, born, hleads, hleft, _⟩ :=
      exists_leadsTo_expand hexpand hid hcurrent hslot hcap births
    obtain rfl := hleft rfl
    exact ⟨born, .tail (.head (.pop hpop) hleads) .done⟩

/-- A turn that stops the search is some small steps to a moment from which none goes on. -/
theorem exists_leadsTo_stop {outcome : Except Fault (NodeId × Ending)} (h : search.Tabled problem)
    (hturn : turn problem cap search = .stop after outcome) (births : List Birth) :
    ∃ phase born, LeadsTo problem cap ⟨.choosing, search, births⟩ ⟨phase, after, born⟩ ∧
      Ends problem cap ⟨phase, after, born⟩ := by
  rcases turn_stop_cases hturn with ⟨hpop, _⟩ | ⟨entry, rest, hpop, hcurrent, hend⟩
  · unfold turn at hturn
    rw [hpop] at hturn
    cases hturn
    refine ⟨_, births, .refl, ?_⟩
    intro later hstep
    cases hstep with
    | pop pop_eq => cases hpop.symm.trans pop_eq
  · have hid := (h.frontier entry ((Heap.mem_iff_of_pop? hpop).mpr (.inl rfl))).1
    rcases hend with ⟨hslot, rfl, _⟩ | ⟨slot, hslot, ⟨hcap, hcut⟩ | ⟨hcap, fault, _, hexpand⟩⟩
    · refine ⟨_, births, .single (.pop hpop), ?_⟩
      intro later hstep
      cases hstep with
      | skip superseded => cases hcurrent.symm.trans superseded
      | setOut _ slot_eq => cases hslot.symm.trans slot_eq
      | cut _ slot_eq => cases hslot.symm.trans slot_eq
    · obtain rfl := congrArg Prod.fst hcut
      obtain ⟨phase, born, hleads, hends⟩ := exists_leadsTo_complete problem cap _ _ _ births
      exact ⟨phase, born, .head (.pop hpop) (.head (.cut hcurrent hslot hcap) hleads), hends⟩
    · obtain ⟨left, born, hleads, _, hends⟩ :=
        exists_leadsTo_expand hexpand hid hcurrent hslot hcap births
      exact ⟨_, born, .head (.pop hpop) hleads, hends (by simp)⟩

/-- Whatever a search is between two turns, it is at some moment. -/
theorem Reaches.exists_underWay (h : Reaches problem cap (initial told) search) :
    ∃ births, UnderWay problem cap told ⟨.choosing, search, births⟩ := by
  induction h with
  | refl => exact ⟨[], .refl⟩
  | tail hreaches hturn ih =>
    obtain ⟨births, hbefore⟩ := ih
    obtain ⟨born, hleads⟩ := exists_leadsTo_goOn (Reaches.tabled hreaches) hturn births
    exact ⟨born, hbefore.trans hleads⟩

/-- All moments of a search are on the way to what it ends as. -/
theorem exists_end_of_underWay (problem : Problem) (cap : Nat) (told : Array Event) :
    ∃ phase births, UnderWay problem cap told
        ⟨phase, (run problem cap (initial told)).1, births⟩ ∧
      ∀ moment, UnderWay problem cap told moment →
        LeadsTo problem cap moment ⟨phase, (run problem cap (initial told)).1, births⟩ := by
  obtain ⟨last, hreaches, hstop⟩ := run_stops problem cap (initial told)
  obtain ⟨births, hbefore⟩ := hreaches.exists_underWay
  obtain ⟨phase, born, hleads, hends⟩ := exists_leadsTo_stop hreaches.tabled hstop births
  have hend : UnderWay problem cap told ⟨phase, _, born⟩ := hbefore.trans hleads
  have hunique : Relator.RightUnique (Step problem cap) := fun _ _ _ => Step.unique
  refine ⟨phase, born, hend, ?_⟩
  intro moment hmoment
  -- with one way to go on, the two are on one line, and nothing goes on from the end
  rcases Relation.ReflTransGen.total_of_right_unique hunique hmoment hend with hthere | hbeyond
  · exact hthere
  · rcases hbeyond.cases_head with rfl | ⟨later, hstep, _⟩
    · exact .refl
    · exact absurd hstep (hends later)

/-! ## The milestones -/

/-- The table of milestones has the costs of children born there, and for every child born at a
milestone a cost no greater than its own. -/
structure Noted (births : List Birth) (search : Search) : Prop where
  met : ∀ (milestone : Milestone) cost, search.cheapest[milestone]? = some cost →
    cost ∈ costsAt births milestone
  least : ∀ birth ∈ births, ∀ milestone : Milestone, birth.Meets milestone →
    ∃ cost, search.cheapest[milestone]? = some cost ∧ cost ≤ birth.child.cost

theorem noted_initial (told : Array Event) : (initial told).Noted [] where
  met milestone cost h := by
    rw [show (initial told).cheapest = ∅ from rfl, Std.TreeMap.getElem?_emptyc] at h
    cases h
  least _ hbirth := nomatch hbirth

theorem Noted.congr (h : search.Noted births) (hcheapest : after.cheapest = search.cheapest) :
    after.Noted births := by
  obtain ⟨hmet, hleast⟩ := h
  constructor
  · rwa [hcheapest]
  · rwa [hcheapest]

/-- So the cost in the table is the least, and it is there as soon as there is one. -/
theorem Noted.eq_some_iff (h : search.Noted births) (milestone : Milestone) (cost : Cost) :
    search.cheapest[milestone]? = some cost ↔ IsLeast (costsAt births milestone) cost := by
  constructor
  · intro hcost
    refine ⟨h.met milestone cost hcost, ?_⟩
    rintro _ ⟨birth, hbirth, hmeets, rfl⟩
    obtain ⟨seen, hseen, hle⟩ := h.least birth hbirth milestone hmeets
    obtain rfl : seen = cost := Option.some.inj (hseen.symm.trans hcost)
    exact hle
  · rintro ⟨⟨birth, hbirth, hmeets, rfl⟩, hlower⟩
    obtain ⟨seen, hseen, hle⟩ := h.least birth hbirth milestone hmeets
    have hge := hlower (h.met milestone seen hseen)
    rw [hseen, Capped.ext (Nat.le_antisymm hle hge)]

/-- Taking up a child raises no cost in the table. -/
theorem exists_takeUp_cheapest_le {milestone : Milestone} {cost : Cost}
    (h : search.cheapest[milestone]? = some cost) (child : Node) (split : Split) (choice : Nat) :
    ∃ lower, (search.takeUp child split choice).cheapest[milestone]? = some lower ∧
      lower ≤ cost := by
  have hnoted (houtrun : search.isOutrun child.layout split = false) :
      ∃ lower, (search.noteMilestone child.layout split).cheapest[milestone]? = some lower ∧
        lower ≤ cost := by
    unfold isOutrun at houtrun
    unfold noteMilestone
    cases hmilestone : milestone? child.layout split with
    | none => exact ⟨cost, h, Nat.le_refl _⟩
    | some other =>
      simp only [hmilestone] at houtrun
      by_cases heq : other = milestone
      · subst heq
        rw [h] at houtrun
        have hlt : ¬ cost ≤ child.layout.cost := of_decide_eq_false houtrun
        exact ⟨child.layout.cost, by simp, Nat.le_of_not_le hlt⟩
      · refine ⟨cost, ?_, Nat.le_refl _⟩
        simp [Std.TreeMap.getElem?_insert, heq, h]
  rcases takeUp_cases search child split choice with ⟨_, heq⟩ | ⟨hrun, _, heq⟩ | ⟨hrun, _, heq⟩
  · rw [heq]
    exact ⟨cost, h, Nat.le_refl _⟩
  · rw [heq]
    exact hnoted hrun
  · rw [heq]
    exact hnoted hrun

/-- A child born at a milestone leaves there a cost no greater than its own. -/
theorem exists_takeUp_cheapest {milestone : Milestone}
    (h : milestone? child.layout split = some milestone) (search : Search) (choice : Nat) :
    ∃ cost, (search.takeUp child split choice).cheapest[milestone]? = some cost ∧
      cost ≤ child.layout.cost := by
  have hnoted : (search.noteMilestone child.layout split).cheapest[milestone]? =
      some child.layout.cost := by
    unfold noteMilestone
    rw [h]
    simp
  rcases takeUp_cases search child split choice with ⟨hrun, heq⟩ | ⟨_, _, heq⟩ | ⟨_, _, heq⟩
  · obtain ⟨other, seen, hother, hseen, hle⟩ := exists_seen_of_isOutrun hrun
    obtain rfl : other = milestone := Option.some.inj (hother.symm.trans h)
    rw [heq]
    exact ⟨seen, hseen, hle⟩
  · rw [heq]
    exact ⟨_, hnoted, Nat.le_refl _⟩
  · rw [heq]
    exact ⟨_, hnoted, Nat.le_refl _⟩

theorem Noted.takeUp (h : search.Noted births)
    (hnext : node.next limit split boundary = .ok child) (choice : Nat) :
    (search.takeUp child split choice).Noted
      (births ++ [⟨.extension, node.layout, split, child.layout⟩]) := by
  have hmilestone := milestone?_of_next hnext
  constructor
  · intro milestone cost hcost
    rcases takeUp_cheapest hcost with hbefore | ⟨hnew, rfl⟩
    · obtain ⟨birth, hbirth, hmeets⟩ := h.met milestone cost hbefore
      exact ⟨birth, List.mem_append_left _ hbirth, hmeets⟩
    · rw [hmilestone, Option.map_eq_some_iff] at hnew
      obtain ⟨marker, hmarker, rfl⟩ := hnew
      exact ⟨_, List.mem_append_right _ (List.mem_singleton_self _), ⟨hmarker, rfl⟩, rfl⟩
  · intro birth hbirth milestone hmeets
    rcases List.mem_append.mp hbirth with hold | hnew
    · obtain ⟨cost, hcost, hle⟩ := h.least birth hold milestone hmeets
      obtain ⟨lower, hlower, hle'⟩ := exists_takeUp_cheapest_le hcost child split choice
      exact ⟨lower, hlower, Nat.le_trans hle' hle⟩
    · obtain rfl := List.mem_singleton.mp hnew
      obtain ⟨hmarker, hdepth⟩ := hmeets
      apply exists_takeUp_cheapest
      rw [hmilestone, hmarker]
      exact congrArg (fun depth => some (Milestone.mk milestone.marker depth)) hdepth

/-! ## The other tables -/

/-- What is left of `Tabled` when a completion stores nodes past the frontier and the table of
outlooks. -/
structure Indexed (problem : Problem) (search : Search) : Prop extends Grown problem search where
  frontier : ∀ entry ∈ search.frontier.toList, entry.id < search.tree.size
  best : ∀ outlook id, search.best[outlook]? = some id →
    id < search.tree.size ∧ (search.tree.get id).layout.outlook = outlook

theorem Tabled.indexed (h : search.Tabled problem) : search.Indexed problem where
  toGrown := h.toGrown
  frontier entry hentry := (h.frontier entry hentry).1
  best := h.best

namespace Indexed

theorem sameTables (h : search.Indexed problem) (hsame : after.SameTables search) :
    after.Indexed problem where
  toGrown := h.toGrown.congr hsame.tree hsame.choices
  frontier := by
    rw [hsame.frontier, hsame.tree]
    exact h.frontier
  best := by
    rw [hsame.best, hsame.tree]
    exact h.best

theorem store (h : search.Indexed problem) (hid : id < search.tree.size)
    (hslot : problem.slots[(search.tree.get id).layout.depth]? = some slot)
    (hoption : (split, choice) ∈ slot.options (search.tree.get id).layout.constraints)
    (hnext : (search.tree.get id).next problem.limit split slot.boundary = .ok child) :
    (search.store child choice).1.Indexed problem where
  toGrown := h.toGrown.store hid hslot hoption hnext
  frontier entry hentry := by
    rw [store_size]
    exact Nat.lt_succ_of_lt (h.frontier entry hentry)
  best outlook kept hkept := by
    obtain ⟨hlt, houtlook⟩ := h.best outlook kept hkept
    rw [store_size, store_get_of_lt search child choice hlt]
    exact ⟨Nat.lt_succ_of_lt hlt, houtlook⟩

end Indexed

/-! ## The invariant -/

/-- The search fits what it is at. -/
def Fits (problem : Problem) (search : Search) : Phase → Prop
  | .choosing => search.Tabled problem
  | .taken id => search.Tabled problem ∧ id < search.tree.size
  | .extending id slot options => search.Extending problem slot id (search.tree.get id) ∧
      ∀ option ∈ options, option ∈ slot.options (search.tree.get id).layout.constraints
  | .completing id ahead => search.Indexed problem ∧ id < search.tree.size ∧
      problem.slots.toList.drop (search.tree.get id).layout.depth = ahead
  | .weighing id slot ahead options seen => search.Indexed problem ∧ id < search.tree.size ∧
      problem.slots.toList.drop (search.tree.get id).layout.depth = slot :: ahead ∧
      (∀ option ∈ options, option ∈ slot.options (search.tree.get id).layout.constraints) ∧
      ∀ child choice, seen = some (child, choice) → ∃ split,
        (split, choice) ∈ slot.options (search.tree.get id).layout.constraints ∧
        (search.tree.get id).next problem.limit split slot.boundary = .ok child

variable {phase : Phase}

theorem Fits.tabled (h : search.Fits problem phase) (hphase : ¬ phase.IsCompletion) :
    search.Tabled problem := by
  cases phase with
  | choosing => exact h
  | taken id => exact h.1
  | extending id slot options => exact h.1.tabled
  | completing id ahead => exact absurd trivial hphase
  | weighing id slot ahead options seen => exact absurd trivial hphase

theorem Fits.indexed (h : search.Fits problem phase) : search.Indexed problem := by
  cases phase with
  | choosing => exact Tabled.indexed h
  | taken id => exact h.1.indexed
  | extending id slot options => exact h.1.tabled.indexed
  | completing id ahead => exact h.1
  | weighing id slot ahead options seen => exact h.1

theorem Fits.node_lt (h : search.Fits problem phase) (hnode : phase.node? = some id) :
    id < search.tree.size := by
  cases phase with
  | choosing => cases hnode
  | taken id =>
    cases hnode
    exact h.2
  | extending id slot options =>
    cases hnode
    exact h.1.id_lt
  | completing id ahead =>
    cases hnode
    exact h.2.1
  | weighing id slot ahead options seen =>
    cases hnode
    exact h.2.1

/-- One small step keeps the fit. -/
theorem Step.fits {before later : Moment} (hstep : Step problem cap before later)
    (h : before.search.Fits problem before.phase) : later.search.Fits problem later.phase := by
  cases hstep with
  | pop pop_eq =>
    have htabled : Tabled problem _ := h
    have hentry := (Heap.mem_iff_of_pop? pop_eq).mpr (.inl rfl)
    exact ⟨htabled.pop pop_eq, (htabled.frontier _ hentry).1⟩
  | skip => exact h.1
  | @setOut search births id slot current slot_eq below =>
    obtain ⟨htabled, hid⟩ := h
    have hsame := sameTables_setOut search (search.tree.get id) slot
    refine ⟨⟨htabled.sameTables hsame, ?_, rfl, ?_⟩, ?_⟩
    · rwa [hsame.tree]
    · rwa [hsame.tree]
    · rw [hsame.tree]
      exact fun _ hoption => hoption
  | @child search births id slot split choice options child next_eq =>
    obtain ⟨hextending, hoptions⟩ := h
    have hafter := hextending.takeUp (hoptions _ List.mem_cons_self) next_eq
    refine ⟨⟨hafter.tabled, hafter.id_lt, rfl, ?_⟩, ?_⟩
    · rw [hafter.get_eq]
      exact hafter.slot_eq
    · rw [hafter.get_eq]
      exact fun option hoption => hoptions option (List.mem_cons_of_mem _ hoption)
  | done => exact h.1.tabled
  | cut => exact ⟨h.1.indexed.sameTables (sameTables_log _ _), h.2, rfl⟩
  | @tell search births id slot ahead =>
    obtain ⟨hindexed, hid, hahead⟩ := h
    have hsame := sameTables_logConflict search slot (search.tree.get id).layout
    refine ⟨hindexed.sameTables hsame, ?_, ?_, ?_, fun _ _ hseen => nomatch hseen⟩
    · rwa [hsame.tree]
    · rwa [hsame.tree]
    · rw [hsame.tree]
      exact fun _ hoption => hoption
  | @weigh search births id slot ahead split choice options seen child next_eq =>
    obtain ⟨hindexed, hid, hahead, hoptions, hseen⟩ := h
    refine ⟨hindexed, hid, hahead, ?_, ?_⟩
    · exact fun option hoption => hoptions option (List.mem_cons_of_mem _ hoption)
    · intro best place hbest
      rcases prefer_cases seen child choice with hnew | ⟨hold, _⟩
      · cases hnew.symm.trans hbest
        exact ⟨split, hoptions _ List.mem_cons_self, next_eq⟩
      · exact hseen best place (hold.symm.trans hbest)
  | @fill search births id slot ahead child choice =>
    obtain ⟨hindexed, hid, hahead, _, hseen⟩ := h
    obtain ⟨split, hoption, hnext⟩ := hseen child choice rfl
    refine ⟨hindexed.store hid (getElem?_of_drop_eq hahead) hoption hnext, ?_, ?_⟩
    · rw [store_size]
      exact Nat.lt_succ_self _
    · exact drop_depth_store hahead hnext choice

/-- One small step keeps the table of milestones right for the children that came of extending
nodes. A completion notes nothing. -/
theorem Step.noted {before later : Moment} (hstep : Step problem cap before later)
    (h : before.search.Noted (byExtension before.births)) :
    later.search.Noted (byExtension later.births) := by
  cases hstep with
  | child next_eq =>
    rw [byExtension_snoc, if_pos rfl]
    exact h.takeUp next_eq _
  | weigh =>
    rw [byExtension_snoc, if_neg (by simp)]
    exact h
  | setOut => exact h.congr (sameTables_setOut _ _ _).cheapest
  | tell => exact h.congr (sameTables_logConflict _ _ _).cheapest
  | pop | skip | done | cut | fill => exact h.congr rfl

/-- Until a completion begins, all children come of extending nodes. -/
theorem Step.byExtension_eq {before later : Moment} (hstep : Step problem cap before later)
    (h : ¬ before.phase.IsCompletion → byExtension before.births = before.births)
    (hphase : ¬ later.phase.IsCompletion) : byExtension later.births = later.births := by
  cases hstep with
  | child => rw [byExtension_snoc, if_pos rfl, h id]
  | pop | skip | setOut | done => exact h id
  | cut | tell | weigh | fill => exact absurd trivial hphase

/-! ## The children -/

/-- Every stored node but the start was born, and so was the best child so far of the node that is
being completed. -/
structure Born (moment : Moment) : Prop where
  stored : ∀ id < moment.search.tree.size, id ≠ NodeId.start →
    ∃ birth ∈ moment.births, birth.child = (moment.search.tree.get id).layout
  candidate : ∀ child choice, moment.phase.candidate? = some (child, choice) →
    ∃ birth ∈ moment.births, birth.child = child.layout

/-- One small step stores no node that was not born. -/
theorem Step.born {before later : Moment} (hstep : Step problem cap before later)
    (h : Born before) : Born later := by
  obtain ⟨hstored, hcandidate⟩ := h
  cases hstep with
  | pop | skip | done | cut => exact ⟨hstored, fun _ _ hnone => nomatch hnone⟩
  | @setOut search births id slot =>
    refine ⟨?_, fun _ _ hnone => nomatch hnone⟩
    rw [(sameTables_setOut search (search.tree.get id) slot).tree]
    exact hstored
  | @tell search births id slot =>
    refine ⟨?_, fun _ _ hnone => nomatch hnone⟩
    rw [(sameTables_logConflict search slot (search.tree.get id).layout).tree]
    exact hstored
  | @child search births id slot split choice options child next_eq =>
    refine ⟨?_, fun _ _ hnone => nomatch hnone⟩
    intro other hother hne
    rcases takeUp_get search child split choice hother with ⟨hlt, hget⟩ | hlayout
    · obtain ⟨birth, hbirth, heq⟩ := hstored other hlt hne
      exact ⟨birth, List.mem_append_left _ hbirth, heq.trans (congrArg Node.layout hget.symm)⟩
    · exact ⟨_, List.mem_append_right _ (List.mem_singleton_self _), hlayout.symm⟩
  | @weigh search births id slot ahead split choice options seen child next_eq =>
    constructor
    · intro other hother hne
      obtain ⟨birth, hbirth, heq⟩ := hstored other hother hne
      exact ⟨birth, List.mem_append_left _ hbirth, heq⟩
    · intro best place hbest
      rcases prefer_cases seen child choice with hnew | ⟨hold, _⟩
      · cases hnew.symm.trans hbest
        exact ⟨_, List.mem_append_right _ (List.mem_singleton_self _), rfl⟩
      · obtain ⟨birth, hbirth, heq⟩ := hcandidate best place (hold.symm.trans hbest)
        exact ⟨birth, List.mem_append_left _ hbirth, heq⟩
  | @fill search births id slot ahead child choice =>
    refine ⟨?_, fun _ _ hnone => nomatch hnone⟩
    intro other hother hne
    rw [store_size] at hother
    rcases Nat.lt_succ_iff_lt_or_eq.mp hother with hlt | rfl
    · rw [store_get_of_lt search child choice hlt]
      exact hstored other hlt hne
    · rw [store_get_size]
      exact hcandidate child choice rfl

/-! ## Along a search -/

theorem UnderWay.fits {moment : Moment} (h : UnderWay problem cap told moment) :
    moment.search.Fits problem moment.phase := by
  induction h with
  | refl => exact tabled_initial problem told
  | tail _ hstep ih => exact hstep.fits ih

theorem UnderWay.noted {moment : Moment} (h : UnderWay problem cap told moment) :
    moment.search.Noted (byExtension moment.births) := by
  induction h with
  | refl => exact noted_initial told
  | tail _ hstep ih => exact hstep.noted ih

theorem UnderWay.byExtension_eq {moment : Moment} (h : UnderWay problem cap told moment)
    (hphase : ¬ moment.phase.IsCompletion) : byExtension moment.births = moment.births := by
  induction h with
  | refl => rfl
  | tail _ hstep ih => exact hstep.byExtension_eq ih hphase

theorem UnderWay.born {moment : Moment} (h : UnderWay problem cap told moment) : Born moment := by
  induction h with
  | refl =>
    refine ⟨?_, fun _ _ hnone => nomatch hnone⟩
    exact fun id hid hne => absurd (Nat.lt_one_iff.mp hid) hne
  | tail _ hstep ih => exact hstep.born ih

/-- A stored node but the start is what becomes of its parent by the split noted for it. -/
theorem Grown.exists_next (h : search.Grown problem) (hid : id < search.tree.size)
    (hne : id ≠ NodeId.start) :
    ∃ parent < id, (search.tree.get id).parent = some parent ∧
      (search.tree.get id).layout.depth = (search.tree.get parent).layout.depth + 1 ∧
      ∃ slot choice split, problem.slots[(search.tree.get id).layout.depth - 1]? = some slot ∧
        search.choices[id]? = some choice ∧ slot.splits[choice]? = some split ∧
        (search.tree.get parent).next problem.limit split slot.boundary =
          .ok ⟨none, (search.tree.get id).parent, (search.tree.get id).layout⟩ := by
  obtain ⟨parent, hlt, hparent, hextends⟩ := h.grown id hid hne
  have hdepth := depth_of_extends hextends
  obtain ⟨slot, split, choice, hslot, hchoice, hsplit, _, hstep⟩ := hextends
  refine ⟨parent, hlt, hparent, hdepth, slot, choice, split, ?_, hchoice, hsplit, ?_⟩
  · rwa [hdepth, Nat.add_sub_cancel]
  · refine Node.next_eq_ok_iff.mpr ⟨_, hstep, ?_⟩
    rw [h.id_eq parent (Nat.lt_trans hlt hid), hparent]

/-- No split of a solution is lost to a place that is not there. -/
theorem Grown.length_splits (h : search.Grown problem) (hid : id < search.tree.size)
    (ending : Ending) :
    (search.solution problem id ending).splits.length = (search.tree.get id).layout.depth := by
  have hlength := (h.path hid ending).length_eq
  have hdepth := h.depth_le hid
  rw [List.length_take, Array.length_toList, Nat.min_eq_left hdepth] at hlength
  exact hlength.symm

end Search

open Search in
/-- At every moment of a search the tables fit one another. Between any two turns a search is at
some moment, and all moments are on the way to the one where it ends. At every moment each stored
node has a choice. A stored node but the start is one boundary deeper than its parent, which was
stored earlier, and no deeper than there are slots. Its choice is the place of a split in the offer
of its last slot, and it is what becomes of its parent by that split. The frontier and the table of
outlooks have stored nodes only, the latter each under its own outlook. Until a completion begins,
the table of outlooks has for each stored node but the start one that costs no more, and the table
of milestones has the least cost at which any child was born at the milestone, where there is one.
What a completion does then changes nothing there: the costs are the least of the children that
came of extending nodes. All stored nodes but the start are among the children. The node that the
search is busy with is stored, and a solution read off a stored node has a split for each boundary
that is filled there. -/
theorem the_tables_fit_at_every_moment (problem : Problem) (cap : Nat) (told : Array Event) :
    (∀ search, Reaches problem cap (initial told) search →
      ∃ births, UnderWay problem cap told ⟨.choosing, search, births⟩) ∧
    (∃ phase births, UnderWay problem cap told
        ⟨phase, (run problem cap (initial told)).1, births⟩ ∧
      ∀ moment, UnderWay problem cap told moment →
        LeadsTo problem cap moment ⟨phase, (run problem cap (initial told)).1, births⟩) ∧
    ∀ phase search births, UnderWay problem cap told ⟨phase, search, births⟩ →
      search.choices.size = search.tree.size ∧
      (∀ id < search.tree.size, id ≠ NodeId.start → ∃ parent < id,
        (search.tree.get id).parent = some parent ∧
        (search.tree.get id).layout.depth = (search.tree.get parent).layout.depth + 1 ∧
        (search.tree.get id).layout.depth ≤ problem.slots.size ∧
        ∃ slot choice split, problem.slots[(search.tree.get id).layout.depth - 1]? = some slot ∧
          search.choices[id]? = some choice ∧ slot.splits[choice]? = some split ∧
          (search.tree.get parent).next problem.limit split slot.boundary =
            .ok ⟨none, (search.tree.get id).parent, (search.tree.get id).layout⟩) ∧
      (∀ entry ∈ search.frontier.toList, entry.id < search.tree.size) ∧
      (∀ outlook id, search.best[outlook]? = some id →
        id < search.tree.size ∧ (search.tree.get id).layout.outlook = outlook) ∧
      (¬ phase.IsCompletion → ∀ id < search.tree.size, id ≠ NodeId.start →
        ∃ kept, search.best[(search.tree.get id).layout.outlook]? = some kept ∧
          (search.tree.get kept).layout.cost ≤ (search.tree.get id).layout.cost) ∧
      (¬ phase.IsCompletion → ∀ (milestone : Milestone) cost,
        search.cheapest[milestone]? = some cost ↔ IsLeast (costsAt births milestone) cost) ∧
      (∀ (milestone : Milestone) cost, search.cheapest[milestone]? = some cost ↔
        IsLeast (costsAt (byExtension births) milestone) cost) ∧
      (∀ id < search.tree.size, id ≠ NodeId.start →
        ∃ birth ∈ births, birth.child = (search.tree.get id).layout) ∧
      (∀ id, phase.node? = some id → id < search.tree.size) ∧
      ∀ id < search.tree.size, ∀ ending,
        (search.solution problem id ending).splits.length =
          (search.tree.get id).layout.depth := by
  refine ⟨fun _ h => h.exists_underWay, exists_end_of_underWay problem cap told, ?_⟩
  intro phase search births h
  have hfits : search.Fits problem phase := h.fits
  have hindexed := hfits.indexed
  have hnoted : search.Noted (byExtension births) := h.noted
  refine ⟨hindexed.choices_size, ?_, hindexed.frontier, hindexed.best, ?_, ?_,
    hnoted.eq_some_iff, h.born.stored, ?_, ?_⟩
  · intro id hid hne
    obtain ⟨parent, hlt, hparent, hdepth, hnext⟩ := hindexed.exists_next hid hne
    exact ⟨parent, hlt, hparent, hdepth, hindexed.depth_le hid, hnext⟩
  · exact fun hphase => (hfits.tabled hphase).kept
  · intro hphase
    have hall : byExtension births = births := h.byExtension_eq hphase
    rw [hall] at hnoted
    exact hnoted.eq_some_iff
  · exact fun id hnode => hfits.node_lt hnode
  · exact fun id hid ending => hindexed.length_splits hid ending

/-- One slot, whose two splits carry one marker. -/
def markedTwice : Problem :=
  ⟨#[⟨⟨⟨"", 0⟩, ⟨"a", 1⟩⟩, [(Split.nothing 5).withMarker 7, (Split.nothing 3).withMarker 7]⟩],
    ⟨25, 50, by decide⟩⟩

/-- When both children are born, the cheaper one is in the table. -/
theorem the_cheaper_birth_is_noted :
    ∃ phase search births, Search.UnderWay markedTwice 1 #[] ⟨phase, search, births⟩ ∧
      ¬ phase.IsCompletion ∧ births.length = 2 ∧
      search.cheapest[(⟨7, 0⟩ : Milestone)]? = some 3 := by
  have h : Search.UnderWay markedTwice 1 #[] ⟨_, _, _⟩ :=
    .tail (.tail (.tail (.single (.pop rfl)) (.setOut rfl rfl (by decide))) (.child rfl))
      (.child rfl)
  obtain ⟨_, _, hfit⟩ := the_tables_fit_at_every_moment markedTwice 1 #[]
  obtain ⟨_, _, _, _, _, hleast, _⟩ := hfit _ _ _ h
  exact ⟨_, _, _, h, id, rfl, (hleast id ⟨7, 0⟩ 3).mpr (Search.isLeast_costsAt_iff.mpr (by decide))⟩

/-- Where no node may be extended, a completion bears the same two children, and the milestone is
not in the table. -/
theorem a_completion_notes_no_milestone :
    Slot.check markedTwice.slots.toList = .ok () ∧
    ¬ ∀ phase search births, Search.UnderWay markedTwice 0 #[] ⟨phase, search, births⟩ →
      ∀ (milestone : Milestone) cost, search.cheapest[milestone]? = some cost ↔
        IsLeast (Search.costsAt births milestone) cost := by
  refine ⟨by decide, fun hall => ?_⟩
  have h : Search.UnderWay markedTwice 0 #[] ⟨_, _, _⟩ :=
    .tail (.tail (.tail (.tail (.tail (.single (.pop rfl)) (.cut rfl rfl (by decide))) .tell)
      (.weigh rfl)) (.weigh rfl)) .fill
  have hcost := (hall _ _ _ h ⟨7, 0⟩ 3).mpr (Search.isLeast_costsAt_iff.mpr (by decide))
  -- the table is still empty
  cases hcost

end LineBreak
