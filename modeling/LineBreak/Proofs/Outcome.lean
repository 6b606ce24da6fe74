-- How a search can end. It always ends, it never runs out of layouts to
-- extend, and it fails only where a split on offer opens a scope that is over.
import LineBreak.Proofs.Completion

namespace LineBreak

/-! ## Well-formed slots -/

namespace Slot

theorem checkFrom_cons_eq_ok_iff {slot : Slot} {slots : List Slot} {index previous : Nat} :
    checkFrom index previous (slot :: slots) = .ok () ↔
      slot.splits ≠ [] ∧ slot.boundary.Ordered ∧ previous ≤ slot.boundary.left.stop ∧
        checkFrom (index + 1) slot.boundary.left.stop slots = .ok () := by
  rw [checkFrom]
  by_cases hoffers : slot.splits = []
  · simp [hoffers]
  · by_cases hordered : slot.boundary.Ordered
    · by_cases hprevious : slot.boundary.left.stop < previous
      · simp [hoffers, hordered, hprevious, Nat.not_le_of_lt hprevious]
      · simp [hoffers, hordered, hprevious, Nat.le_of_not_lt hprevious]
    · simp [hoffers, hordered]

theorem forall_of_checkFrom {slots : List Slot} {index previous : Nat}
    (h : checkFrom index previous slots = .ok ()) :
    ∀ slot ∈ slots, slot.splits ≠ [] ∧ slot.boundary.Ordered := by
  induction slots generalizing index previous with
  | nil => exact fun _ hmem => (nomatch hmem)
  | cons first slots ih =>
    obtain ⟨hoffers, hordered, _, hrest⟩ := checkFrom_cons_eq_ok_iff.mp h
    exact List.forall_mem_cons.mpr ⟨⟨hoffers, hordered⟩, ih hrest⟩

theorem fault_of_checkFrom {slots : List Slot} {index previous : Nat} {fault : Fault}
    (h : checkFrom index previous slots = .error fault) :
    (∃ i, fault = .noSplits i) ∨ ∃ i, fault = .tokenOrder i := by
  induction slots generalizing index previous with
  | nil => cases h
  | cons first slots ih =>
    unfold checkFrom at h
    split at h
    · cases h
      exact Or.inl ⟨index, rfl⟩
    · split at h
      · cases h
        exact Or.inr ⟨index, rfl⟩
      · exact ih h

/-- One of the splits on offer opens a scope that is over at the boundary. -/
def OffersExpired (slot : Slot) : Prop :=
  ∃ split ∈ slot.splits, ∃ scope ∈ split.scopes, ¬ scope.LiveAt slot.boundary

instance (slot : Slot) : Decidable slot.OffersExpired :=
  inferInstanceAs (Decidable (∃ split ∈ slot.splits, ∃ scope ∈ split.scopes,
    ¬ scope.LiveAt slot.boundary))

theorem opensAt_of_not_offersExpired {slot : Slot} {split : Split} (h : ¬ slot.OffersExpired)
    (hsplit : split ∈ slot.splits) : split.OpensAt slot.boundary := by
  intro scope hscope
  by_contra hover
  exact h ⟨split, hsplit, scope, hscope, hover⟩

/-- Where nothing is constrained, a passable slot offers no scope that is over. -/
theorem Passable.not_offersExpired {slot : Slot} {limit : Limit} {layout : Layout}
    (h : slot.Passable limit layout) (hfree : layout.constraints = []) : ¬ slot.OffersExpired := by
  rintro ⟨split, hsplit, scope, hscope, hover⟩
  have hallowed : slot.Allows layout.constraints split := by
    rw [hfree]
    exact ⟨hsplit, Or.inl rfl⟩
  obtain ⟨choice, hoption⟩ := hallowed.exists_option
  obtain ⟨after, hstep⟩ := h _ hoption
  obtain ⟨_, hopens, _⟩ := Layout.step_eq_ok_iff.mp hstep
  exact hover (hopens scope hscope)

end Slot

/-- No split on offer carries a constraint. -/
def Unconstrained (slots : List Slot) : Prop :=
  ∀ slot ∈ slots, ∀ split ∈ slot.splits, split.constraint = none

theorem Visited.constraints_eq_nil {problem : Problem} {layout : Layout}
    (h : Visited problem layout) (hfree : Unconstrained problem.slots.toList) :
    layout.constraints = [] := by
  induction h with
  | start => rfl
  | step _ slot_eq _ allowed step_eq ih =>
    obtain ⟨_, _, rfl⟩ := Layout.step_eq_ok_iff.mp step_eq
    rw [← Array.getElem?_toList] at slot_eq
    have hnone := hfree _ (List.mem_of_getElem? slot_eq) _ allowed.1
    simp [Layout.extend, Constraints.combine, ih, hnone]

/-- Where nothing is constrained, no slot before a visited layout offers a scope that is over. -/
theorem Visited.not_offersExpired {problem : Problem} {layout : Layout}
    (h : Visited problem layout) (hfree : Unconstrained problem.slots.toList) {i : Nat}
    {slot : Slot} (hi : i < layout.depth) (hslot : problem.slots[i]? = some slot) :
    ¬ slot.OffersExpired := by
  obtain ⟨earlier, slot', hearlier, _, hslot', hpass⟩ := h.exists_passable hi
  obtain rfl : slot = slot' := Option.some.inj (hslot.symm.trans hslot')
  exact hpass.not_offersExpired (hearlier.constraints_eq_nil hfree)

/-! ## What a fault tells -/

theorem Layout.step_eq_error_of_ordered {layout : Layout} {limit : Limit} {split : Split}
    {boundary : Boundary} {fault : Fault} (hordered : boundary.Ordered)
    (h : layout.step limit split boundary = .error fault) :
    fault = .expiredScope layout.depth ∧ ¬ split.OpensAt boundary := by
  unfold step at h
  rw [if_neg (not_not_intro hordered)] at h
  split at h
  · rename_i hopens
    cases h
    exact ⟨rfl, hopens⟩
  · cases h

namespace Search

variable {problem : Problem} {cap : Nat} {told : Array Event} {fault : Fault}

/-- In well-formed slots a fault is a scope that is over, at the depth of a visited layout. -/
theorem AtFault.expired (h : AtFault problem fault)
    (hordered : ∀ slot ∈ problem.slots.toList, slot.boundary.Ordered) :
    ∃ layout slot, Visited problem layout ∧ fault = .expiredScope layout.depth ∧
      problem.slots[layout.depth]? = some slot ∧ slot.OffersExpired := by
  obtain ⟨layout, slot, split, hvisited, hslot, hsplit, hstep⟩ := h
  have hmem : slot ∈ problem.slots.toList := by
    rw [← Array.getElem?_toList] at hslot
    exact List.mem_of_getElem? hslot
  obtain ⟨hfault, hopens⟩ := Layout.step_eq_error_of_ordered (hordered slot hmem) hstep
  refine ⟨layout, slot, hvisited, hfault, hslot, ?_⟩
  by_contra hnone
  exact hopens (Slot.opensAt_of_not_offersExpired hnone hsplit)

/-! ## The outcome of a run -/

/-- Being a layout at all lasts: every slot has an option. -/
theorem lasting_true (hoffers : ∀ slot ∈ problem.slots.toList, slot.splits ≠ []) :
    Lasting problem fun _ => True where
  outlook _ _ _ _ h := h
  marker _ _ _ _ _ _ _ h := h
  child layout slot hslot hpass _ := by
    rw [← Array.getElem?_toList] at hslot
    have hne := Slot.options_ne_nil layout.constraints (hoffers slot (List.mem_of_getElem? hslot))
    obtain ⟨option, hoption⟩ := List.exists_mem_of_ne_nil _ hne
    obtain ⟨after, hstep⟩ := hpass option hoption
    exact ⟨option, hoption, after, hstep, trivial⟩

/-- A run ends with all boundaries filled, or with a fault that some split is to blame for. The
frontier never runs dry, since being a layout lasts. -/
theorem run_cases (cap : Nat) (told : Array Event)
    (hoffers : ∀ slot ∈ problem.slots.toList, slot.splits ≠ []) :
    (∃ after id ending, run problem cap (initial told) = (after, .ok (id, ending)) ∧
      after.Completable problem id ∧ (after.tree.get id).layout.depth = problem.slots.size) ∨
    ∃ after fault, run problem cap (initial told) = (after, .error fault) ∧
      AtFault problem fault := by
  obtain ⟨last, hreaches, hstop⟩ := run_stops problem cap (initial told)
  generalize run problem cap (initial told) = outcome at hstop ⊢
  obtain ⟨after, outcome⟩ := outcome
  have htabled := hreaches.tabled
  have hseen := hreaches.seen
  rcases turn_stop_cases hstop with ⟨hempty, _⟩ | ⟨entry, rest, hpop, _, hcases⟩
  · obtain ⟨entry, hlive, _⟩ := hreaches.exists_live (lasting_true hoffers) trivial
    rw [Heap.pop?_eq_none_iff] at hempty
    have hmem := hlive.1
    rw [hempty] at hmem
    cases hmem
  · have hentry := (Heap.mem_iff_of_pop? hpop).mpr (Or.inl rfl)
    have hlt := (htabled.frontier entry hentry).1
    have hpopped : { last with frontier := rest }.Completable problem entry.id :=
      ⟨(htabled.pop hpop).toGrown, hseen, hlt⟩
    rcases hcases with ⟨hdone, rfl, rfl⟩ | ⟨slot, hslot, ⟨_, heq⟩ | ⟨_, fault, rfl, hexpand⟩⟩
    · refine Or.inl ⟨_, entry.id, .optimal, rfl, hpopped, ?_⟩
      have hle := htabled.toGrown.depth_le hlt
      rw [Array.getElem?_eq_none_iff] at hdone
      exact Nat.le_antisymm hle hdone
    · rcases truncate_cases hoffers hpopped with
        ⟨final, id, htruncate, hfinal, hdepth⟩ | ⟨final, fault, htruncate, hfault⟩
      · obtain ⟨rfl, rfl⟩ := Prod.mk.inj (heq.trans htruncate)
        exact Or.inl ⟨_, id, .truncated, rfl, hfinal, hdepth⟩
      · obtain ⟨rfl, rfl⟩ := Prod.mk.inj (heq.trans htruncate)
        exact Or.inr ⟨_, fault, rfl, hfault⟩
    · obtain ⟨told, _, _, hbranch⟩ := expand_cases hexpand
      obtain ⟨option, hoption, hfault⟩ := fault_of_branch hbranch
      exact Or.inr ⟨_, fault, rfl, atFault_of_next (hseen entry.id hlt) hslot hoption hfault⟩

end Search

/-! ## The outcome of a search -/

namespace Slot

variable {slots : List Slot} {settings : Settings}

theorem exists_effectiveLimit (slots : List Slot) (h : 0 < settings.maxWidth.val) :
    ∃ limit, effectiveLimit slots settings = .ok limit := by
  unfold effectiveLimit Settings.limit Limit.make
  rw [dif_pos h]
  exact ⟨_, rfl⟩

theorem fault_of_effectiveLimit {fault : Fault} (h : effectiveLimit slots settings = .error fault) :
    fault = .zeroWidth := by
  unfold effectiveLimit Settings.limit Limit.make at h
  split at h
  · cases h
  · cases h
    rfl

/-- Slots and settings that a search accepts, with the limit it runs under. -/
structure Accepted (slots : List Slot) (settings : Settings) (limit : Limit) : Prop where
  check : Slot.check slots = .ok ()
  limit_eq : effectiveLimit slots settings = .ok limit

theorem Accepted.offers {limit : Limit} (h : Accepted slots settings limit) :
    ∀ slot ∈ slots, slot.splits ≠ [] := fun slot hmem => (forall_of_checkFrom h.check slot hmem).1

theorem Accepted.ordered {limit : Limit} (h : Accepted slots settings limit) :
    ∀ slot ∈ slots, slot.boundary.Ordered :=
  fun slot hmem => (forall_of_checkFrom h.check slot hmem).2

end Slot

section

variable {slots : List Slot} {settings : Settings} {limit : Limit} {solution : Solution}
  {fault : Fault}

/-- Slots that are not accepted are refused before anything is searched. -/
theorem accepted_or_refused (slots : List Slot) (settings : Settings) :
    (∃ limit, Slot.Accepted slots settings limit) ∨
      ∃ fault, search slots settings = .error fault ∧
        ((∃ i, fault = .noSplits i) ∨ (∃ i, fault = .tokenOrder i) ∨ fault = .zeroWidth) := by
  unfold search Report.ofSlots
  cases hcheck : Slot.check slots with
  | error fault =>
    refine Or.inr ⟨fault, rfl, ?_⟩
    rcases Slot.fault_of_checkFrom hcheck with h | h
    · exact Or.inl h
    · exact Or.inr (Or.inl h)
  | ok _ =>
    cases hlimit : Slot.effectiveLimit slots settings with
    | error fault =>
      exact Or.inr ⟨fault, rfl, Or.inr (Or.inr (Slot.fault_of_effectiveLimit hlimit))⟩
    | ok limit => exact Or.inl ⟨limit, hcheck, hlimit⟩

theorem Slot.Accepted.report_eq (h : Slot.Accepted slots settings limit) :
    Report.ofSlots slots settings = Report.ofProblem ⟨slots.toArray, limit⟩
      settings.maxExpansions (Report.preamble slots settings limit) := by
  unfold Report.ofSlots
  rw [h.check, h.limit_eq]

/-- A search of accepted slots finds a complete layout, or it ends with a fault that some split
is to blame for. -/
theorem search_cases (h : Slot.Accepted slots settings limit) :
    (∃ after id ending,
      (Search.initial (Report.preamble slots settings limit)).run ⟨slots.toArray, limit⟩
        settings.maxExpansions = (after, .ok (id, ending)) ∧
      after.Completable ⟨slots.toArray, limit⟩ id ∧
      (after.tree.get id).layout.depth = slots.length ∧
      search slots settings = .ok (after.solution ⟨slots.toArray, limit⟩ id ending)) ∨
    ∃ fault, search slots settings = .error fault ∧
      Search.AtFault ⟨slots.toArray, limit⟩ fault := by
  have hsearch : search slots settings = _ := congrArg Report.result h.report_eq
  unfold Report.ofProblem at hsearch
  rcases Search.run_cases settings.maxExpansions (Report.preamble slots settings limit)
    (show ∀ slot ∈ (⟨slots.toArray, limit⟩ : Problem).slots.toList, slot.splits ≠ [] from h.offers)
    with ⟨after, id, ending, hrun, hcompletable, hdepth⟩ | ⟨after, fault, hrun, hfault⟩
  · rw [hrun] at hsearch
    exact Or.inl ⟨after, id, ending, hrun, hcompletable, hdepth, hsearch⟩
  · rw [hrun] at hsearch
    exact Or.inr ⟨fault, hsearch, hfault⟩

/-- A solution is read off the run that ended with it. -/
theorem exists_run_of_search_eq_ok (h : search slots settings = .ok solution) :
    Slot.Accepted slots settings solution.limit ∧
    ∃ after id,
      (Search.initial (Report.preamble slots settings solution.limit)).run
        ⟨slots.toArray, solution.limit⟩ settings.maxExpansions =
          (after, .ok (id, solution.ending)) ∧
      after.Completable ⟨slots.toArray, solution.limit⟩ id ∧
      (after.tree.get id).layout.depth = slots.length ∧
      solution = after.solution ⟨slots.toArray, solution.limit⟩ id solution.ending := by
  rcases accepted_or_refused slots settings with ⟨limit, haccepted⟩ | ⟨fault, hfault, _⟩
  · rcases search_cases haccepted with
      ⟨after, id, ending, hrun, hafter, hdepth, hok⟩ | ⟨_, herror, _⟩
    · rw [h] at hok
      cases hok
      exact ⟨haccepted, after, id, hrun, hafter, hdepth, rfl⟩
    · rw [h] at herror
      cases herror
  · rw [h] at hfault
    cases hfault

theorem search_ne_exhausted (slots : List Slot) (settings : Settings) (expanded : Nat) :
    search slots settings ≠ .error (.exhausted expanded) := by
  intro h
  rcases accepted_or_refused slots settings with ⟨limit, haccepted⟩ | ⟨fault, hfault, hkind⟩
  · rcases search_cases haccepted with ⟨_, _, _, _, _, _, hok⟩ | ⟨fault, herror, hfault⟩
    · rw [h] at hok
      cases hok
    · obtain ⟨_, _, _, hexpired, _⟩ := hfault.expired haccepted.ordered
      rw [h, hexpired] at herror
      cases herror
  · rw [h] at hfault
    cases hfault
    rcases hkind with ⟨_, hkind⟩ | ⟨_, hkind⟩ | hkind
    · cases hkind
    · cases hkind
    · cases hkind

/-- A search of accepted slots that fails has come to a scope that is over. Where nothing is
constrained, it has passed all slots before that one. -/
theorem expired_of_search_eq_error (h : Slot.Accepted slots settings limit)
    (hsearch : search slots settings = .error fault) :
    ∃ i slot, fault = .expiredScope i ∧ slots[i]? = some slot ∧ slot.OffersExpired ∧
      (Unconstrained slots → ∀ j < i, ∀ slot, slots[j]? = some slot → ¬ slot.OffersExpired) := by
  rcases search_cases h with ⟨_, _, _, _, _, _, hok⟩ | ⟨fault', herror, hfault⟩
  · rw [hsearch] at hok
    cases hok
  · rw [hsearch] at herror
    cases herror
    obtain ⟨layout, slot, hvisited, rfl, hslot, hexpired⟩ := hfault.expired h.ordered
    refine ⟨layout.depth, slot, rfl, by simpa using hslot, hexpired, ?_⟩
    intro hfree j hj slot' hslot'
    exact hvisited.not_offersExpired hfree hj (by simpa using hslot')

/-- Where nothing is constrained, a search that succeeds has passed every slot. -/
theorem not_offersExpired_of_search_eq_ok (h : search slots settings = .ok solution)
    (hfree : Unconstrained slots) {i : Nat} {slot : Slot} (hslot : slots[i]? = some slot) :
    ¬ slot.OffersExpired := by
  obtain ⟨_, after, id, _, hafter, hdepth, _⟩ := exists_run_of_search_eq_ok h
  have hvisited := hafter.seen id hafter.id_lt
  obtain ⟨hi, _⟩ := List.getElem?_eq_some_iff.mp hslot
  exact hvisited.not_offersExpired hfree (hdepth ▸ hi) (by simpa using hslot)

end

/-- Every search ends, and it never ends for want of layouts. In well-formed slots, with a
positive width, it finds a layout unless some split on offer opens a scope that is over; the
fault names the slot of such a split, and without constraints the first such slot. The number
of expansions allowed plays no part. -/
theorem every_search_ends_with_a_layout_or_an_expired_scope (slots : List Slot)
    (settings : Settings) :
    (∀ limit told, ∃ last,
      Search.Reaches ⟨slots.toArray, limit⟩ settings.maxExpansions (Search.initial told) last ∧
      Search.turn ⟨slots.toArray, limit⟩ settings.maxExpansions last =
        .stop ((Search.initial told).run ⟨slots.toArray, limit⟩ settings.maxExpansions).1
          ((Search.initial told).run ⟨slots.toArray, limit⟩ settings.maxExpansions).2) ∧
    (∀ expanded, search slots settings ≠ .error (.exhausted expanded)) ∧
    (Slot.check slots = .ok () → 0 < settings.maxWidth.val →
      ((∀ slot ∈ slots, ¬ slot.OffersExpired) → ∃ solution, search slots settings = .ok solution) ∧
      (∀ fault, search slots settings = .error fault →
        ∃ i slot, fault = .expiredScope i ∧ slots[i]? = some slot ∧ slot.OffersExpired) ∧
      (Unconstrained slots → ∀ i, search slots settings = .error (.expiredScope i) ↔
        (∃ slot, slots[i]? = some slot ∧ slot.OffersExpired) ∧
          ∀ j < i, ∀ slot, slots[j]? = some slot → ¬ slot.OffersExpired)) := by
  refine ⟨fun limit told => Search.run_stops _ _ _, search_ne_exhausted slots settings, ?_⟩
  intro hcheck hwidth
  obtain ⟨limit, hlimit⟩ := Slot.exists_effectiveLimit slots hwidth
  have haccepted : Slot.Accepted slots settings limit := ⟨hcheck, hlimit⟩
  have hfault := fun (fault : Fault) (h : search slots settings = .error fault) =>
    expired_of_search_eq_error haccepted h
  refine ⟨?_, ?_, ?_⟩
  · intro hnone
    cases hsearch : search slots settings with
    | ok solution => exact ⟨solution, rfl⟩
    | error fault =>
      obtain ⟨_, slot, _, hslot, hexpired, _⟩ := hfault fault hsearch
      exact absurd hexpired (hnone slot (List.mem_of_getElem? hslot))
  · intro fault hsearch
    obtain ⟨i, slot, heq, hslot, hexpired, _⟩ := hfault fault hsearch
    exact ⟨i, slot, heq, hslot, hexpired⟩
  · intro hfree i
    constructor
    · intro hsearch
      obtain ⟨_, slot, heq, hslot, hexpired, hbefore⟩ := hfault _ hsearch
      cases heq
      exact ⟨⟨slot, hslot, hexpired⟩, hbefore hfree⟩
    · rintro ⟨⟨slot, hslot, hexpired⟩, hfirst⟩
      cases hsearch : search slots settings with
      | ok solution =>
        exact absurd hexpired (not_offersExpired_of_search_eq_ok hsearch hfree hslot)
      | error fault =>
        obtain ⟨j, slot', rfl, hslot', hexpired', hbefore⟩ := hfault fault hsearch
        rcases Nat.lt_trichotomy i j with hlt | rfl | hgt
        · exact absurd hexpired (hbefore hfree i hlt slot hslot)
        · rfl
        · exact absurd hexpired' (hfirst j hgt slot' hslot')

/-- Two slots, the second of which offers a scope that ends before the slot. -/
def secondExpired : List Slot :=
  [⟨⟨⟨"", 0⟩, ⟨"a", 1⟩⟩, [.nothing 0]⟩,
   ⟨⟨⟨"a", 1⟩, ⟨"b", 2⟩⟩, [.space 0, (Split.newline 1).withScope ⟨2, .left, 0⟩]⟩]

/-- Even a search that may not extend a single layout comes to the second slot and fails. -/
theorem a_search_without_expansions_fails_at_the_second_slot :
    Slot.check secondExpired = .ok () ∧ Unconstrained secondExpired ∧
      search secondExpired ⟨80, 10000, 0⟩ = .error (.expiredScope 1) := by
  have hfree : Unconstrained secondExpired := by
    unfold Unconstrained
    decide
  refine ⟨rfl, hfree, ?_⟩
  refine (((every_search_ends_with_a_layout_or_an_expired_scope _ _).2.2 rfl
    (by decide)).2.2 hfree 1).mpr ⟨⟨_, rfl, by decide⟩, ?_⟩
  intro j hj slot hslot
  obtain rfl : j = 0 := Nat.lt_one_iff.mp hj
  cases hslot
  decide

end LineBreak
