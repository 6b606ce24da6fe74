-- A priority queue that gives back its greatest element first. It is a pairing
-- heap: putting an element in takes one comparison, and taking the greatest out
-- joins the trees that were below it two by two. The view of a heap is the list
-- of its elements, up to their order.

namespace LineBreak

/-- A list of trees: the root of the first, the trees below that root, the other trees. -/
inductive Forest (α : Type) where
  | empty
  | node (root : α) (below beside : Forest α)

namespace Forest

variable {α : Type}

def toList : Forest α → List α
  | empty => []
  | node root below beside => root :: (below.toList ++ beside.toList)

/-- Nothing in the forest is greater than `top`. -/
def Under [Ord α] (forest : Forest α) (top : α) : Prop :=
  ∀ a ∈ forest.toList, (compare a top).isLE

/-- Nothing below a root is greater than the root. -/
def Ordered [Ord α] : Forest α → Prop
  | empty => True
  | node root below beside => below.Under root ∧ below.Ordered ∧ beside.Ordered

end Forest

/-- A root and the forest below it. -/
structure Rooted (α : Type) where
  root : α
  below : Forest α

namespace Rooted

variable {α : Type} [Ord α]

def toList (tree : Rooted α) : List α := tree.root :: tree.below.toList

def Ordered (tree : Rooted α) : Prop := tree.below.Under tree.root ∧ tree.below.Ordered

/-- Joins two trees: the one with the lesser root goes below the other root. -/
def meld (s t : Rooted α) : Rooted α :=
  if (compare t.root s.root).isLE then ⟨s.root, .node t.root t.below s.below⟩
  else ⟨t.root, .node s.root s.below t.below⟩

/-- Joins all trees of a forest, neighbours first. -/
def meldAll : Forest α → Option (Rooted α)
  | .empty => none
  | .node a below .empty => some ⟨a, below⟩
  | .node a below (.node b below' rest) =>
    let pair := meld ⟨a, below⟩ ⟨b, below'⟩
    match meldAll rest with
    | none => some pair
    | some others => some (pair.meld others)

theorem toList_meld (s t : Rooted α) : (s.meld t).toList.Perm (s.toList ++ t.toList) := by
  unfold meld
  split
  · refine List.Perm.cons _ ?_
    show ((t.root :: t.below.toList) ++ s.below.toList).Perm (s.below.toList ++ t.toList)
    exact List.perm_append_comm
  · show (t.root :: (s.toList ++ t.below.toList)).Perm (s.toList ++ t.root :: t.below.toList)
    exact List.perm_middle.symm

theorem toList_meldAll (forest : Forest α) :
    ((meldAll forest).elim [] toList).Perm forest.toList := by
  fun_induction meldAll forest with
  | case1 => exact List.Perm.refl _
  | case2 a below => simp [toList, Forest.toList]
  | case3 a below b below' rest pair h ih =>
    rw [h] at ih
    have hrest : rest.toList = [] := List.nil_perm.mp ih
    simpa [toList, Forest.toList, hrest] using toList_meld ⟨a, below⟩ ⟨b, below'⟩
  | case4 a below b below' rest pair others h ih =>
    rw [h] at ih
    have hpair := toList_meld ⟨a, below⟩ ⟨b, below'⟩
    refine (toList_meld pair others).trans ((hpair.append ih).trans ?_)
    simp [toList, Forest.toList]

variable [Std.TransOrd α]

theorem Ordered.meld {s t : Rooted α} (hs : s.Ordered) (ht : t.Ordered) : (s.meld t).Ordered := by
  unfold Rooted.meld
  split
  · rename_i hle
    refine ⟨fun a ha => ?_, ht.1, ht.2, hs.2⟩
    rcases List.mem_cons.mp ha with rfl | ha
    · exact hle
    · rcases List.mem_append.mp ha with ha | ha
      · exact Std.TransCmp.isLE_trans (ht.1 a ha) hle
      · exact hs.1 a ha
  · rename_i hgt
    have hle : (compare s.root t.root).isLE := by
      rw [Std.OrientedOrd.eq_swap, Ordering.isLE_swap]
      cases h : compare t.root s.root <;> simp_all
    refine ⟨fun a ha => ?_, hs.1, hs.2, ht.2⟩
    rcases List.mem_cons.mp ha with rfl | ha
    · exact hle
    · rcases List.mem_append.mp ha with ha | ha
      · exact Std.TransCmp.isLE_trans (hs.1 a ha) hle
      · exact ht.1 a ha

theorem ordered_meldAll (forest : Forest α) (h : forest.Ordered) :
    ∀ tree ∈ meldAll forest, tree.Ordered := by
  fun_induction meldAll forest with
  | case1 => intro tree ht; cases ht
  | case2 a below =>
    intro tree ht
    cases ht
    exact ⟨h.1, h.2.1⟩
  | case3 a below b below' rest pair hnone ih =>
    intro tree ht
    cases ht
    exact Ordered.meld ⟨h.1, h.2.1⟩ ⟨h.2.2.1, h.2.2.2.1⟩
  | case4 a below b below' rest pair others hsome ih =>
    intro tree ht
    cases ht
    exact (Ordered.meld ⟨h.1, h.2.1⟩ ⟨h.2.2.1, h.2.2.2.1⟩).meld
      (ih h.2.2.2.2 others hsome)

end Rooted

/-- A priority queue over `α`. -/
structure Heap (α : Type) [Ord α] where
  tree : Option (Rooted α)
  ordered : ∀ t ∈ tree, t.Ordered

namespace Heap

variable {α : Type} [Ord α]

def empty : Heap α := ⟨none, fun _ h => by cases h⟩

/-- The elements, in no particular order. -/
def toList (heap : Heap α) : List α := heap.tree.elim [] Rooted.toList

def size (heap : Heap α) : Nat := heap.toList.length

variable [Std.TransOrd α]

def push (heap : Heap α) (a : α) : Heap α :=
  match heap with
  | ⟨none, _⟩ =>
    ⟨some ⟨a, .empty⟩, fun t h => by
      cases h
      exact ⟨fun _ hmem => (nomatch hmem), trivial⟩⟩
  | ⟨some tree, ordered⟩ =>
    ⟨some (tree.meld ⟨a, .empty⟩), fun t h => by
      cases h
      exact (ordered tree rfl).meld ⟨fun _ hmem => (nomatch hmem), trivial⟩⟩

/-- The greatest element, and the heap of the others. -/
def pop? (heap : Heap α) : Option (α × Heap α) :=
  match heap with
  | ⟨none, _⟩ => none
  | ⟨some tree, ordered⟩ =>
    some (tree.root, ⟨Rooted.meldAll tree.below,
      Rooted.ordered_meldAll tree.below (ordered tree rfl).2⟩)

def ofList (elements : List α) : Heap α := elements.foldl push empty

/-! ## Through the list of elements -/

omit [Std.TransOrd α] in
@[simp]
theorem toList_empty : (empty : Heap α).toList = [] := rfl

theorem toList_push (heap : Heap α) (a : α) : (heap.push a).toList.Perm (a :: heap.toList) := by
  obtain ⟨tree, ordered⟩ := heap
  cases tree with
  | none => exact List.Perm.refl _
  | some tree =>
    exact (Rooted.toList_meld tree ⟨a, .empty⟩).trans List.perm_append_comm

theorem toList_foldl_push (elements : List α) (heap : Heap α) :
    (elements.foldl push heap).toList.Perm (elements ++ heap.toList) := by
  induction elements generalizing heap with
  | nil => exact List.Perm.refl _
  | cons a elements ih =>
    refine (ih (heap.push a)).trans ?_
    exact ((toList_push heap a).append_left elements).trans List.perm_middle

theorem toList_ofList (elements : List α) : (ofList elements).toList.Perm elements := by
  have h := toList_foldl_push elements empty
  rwa [toList_empty, List.append_nil] at h

theorem pop?_eq_none_iff (heap : Heap α) : heap.pop? = none ↔ heap.toList = [] := by
  obtain ⟨tree, ordered⟩ := heap
  cases tree <;> simp [pop?, toList, Rooted.toList]

theorem toList_of_pop? {heap rest : Heap α} {a : α} (h : heap.pop? = some (a, rest)) :
    heap.toList.Perm (a :: rest.toList) := by
  obtain ⟨tree, ordered⟩ := heap
  cases tree with
  | none => cases h
  | some tree =>
    cases h
    exact List.Perm.cons _ (Rooted.toList_meldAll tree.below).symm

theorem mem_iff_of_pop? {heap rest : Heap α} {a b : α} (h : heap.pop? = some (a, rest)) :
    b ∈ heap.toList ↔ b = a ∨ b ∈ rest.toList :=
  (toList_of_pop? h).mem_iff.trans List.mem_cons

/-- What is left in the heap is no greater than what was taken out. -/
theorem le_of_pop? {heap rest : Heap α} {a : α} (h : heap.pop? = some (a, rest)) :
    ∀ b ∈ rest.toList, (compare b a).isLE := by
  obtain ⟨tree, ordered⟩ := heap
  cases tree with
  | none => cases h
  | some tree =>
    cases h
    intro b hb
    exact (ordered tree rfl).1 b ((Rooted.toList_meldAll tree.below).mem_iff.mp hb)

theorem size_of_pop? {heap rest : Heap α} {a : α} (h : heap.pop? = some (a, rest)) :
    heap.size = rest.size + 1 := by
  simpa [size] using (toList_of_pop? h).length_eq

/-- The elements in the order in which they are taken out. -/
def drain (heap : Heap α) : List α :=
  match _h : heap.pop? with
  | none => []
  | some (a, rest) => a :: rest.drain
termination_by heap.size
decreasing_by exact Nat.lt_of_lt_of_eq (Nat.lt_succ_self _) (size_of_pop? _h).symm

end Heap

end LineBreak
