-- Partial layouts: some boundaries are filled, at a cost, and the layout knows
-- the column, the scopes and the constraints in force. Filling the next
-- boundary with a split gives the next layout.
import LineBreak.Limit
import LineBreak.Marks

namespace LineBreak

structure Layout where
  cost : Cost
  constraints : Constraints
  /-- The last split taken, with what its line cost on top. -/
  last : Option Split
  /-- The number of boundaries filled. -/
  depth : Nat
  marks : Marks
  /-- The scopes in force, oldest first. -/
  scopes : List OpenScope
  /-- The column right behind the last token. -/
  column : Width
  deriving DecidableEq

namespace Layout

/-- No boundary is filled. -/
def start : Layout := ⟨0, [], none, 0, [], [], 0⟩

/-- The column at which an indented line starts. -/
def indentation (layout : Layout) : Width := OpenScope.total layout.scopes

/-! ## Filling the next boundary -/

/-- The scopes in force after the split: those still live at the boundary, then the split's
own, stamped with where the layout stands. -/
def scopesAfter (layout : Layout) (split : Split) (boundary : Boundary) : List OpenScope :=
  layout.scopes.filter (·.scope.LiveAt boundary) ++
    split.scopes.map (⟨·, layout.column, layout.indentation⟩)

/-- Where the right token starts: a line break puts it at the indentation that holds after
the split, anything else behind what is there. -/
def lineStart (layout : Layout) (split : Split) (boundary : Boundary) : Width :=
  match split.filling with
  | .newline _ true => 0
  | .newline _ false => OpenScope.total (layout.scopesAfter split boundary)
  | filling => layout.column + filling.width

theorem lineStart_of_newline {layout : Layout} {split : Split} {boundary : Boundary}
    {blankLine noIndent : Bool} (h : split.filling = .newline blankLine noIndent) :
    layout.lineStart split boundary =
      if noIndent then 0 else OpenScope.total (layout.scopesAfter split boundary) := by
  unfold lineStart
  rw [h]
  cases noIndent <;> rfl

theorem lineStart_of_isNewline_eq_false {layout : Layout} {split : Split} {boundary : Boundary}
    (h : split.filling.isNewline = false) :
    layout.lineStart split boundary = layout.column + split.filling.width := by
  unfold lineStart
  cases hfilling : split.filling with
  | newline blankLine noIndent =>
    rw [hfilling] at h
    cases h
  | _ => rfl

/-- The column that the line of the right token reaches, up to the token's first line feed. -/
def lineEnd (layout : Layout) (split : Split) (boundary : Boundary) : Width :=
  layout.lineStart split boundary + boundary.right.extent.firstLine

def columnAfter (layout : Layout) (split : Split) (boundary : Boundary) : Width :=
  if boundary.right.extent.isMultiline then boundary.right.extent.lastLine
  else layout.lineEnd split boundary

/-- What the split costs where the layout stands. -/
def charge (layout : Layout) (limit : Limit) (split : Split) (boundary : Boundary) : Cost :=
  limit.penalize split.cost (layout.lineEnd split boundary)

def marksAfter (layout : Layout) (split : Split) : Marks :=
  match split.marker with
  | none => layout.marks
  | some marker => layout.marks.record marker layout.depth

/-- The layout with one more boundary filled. -/
def extend (layout : Layout) (limit : Limit) (split : Split) (boundary : Boundary) : Layout where
  cost := layout.cost + layout.charge limit split boundary
  constraints := layout.constraints.combine split.constraint boundary.left.stop
  last := some (split.withCost (layout.charge limit split boundary))
  depth := layout.depth + 1
  marks := layout.marksAfter split
  scopes := layout.scopesAfter split boundary
  column := layout.columnAfter split boundary

/-- Fills the next boundary, unless its tokens are out of order or the split opens a scope
that is over. A line that is too long is no fault. -/
def step (layout : Layout) (limit : Limit) (split : Split) (boundary : Boundary) :
    Except Fault Layout :=
  if ¬ boundary.Ordered then .error (.tokenOrder layout.depth)
  else if ¬ split.OpensAt boundary then .error (.expiredScope layout.depth)
  else .ok (layout.extend limit split boundary)

theorem step_eq_ok_iff {layout after : Layout} {limit : Limit} {split : Split}
    {boundary : Boundary} :
    layout.step limit split boundary = .ok after ↔
      boundary.Ordered ∧ split.OpensAt boundary ∧ after = layout.extend limit split boundary := by
  unfold step
  by_cases hordered : boundary.Ordered
  · by_cases hopens : split.OpensAt boundary
    · simp [hordered, hopens, eq_comm]
    · simp [hordered, hopens]
  · simp [hordered]

/-! ## Filling many boundaries -/

/-- The layouts after each boundary of a path, as far as it goes, and the fault that ends it. -/
def walk (layout : Layout) (limit : Limit) : List (Boundary × Split) → List Layout × Option Fault
  | [] => ([], none)
  | (boundary, split) :: path =>
    match layout.step limit split boundary with
    | .error fault => ([], some fault)
    | .ok after =>
      let (layouts, fault) := walk after limit path
      (after :: layouts, fault)

/-- The layout at the end of a path. -/
def follow (layout : Layout) (limit : Limit) (path : List (Boundary × Split)) :
    Except Fault Layout :=
  path.foldlM (fun layout step => layout.step limit step.2 step.1) layout

theorem follow_cons {layout after : Layout} {limit : Limit} {split : Split} {boundary : Boundary}
    (h : layout.step limit split boundary = .ok after) (path : List (Boundary × Split)) :
    layout.follow limit ((boundary, split) :: path) = after.follow limit path := by
  unfold follow
  rw [List.foldlM_cons, h]
  rfl

/-! ## Comparing layouts -/

/-- The layout costs no more than the other and is indented no deeper. -/
def Dominates (layout other : Layout) : Prop :=
  layout.cost ≤ other.cost ∧ layout.indentation ≤ other.indentation

instance (layout other : Layout) : Decidable (layout.Dominates other) :=
  inferInstanceAs (Decidable (_ ∧ _))

end Layout

end LineBreak
