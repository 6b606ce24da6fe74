-- From the splits chosen to text. A rendering holds the text of every gap; an
-- emission is the same text as a stream of pieces, tokens included, and keeps
-- what was written before a fault.
import LineBreak.Event
import LineBreak.Layout
import LineBreak.Piece

namespace LineBreak

/-- The pieces between two tokens, where `indentation` is the one after the split: a scope
that the split opens counts for the line that it starts. -/
def Filling.pieces (filling : Filling) (indentation : Width) : List Piece :=
  match filling with
  | space => [.space]
  | newline blankLine noIndent =>
    .newline :: ((if blankLine then [.newline] else []) ++
      (if noIndent then [] else [.indent indentation]))
  | nothing => []
  | literal text => [.text text]

/-- The text between the tokens of a boundary. -/
structure Gap where
  boundary : Nat
  text : String
  deriving DecidableEq

structure Rendering where
  /-- One gap for each boundary, in order. -/
  gaps : List Gap
  cost : Cost
  deriving DecidableEq

namespace Rendering

/-- The text that a split puts before its right token, given the layout after it. -/
def gapText (split : Split) (after : Layout) : String :=
  (Buffer.empty.writeAll (split.filling.pieces after.indentation)).contents

/-- Writes the gaps into one buffer, from which each is taken before the next is written. -/
def writeGaps (buffer : Buffer) (index : Nat) : List (Split × Layout) → List Gap
  | [] => []
  | (split, after) :: steps =>
    let (text, buffer) := (buffer.writeAll (split.filling.pieces after.indentation)).take
    ⟨index, text⟩ :: writeGaps buffer (index + 1) steps

/-- The buffer is empty before each gap, so no gap depends on those before it. -/
theorem writeGaps_empty (index : Nat) (steps : List (Split × Layout)) :
    writeGaps .empty index steps =
      steps.mapIdx fun place step => ⟨index + place, gapText step.1 step.2⟩ := by
  induction steps generalizing index with
  | nil => rfl
  | cons step steps ih =>
    have hplace (place : Nat) : index + 1 + place = index + (place + 1) := by omega
    show ⟨index, gapText step.1 step.2⟩ :: writeGaps .empty (index + 1) steps = _
    rw [ih, List.mapIdx_cons]
    simp [hplace]

/-- Fills every boundary with its split and renders the gaps. -/
def ofPath (boundaries : List Boundary) (splits : List Split) (limit : Limit) :
    Except Fault Rendering :=
  if boundaries.length ≠ splits.length then
    .error (.lengthMismatch boundaries.length splits.length)
  else
    match Layout.start.walk limit (boundaries.zip splits) with
    | (_, some fault) => .error fault
    | (layouts, none) =>
      .ok {
        gaps := writeGaps .empty 0 (splits.zip layouts)
        cost := (layouts.getLastD Layout.start).cost }

/-- The first left token, then each gap with the right token behind it. -/
def text (rendering : Rendering) (boundaries : List Boundary) : String :=
  (boundaries.zip rendering.gaps).foldl (fun text step => text ++ step.2.text ++ step.1.right.text)
    (boundaries.head?.elim "" (·.left.text))

/-- What a replay tells when it is done. -/
def event (rendering : Rendering) : Event := .replayed rendering.gaps.length rendering.cost

end Rendering

/-- What a replay wrote, and the cost or the fault it ended with. -/
structure Emission where
  pieces : List Piece
  outcome : Except Fault Cost

namespace Emission

/-- Writes the gaps and the right tokens of a path from a layout on. -/
def ofSteps (limit : Limit) (layout : Layout) : List (Boundary × Split) → Emission
  | [] => ⟨[], .ok layout.cost⟩
  | (boundary, split) :: path =>
    match layout.step limit split boundary with
    | .error fault => ⟨[], .error fault⟩
    | .ok after =>
      let rest := ofSteps limit after path
      ⟨split.filling.pieces after.indentation ++ .text boundary.right.text :: rest.pieces,
        rest.outcome⟩

/-- The first left token is written before anything is looked at. -/
def ofPath (boundaries : List Boundary) (splits : List Split) (limit : Limit) : Emission :=
  let first := boundaries.head?.elim [] fun boundary => [Piece.text boundary.left.text]
  if boundaries.length ≠ splits.length then
    ⟨first, .error (.lengthMismatch boundaries.length splits.length)⟩
  else
    let rest := ofSteps limit Layout.start (boundaries.zip splits)
    ⟨first ++ rest.pieces, rest.outcome⟩

/-- The text written. -/
def text (emission : Emission) : String := (Buffer.empty.writeAll emission.pieces).contents

end Emission

end LineBreak
