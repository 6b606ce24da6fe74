-- What a layout puts between two neighbouring tokens.
import LineBreak.Extent

namespace LineBreak

/-- What stands between two tokens. -/
inductive Filling where
  | space
  /-- A line break, perhaps with an empty line, and the indentation unless it is left out. -/
  | newline (blankLine noIndent : Bool)
  | nothing
  | literal (text : String)
  deriving DecidableEq

namespace Filling

def isNewline : Filling → Bool
  | newline _ _ => true
  | _ => false

theorem exists_of_isNewline {filling : Filling} (h : filling.isNewline = true) :
    ∃ blankLine noIndent, filling = newline blankLine noIndent := by
  cases filling with
  | newline blankLine noIndent => exact ⟨blankLine, noIndent, rfl⟩
  | _ => cases h

/-- The columns added to the line that the left token ends on. -/
def width : Filling → Width
  | space => 1
  | newline _ _ => 0
  | nothing => 0
  | literal text => textWidth text

end Filling

end LineBreak
