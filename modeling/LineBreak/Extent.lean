-- How much room a text takes: its width in characters, and the widths of its
-- first and its last line. Only a line feed ends a line.
import LineBreak.Capped

namespace LineBreak

/-- The number of characters of a text. -/
def textWidth (text : String) : Width := Capped.ofNat _ text.length

/-- What stands before the first line feed; the whole text when there is none. -/
def firstLine (chars : List Char) : List Char := chars.takeWhile (· != '\n')

/-- What stands after the last line feed; the whole text when there is none. -/
def lastLine (chars : List Char) : List Char := (firstLine chars.reverse).reverse

/-- The room a text takes. -/
structure Extent where
  width : Width
  /-- How far the text goes on with the line it starts on. -/
  firstLine : Width
  /-- Where on its last line the text ends. -/
  lastLine : Width
  deriving DecidableEq

namespace Extent

def measure (text : String) : Extent where
  width := textWidth text
  firstLine := Capped.ofNat _ (LineBreak.firstLine text.toList).length
  lastLine := Capped.ofNat _ (LineBreak.lastLine text.toList).length

/-- A text with a line feed in it has a first line shorter than the text. -/
def isMultiline (extent : Extent) : Bool := extent.firstLine != extent.width

end Extent

end LineBreak
