-- What a layout writes: pieces of output, and the buffer that takes them up.
import LineBreak.Capped

namespace LineBreak

inductive Piece where
  | text (words : String)
  | newline
  | indent (spaces : Width)
  | space
  deriving DecidableEq

def Piece.render : Piece → String
  | text words => words
  | newline => "\n"
  | indent spaces => String.ofList (List.replicate spaces.val ' ')
  | space => " "

/-- The text written so far. -/
structure Buffer where
  contents : String
  deriving DecidableEq

namespace Buffer

def empty : Buffer := ⟨""⟩

def write (buffer : Buffer) (piece : Piece) : Buffer := ⟨buffer.contents ++ piece.render⟩

def writeAll (buffer : Buffer) (pieces : List Piece) : Buffer := pieces.foldl write buffer

@[simp]
theorem contents_write (buffer : Buffer) (piece : Piece) :
    (buffer.write piece).contents = buffer.contents ++ piece.render := rfl

@[simp]
theorem writeAll_cons (buffer : Buffer) (piece : Piece) (pieces : List Piece) :
    buffer.writeAll (piece :: pieces) = (buffer.write piece).writeAll pieces := rfl

@[simp]
theorem writeAll_append (buffer : Buffer) (first second : List Piece) :
    buffer.writeAll (first ++ second) = (buffer.writeAll first).writeAll second :=
  List.foldl_append

/-- The text written so far, and the buffer without it. -/
def take (buffer : Buffer) : String × Buffer := (buffer.contents, empty)

end Buffer

end LineBreak
