-- Tokens and the boundaries between neighbours. Of a token only its text and
-- the source position where it ends are known.
import LineBreak.Extent

namespace LineBreak

structure Token where
  text : String
  /-- The source position right behind the token. -/
  stop : Nat
  deriving DecidableEq

namespace Token

/-- The empty token before the first one. -/
def start : Token := ⟨"", 0⟩

/-- The token that follows this one without a gap in the source. -/
def followedBy (token : Token) (text : String) : Token := ⟨text, token.stop + text.utf8ByteSize⟩

def extent (token : Token) : Extent := Extent.measure token.text

end Token

/-- The place between two neighbouring tokens. -/
structure Boundary where
  left : Token
  right : Token
  deriving DecidableEq

namespace Boundary

/-- The tokens stand in source order. -/
def Ordered (boundary : Boundary) : Prop := boundary.left.stop ≤ boundary.right.stop

instance (boundary : Boundary) : Decidable boundary.Ordered :=
  inferInstanceAs (Decidable (boundary.left.stop ≤ boundary.right.stop))

/-- The boundaries of tokens that follow one another from `left` on. -/
def chainFrom (left : Token) : List String → List Boundary
  | [] => []
  | text :: texts => ⟨left, left.followedBy text⟩ :: chainFrom (left.followedBy text) texts

/-- The boundaries of a list of texts that stand back to back in the source. The first
boundary is the one between the empty token and the first text, so each text is the right
token of exactly one boundary. -/
def chain (texts : List String) : List Boundary := chainFrom Token.start texts

end Boundary

end LineBreak
