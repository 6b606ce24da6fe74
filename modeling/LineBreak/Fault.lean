-- What can be wrong with the input of a search or a replay, and how it is told.

namespace LineBreak

inductive Fault where
  | zeroWidth
  | noSplits (boundary : Nat)
  | tokenOrder (boundary : Nat)
  | expiredScope (boundary : Nat)
  | lengthMismatch (boundaries splits : Nat)
  /-- The search ran out of layouts to extend. -/
  | exhausted (expanded : Nat)
  deriving DecidableEq

def Fault.message : Fault → String
  | zeroWidth => "invalid input: line width limit must be positive"
  | noSplits boundary => s!"invalid input: boundary {boundary} offers no splits"
  | tokenOrder boundary => s!"invalid input: boundary {boundary} has tokens out of source order"
  | expiredScope boundary =>
    s!"invalid input: indentation push at boundary {boundary} expires behind the stream"
  | lengthMismatch boundaries splits =>
    s!"invalid input: {splits} splits chosen for {boundaries} boundaries"
  | exhausted expanded =>
    s!"search exhausted after {expanded} expansions without a complete layout"

end LineBreak
