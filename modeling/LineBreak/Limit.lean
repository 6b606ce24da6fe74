-- The width limit with its penalty, and the settings of a search. A line that
-- reaches the width is never refused: it only costs more.
import LineBreak.Capped
import LineBreak.Fault

namespace LineBreak

structure Limit where
  /-- Lines are to stay below this column. -/
  width : Width
  /-- What a line that does not costs on top, besides the column it reaches. -/
  penalty : Cost
  width_pos : 0 < width.val
  deriving DecidableEq

namespace Limit

def defaultPenalty : Cost := 10000

def make (width : Width) (penalty : Cost) : Except Fault Limit :=
  if h : 0 < width.val then .ok ⟨width, penalty, h⟩ else .error .zeroWidth

/-- The cost of a split whose line reaches `column`. -/
def penalize (limit : Limit) (cost : Cost) (column : Width) : Cost :=
  if column < limit.width then cost else cost + limit.penalty + column.recap _

/-- The same width with a penalty of at least `floor`. -/
def raisePenalty (limit : Limit) (floor : Cost) : Limit :=
  { limit with penalty := max limit.penalty floor }

end Limit

structure Settings where
  maxWidth : Width := 100
  overflowPenalty : Cost := Limit.defaultPenalty
  /-- The number of layouts a search extends before it completes the best one as it can. -/
  maxExpansions : Nat := 100000
  deriving DecidableEq

def Settings.limit (settings : Settings) : Except Fault Limit :=
  Limit.make settings.maxWidth settings.overflowPenalty

end LineBreak
