-- What a search and a replay tell about their progress.
import LineBreak.Capped

namespace LineBreak

inductive Level where
  | trace
  | debug
  | warn
  deriving DecidableEq

inductive Event where
  | penaltyRaised (configured raised : Cost)
  | searchStarted (boundaries : Nat) (maxWidth : Width) (penalty : Cost)
  | expanding (depth : Nat) (cost : Cost)
  | constraintsIgnored (boundary : Nat)
  | capReached (expanded depth boundaries : Nat)
  | searchFinished (cost : Cost) (expanded pruned states : Nat) (optimal : Bool)
  | replayed (boundaries : Nat) (cost : Cost)
  deriving DecidableEq

namespace Event

def level : Event → Level
  | penaltyRaised .. => .debug
  | searchStarted .. => .debug
  | expanding .. => .trace
  | constraintsIgnored .. => .trace
  | capReached .. => .warn
  | searchFinished .. => .debug
  | replayed .. => .trace

def message : Event → String
  | penaltyRaised .. => "raising overflow penalty above worst in-bounds path"
  | searchStarted .. => "starting split search"
  | expanding .. => "expanding state"
  | constraintsIgnored .. => "constraints admit no split, ignoring them"
  | capReached .. => "expansion cap reached, completing greedily"
  | searchFinished .. => "split search finished"
  | replayed .. => "replayed split path"

end Event

end LineBreak
