import BehaviorTree.Node.Move

/-!
# Parallel nodes

All children run together, every one on every execution, and the thresholds decide when the
last of them has answered. Enough successes win over enough failures; with neither the node
is running.
-/

namespace BehaviorTree

/-- How many children have to succeed for the node to succeed, and to fail for it to fail. -/
structure ParallelSettings where
  /-- So many successes make the node succeed. -/
  successThreshold : Int := 1
  /-- So many failures make the node fail, unless it succeeds. -/
  failureThreshold : Int := 1
  deriving DecidableEq

namespace Gather

/-- The status that the children's statuses amount to. -/
def verdict (settings : ParallelSettings) (statuses : List Status) : Status :=
  if settings.successThreshold ≤ statuses.count .success then .success
  else if settings.failureThreshold ≤ statuses.count .failure then .failure
  else .running

/-- The machine of a parallel node. It keeps nothing between moves. -/
def respond (settings : ParallelSettings) : Signal → Move Unit
  | .started => .ask () .runAll
  | .gathered statuses => .finish () (verdict settings statuses)
  | _ => .finish () .failure

end Gather

end BehaviorTree
