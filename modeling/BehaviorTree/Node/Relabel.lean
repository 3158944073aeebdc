import BehaviorTree.Node.Move

/-!
# Decorators that change the answer

An inverter swaps success and failure, and a succeeder turns both into success. Both leave a
running child running. Without a child they fail.
-/

namespace BehaviorTree.Relabel

/-- Runs the only child and answers the image of its status. -/
def respond (image : Status → Status) (moment : Moment) : Signal → Move Unit
  | .started => if moment.size = 0 then .finish () .failure else .ask () (.run 0 0)
  | .answered _ status => .finish () (image status)
  | _ => .finish () .failure

/-- The answer of a succeeder. -/
def succeeded : Status → Status
  | .running => .running
  | .success | .failure => .success

end BehaviorTree.Relabel
