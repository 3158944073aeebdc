import BehaviorTree.Node.Move

/-!
# Waiting across executions

A wait node is running until its delay has passed since its first execution. It never holds
up an execution: the first one notes the time, and a later one compares.
-/

namespace BehaviorTree.Wait

/-- The machine of a wait node. Its state is the time at which the wait began, if one is
under way. -/
def respond (delay : Int) (moment : Moment) (begun : Option Nat) : Signal → Move (Option Nat)
  | .started =>
    match begun with
    | none => .finish (some moment.now) .running
    | some start =>
      if start + delay.toNat ≤ moment.now then .finish none .success
      else .finish begun .running
  | _ => .finish begun .failure

end BehaviorTree.Wait
