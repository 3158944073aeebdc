import BehaviorTree.Node.Move

/-!
# Repetition

A repeat node runs its child once per execution and counts the completed iterations. A
negative count repeats forever and a count of zero succeeds at once. A failed iteration
stops the repetition or counts like any other, as the settings say; after an iteration that
does not stop it the child is reset.
-/

namespace BehaviorTree

/-- How many iterations to complete, and whether a failed one ends the repetition. -/
structure RepeatSettings where
  /-- How many iterations to complete; a negative number sets no limit. -/
  count : Int := -1
  /-- Whether a failure of the child ends the repetition. -/
  stopOnFailure : Bool := true
  deriving DecidableEq

namespace Repeat

/-- The machine of a repeat node. Its state is the number of completed iterations. -/
def respond (settings : RepeatSettings) (moment : Moment) (done : Nat) : Signal → Move Nat
  | .started =>
    if moment.size = 0 then .finish done .failure
    else if settings.count = 0 then .finish done .success
    else .ask done (.run 0 0)
  | .answered _ .running => .finish done .running
  | .answered _ status =>
    if status = .failure ∧ settings.stopOnFailure then
      .report 0 (.repeatStopped moment.name (done + 1)) .failure
    else .ask done (.resetChild 0)
  | .childReset =>
    if settings.count < 0 then .finish done .running
    else if settings.count ≤ done + 1 then .finish 0 .success
    else .finish (done + 1) .running
  | _ => .finish done .failure

end Repeat

end BehaviorTree
