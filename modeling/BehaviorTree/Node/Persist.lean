import BehaviorTree.Node.Move

/-!
# Retrying until success

The number of attempts made is kept between executions, so that a running child can be
resumed without losing count. A negative budget is unlimited. Success, giving up, abort and
reset put the count back to zero.
-/

namespace BehaviorTree

/-- How many attempts may be made, and how long to wait between two of them. -/
structure PersistSettings where
  /-- How many attempts may be made; a negative number sets no limit. -/
  attempts : Int := -1
  /-- The time between two attempts in milliseconds. -/
  delay : Int := 1000
  deriving DecidableEq

namespace Persist

/-- Whether the budget allows an attempt after `count` attempts. -/
def hasLeft (settings : PersistSettings) (count : Nat) : Bool :=
  settings.attempts < 0 || count < settings.attempts

/-- Reports that the attempts are used up, and fails with a count of zero. -/
def giveUp (settings : PersistSettings) (name : String) : Move Nat :=
  .report 0 (.retryGaveUp name settings.attempts) .failure

/-- Makes an attempt if the budget allows one. -/
def attempt (settings : PersistSettings) (name : String) (count : Nat) : Move Nat :=
  if hasLeft settings count then .ask (count + 1) (.run (count + 1) 0)
  else giveUp settings name

/-- The machine of a node that retries until success. Its state is the number of attempts
made, and the mark of an attempt is its number. The budget is looked at again after every
wait, since the count may have been put back meanwhile. -/
def respond (settings : PersistSettings) (moment : Moment) (count : Nat) : Signal → Move Nat
  | .started => if moment.size = 0 then .finish count .failure
    else attempt settings moment.name count
  | .answered number .success =>
    .report 0 (.retrySucceeded moment.name number) .success
  | .answered _ .running => .finish count .running
  | .answered _ .failure =>
    if hasLeft settings count then .ask count (.sleep 0 settings.delay.toNat)
    else giveUp settings moment.name
  | .woken _ => attempt settings moment.name count
  | _ => .finish count .failure

end Persist

end BehaviorTree
