import BehaviorTree.Node.Move

/-!
# Retrying within one execution

A retry node repeats a failing child up to a number of attempts and waits between them. The
waiting time is fixed or doubles with every attempt, up to the greatest 64-bit number. A
running child ends the execution, and the next one starts again from the first attempt.
-/

namespace BehaviorTree

/-- How many attempts to make, how long to wait after the first, and whether that time doubles. -/
structure RetrySettings where
  /-- How many attempts are made at most. -/
  maxRetries : Int := 3
  /-- The time after the first attempt in milliseconds. -/
  backoff : Int := 100
  /-- Whether that time doubles from attempt to attempt. -/
  exponential : Bool := true
  deriving DecidableEq

namespace Retry

/-- The longest waiting time. -/
def longest : Nat := Nat.pow 2 64 - 1

/-- The waiting time after a failed attempt, the first one being 1. Sixty-four doublings
exceed the longest waiting time already. -/
def backoff (settings : RetrySettings) (attempt : Nat) : Nat :=
  let base := settings.backoff.toNat
  if settings.exponential then min (base * Nat.pow 2 (min (attempt - 1) 64)) longest else base

/-- Makes an attempt, or gives up if there are no more. -/
def attempt (settings : RetrySettings) (name : String) (number : Nat) : Move Unit :=
  if number ≤ settings.maxRetries then .ask () (.run number 0)
  else .report () (.retriesExhausted name settings.maxRetries) .failure

/-- The machine of a retry node. Marks are numbers of attempts. -/
def respond (settings : RetrySettings) (moment : Moment) : Signal → Move Unit
  | .started =>
    if moment.size = 0 then .finish () .failure else attempt settings moment.name 1
  | .answered number .failure =>
    if number < settings.maxRetries then .ask () (.sleep number (backoff settings number))
    else attempt settings moment.name (number + 1)
  | .answered _ status => .finish () status
  | .woken number => attempt settings moment.name (number + 1)
  | _ => .finish () .failure

end Retry

end BehaviorTree
