import BehaviorTree.Node.Move

/-!
# Sequences and selectors

A chain runs its children in order as long as each answers one particular status, the one it
passes over. A sequence passes over success and a selector passes over failure. A running
child suspends the chain, and the next execution resumes at that child; any end puts the
cursor back to the first child.
-/

namespace BehaviorTree.Chain

/-- Goes on with the child at a position, or ends with the status that all children gave. -/
def proceed (passed : Status) (size cursor position : Nat) : Move Nat :=
  if position < size then .ask cursor (.run position position) else .finish 0 passed

/-- The machine of a chain. Its state is the cursor, the child that the next execution begins
with, and marks are positions of children. -/
def respond (passed : Status) (moment : Moment) (cursor : Nat) : Signal → Move Nat
  | .started => proceed passed moment.size cursor cursor
  | .answered position .running => .finish position .running
  | .answered position status =>
    if status = passed then proceed passed moment.size cursor (position + 1)
    else .finish 0 status
  | _ => .finish 0 .failure

end BehaviorTree.Chain
