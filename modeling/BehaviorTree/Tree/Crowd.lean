import BehaviorTree.Tree.World

/-!
# Children side by side

Several children that run side by side have a slot each. If they are many, only those that
have been called are advanced. A tour advances them one after the other, in the order of the
calls. It ends when no child is called any more, and before that if it has gone round all
children without an answer or has met two that are to be called again; then the crowd gives
way and is called again itself.
-/

namespace BehaviorTree

namespace Slot

/-- The suspended run in a slot. -/
def run? : Slot Run → Option Run
  | waiting run => some run
  | fresh | answered _ => none

/-- Whether the child has answered, so that it gets no more turns. -/
def isAnswered : Slot Run → Bool
  | answered _ => true
  | fresh | waiting _ => false

/-- The statuses, if all children have answered. -/
def allAnswered? : List (Slot Run) → Option (List Status)
  | [] => some []
  | answered status :: rest => (allAnswered? rest).map (status :: ·)
  | _ :: _ => none

/-- How many children have not answered. -/
def unanswered (slots : List (Slot Run)) : Nat := (slots.filter (!·.isAnswered)).length

end Slot

/-- A tour of a crowd: the crowd's number, how its children stand, and which of them are still
called. Since the last answer it counts the children advanced and those of them that are to be
called again. -/
structure Tour where
  /-- The number of the crowd. -/
  crowd : Nat
  /-- How each child stands. -/
  slots : List (Slot Run)
  /-- The children still called, in the order of the calls. -/
  called : List Nat
  /-- How many children were advanced since the last answer. -/
  looked : Nat := 0
  /-- How many of those are to be called again. -/
  eager : Nat := 0
  /-- How many children had not answered when the counting began. -/
  size : Nat

namespace Tour

/-- A tour that begins to count. -/
def ofSlots (crowd : Nat) (slots : List (Slot Run)) (called : List Nat) : Tour :=
  { crowd, slots, called, size := Slot.unanswered slots }

/-- The suspended run of a child, if it has begun. -/
def run? (tour : Tour) (index : Nat) : Option Run := (tour.slots[index]?).bind Slot.run?

/-- Whether a child has answered. -/
def hasAnswer (tour : Tour) (index : Nat) : Bool := (tour.slots[index]?).any (·.isAnswered)

/-- The tour after an answer. The counting begins anew. -/
def answer (tour : Tour) (index : Nat) (status : Status) : Tour :=
  ofSlots tour.crowd (tour.slots.set index (.answered status)) tour.called

/-- The tour after a child that is suspended. -/
def suspend (tour : Tour) (index : Nat) (run : Run) (again : Bool) : Tour :=
  { tour with
    slots := tour.slots.set index (.waiting run)
    called := if again then enlist index tour.called else tour.called
    looked := tour.looked + 1
    eager := if again then tour.eager + 1 else tour.eager }

/-- Whether the crowd gives way. -/
def givesWay (tour : Tour) : Bool := tour.looked = tour.size || 2 ≤ tour.eager

/-- A bound on the number of children that a tour advances: between two answers it goes round
once at most. -/
def bound (tour : Tour) : Nat := (tour.slots.length + 2) * (tour.slots.length + 2)

end Tour

end BehaviorTree
