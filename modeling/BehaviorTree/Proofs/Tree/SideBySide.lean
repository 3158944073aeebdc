import BehaviorTree.Proofs.Tree.Turn

/-!
# Children side by side, one at a time

When all children of a node have a turn, they have it one after the other, each of them as if it
were the only one (`advanceAll_eq`). So what is known of one child that is advanced carries over to
all of them.
-/

namespace BehaviorTree

variable {κ : Type} [Application κ] {μ ν : Type}

/-- How a child stands after its turn. -/
def Outcome.slot : Outcome → Except Fault (Slot Run)
  | .answered status => .ok (.answered status)
  | .waiting run => .ok (.waiting run)
  | .failed fault => .error fault

/-- Gives a turn to those of so many children that have not answered, from the child with an index
on. A fault ends it. -/
def advanceEach (turn : Nat → Option Run → μ → World → Progress Outcome μ) :
    Nat → Nat → List (Slot Run) → μ → World → Progress (Except Fault (List (Slot Run))) μ
  | 0, _, _, below, world => { result := .ok [], memory := below, world }
  | _ + 1, _, [], below, world => { result := .ok [], memory := below, world }
  | count + 1, index, slot :: slots, below, world =>
    if slot.isAnswered then
      (advanceEach turn count (index + 1) slots below world).map (·.map (slot :: ·)) id
    else
      ((turn index slot.run? below world).under index).andThen fun outcome below world =>
        match outcome.slot with
        | .error fault => { result := .error fault, memory := below, world }
        | .ok slot =>
          (advanceEach turn count (index + 1) slots below world).map (·.map (slot :: ·)) id

/-- The turn of a child that has not answered, and of those after it. -/
theorem advanceEach_cons {turn : Nat → Option Run → μ → World → Progress Outcome μ}
    {slot : Slot Run} (hslot : slot.isAnswered = false) (count index : Nat)
    (slots : List (Slot Run)) (below : μ) (world : World) :
    advanceEach turn (count + 1) index (slot :: slots) below world =
      ((turn index slot.run? below world).under index).andThen fun outcome below world =>
        match outcome.slot with
        | .error fault => { result := .error fault, memory := below, world }
        | .ok slot =>
          (advanceEach turn count (index + 1) slots below world).map (·.map (slot :: ·)) id := by
  rw [advanceEach, hslot, if_neg Bool.false_ne_true]

/-- The first of several trees has its turn, and then the others have theirs. -/
theorem advanceAll_cons (tree : Tree κ) (trees : List (Tree κ)) (index : Nat) {slot : Slot Run}
    (hslot : slot.isAnswered = false) (slots : List (Slot Run)) (first : Memory tree)
    (rest : Memories trees) (world : World) :
    advanceAll (tree :: trees) index (slot :: slots) (.cons first rest) world =
      ((advance tree slot.run? first world).under index).andThen fun outcome first world =>
        match outcome.slot with
        | .error fault => { result := .error fault, memory := Memories.cons first rest, world }
        | .ok slot =>
          (advanceAll trees (index + 1) slots rest world).map (·.map (slot :: ·))
            (Memories.cons first ·) := by
  cases slot with
  | answered status => cases hslot
  | fresh =>
    rw [advanceAll]
    · congr 1
      funext outcome first world
      cases outcome <;> rfl
    -- the slot has neither answered nor is it waiting
    all_goals
      intro _ heq
      cases heq
  | waiting run =>
    rw [advanceAll]
    congr 1
    funext outcome first world
    cases outcome <;> rfl

/-- The children may be part of a longer list. -/
theorem advanceEach_eq {turn : Nat → Option Run → μ → World → Progress Outcome μ}
    (trees : List (Tree κ)) (index : Nat) (whole : Memories trees → μ)
    (hturn : ∀ offset run below world, turn (index + offset) run (whole below) world =
      (advanceChild trees offset run below world).map id whole)
    (slots : List (Slot Run)) (below : Memories trees) (world : World) :
    advanceEach turn trees.length index slots (whole below) world =
      (advanceAll trees index slots below world).map id whole := by
  induction trees generalizing index slots world with
  | nil =>
    cases below
    rfl
  | cons tree trees ih =>
    cases below with
    | cons first rest =>
      have hrest : ∀ (first : Memory tree) (slots : List (Slot Run)) world,
          advanceEach turn trees.length (index + 1) slots (whole (.cons first rest)) world =
            (advanceAll trees (index + 1) slots rest world).map id
              (whole <| Memories.cons first ·) := by
        intro first slots world
        refine ih (index + 1) (whole <| Memories.cons first ·) (fun offset run below world => ?_)
          slots rest world
        have hchild := hturn (offset + 1) run (.cons first below) world
        rw [Nat.add_assoc, Nat.add_comm 1]
        exact hchild
      cases slots with
      | nil => rfl
      | cons slot slots =>
        rw [List.length_cons, advanceEach]
        cases hslot : slot.isAnswered with
        | true =>
          cases slot with
          | answered status =>
            rw [if_pos rfl, hrest, advanceAll]
            rfl
          | fresh => cases hslot
          | waiting run => cases hslot
        | false =>
          have hfirst : turn index slot.run? (whole (.cons first rest)) world =
              (advance tree slot.run? first world).map id (whole <| Memories.cons · rest) :=
            hturn 0 slot.run? (.cons first rest) world
          rw [if_neg Bool.false_ne_true, hfirst, advanceAll_cons tree trees index hslot]
          generalize advance tree slot.run? first world = progress
          simp only [Progress.andThen_eq, Progress.result_under, Progress.result_map, id_eq,
            Progress.memory_under, Progress.memory_map, Progress.world_under, Progress.world_map]
          cases progress.result.slot with
          | error fault => rfl
          | ok slot =>
            dsimp only
            rw [hrest]
            rfl

/-- All children of a node that have not answered have a turn of their own, in order. -/
theorem advanceAll_eq (children : List (Tree κ)) :
    (crewOf children).advanceAll = advanceEach (crewOf children).advance children.length 0 := by
  funext slots below world
  refine (advanceEach_eq children 0 id (fun offset run below world => ?_) slots below world).symm
  rw [Nat.zero_add]
  rfl

end BehaviorTree
