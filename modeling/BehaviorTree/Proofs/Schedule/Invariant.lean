import BehaviorTree.Proofs.Schedule.Turns

/-!
# Conditions that last from turn to turn

Within an instant calls are passed on and tasks have their turns. A condition on systems that
survives each of these steps lasts as long as the clock does not move (`System.Lasts`). If it
survives that too, it endures while time passes (`System.Endures`), and if it survives the turns of
the foreground and what is done from outside, it persists through every operation
(`System.Persists.nextAll`). Some turns may be waited for: then it is kept until the first of them.
Between operations nothing is in the foreground (`System.front_nextAll`).
-/

namespace BehaviorTree

variable {κ : Type} [Application κ] {tree : Tree κ}

/-- All turns are quiet and afterwards something holds, or there is a turn that is waited for, and
all turns before it are quiet. -/
def Until (quiet final : Turn tree → Prop) (turns : List (Turn tree)) (after : Prop) : Prop :=
  ((∀ turn ∈ turns, quiet turn) ∧ after) ∨
    ∃ before turn later, turns = before ++ turn :: later ∧ (∀ turn ∈ before, quiet turn) ∧
      final turn

namespace Until

variable {quiet final : Turn tree → Prop} {turns later : List (Turn tree)} {after last : Prop}

/-- Without any turns what holds now holds afterwards. -/
theorem none (hafter : after) : Until quiet final [] after := .inl ⟨nofun, hafter⟩

/-- If no turn is waited for, then all of them are quiet. -/
theorem of_never (huntil : Until quiet (fun _ => False) turns after) : after := by
  obtain ⟨-, hafter⟩ | ⟨_, _, _, -, -, hfinal⟩ := huntil
  · exact hafter
  · exact hfinal.elim

/-- If no turn is waited for, then all turns are quiet. -/
theorem quiet_of_never (huntil : Until quiet (fun _ => False) turns after) :
    ∀ turn ∈ turns, quiet turn := by
  obtain ⟨hquiet, -⟩ | ⟨_, _, _, -, -, hfinal⟩ := huntil
  · exact hquiet
  · exact hfinal.elim

/-- A single turn is a list of turns until one that is waited for. -/
theorem single {turn : Turn tree} {left : Prop} (hturn : quiet turn ∧ left ∨ final turn)
    (hafter : left → after) : Until quiet final [turn] after := by
  obtain ⟨hquiet, hleft⟩ | hfinal := hturn
  · refine .inl ⟨fun other hmem => ?_, hafter hleft⟩
    rw [List.mem_singleton.mp hmem]
    exact hquiet
  · exact .inr ⟨[], turn, [], rfl, nofun, hfinal⟩

/-- What follows from the condition afterwards may take its place. -/
theorem mono (huntil : Until quiet final turns after) (hafter : after → last) :
    Until quiet final turns last :=
  huntil.imp_left fun hquiet => ⟨hquiet.1, hafter hquiet.2⟩

/-- Lists of turns until one that is waited for can be put together. -/
theorem append (huntil : Until quiet final turns after)
    (hlater : after → Until quiet final later last) : Until quiet final (turns ++ later) last := by
  obtain ⟨hquiet, hafter⟩ | ⟨before, turn, others, rfl, hquiet, hfinal⟩ := huntil
  · obtain ⟨hlaterQuiet, hlast⟩ | ⟨before, turn, others, rfl, hlaterQuiet, hfinal⟩ := hlater hafter
    · exact .inl ⟨fun turn hmem => (List.mem_append.mp hmem).elim (hquiet turn) (hlaterQuiet turn),
        hlast⟩
    · refine .inr ⟨turns ++ before, turn, others, (List.append_assoc ..).symm, ?_, hfinal⟩
      exact fun turn hmem => (List.mem_append.mp hmem).elim (hquiet turn) (hlaterQuiet turn)
  · exact .inr ⟨before, turn, others ++ later, by simp, hquiet, hfinal⟩

end Until

namespace System

/-! ## Within an instant -/

/-- A condition on systems survives whatever happens within an instant, unless a turn comes that is
waited for: calls are passed on, parties are called, tasks have their turns. -/
structure Lasts (keeps : System tree → Prop) (quiet final : Turn tree → Prop) : Prop where
  /-- It survives a call for a task or for the foreground. -/
  call : ∀ system call, keeps system → keeps (system.call call)
  /-- It survives when the foreground is called. -/
  callFront : ∀ system, keeps system → keeps (system.callParty .front)
  /-- It does not depend on the tasks that are to have a turn. -/
  ready : ∀ (system : System tree) ready, keeps system → keeps { system with ready }
  /-- It does not depend on the waits that are put off. -/
  served : ∀ (system : System tree), keeps system →
    keeps { system with world := { system.world with putOff := [] } }
  /-- The turn of a task is quiet and the condition survives it, or the turn is waited for. -/
  turn : ∀ (system : System tree) task, system.task? task.id = some task → keeps system →
    quiet (system.turnOfTask task) ∧ keeps (system.afterTurn task) ∨
      final (system.turnOfTask task)

variable {system : System tree}

namespace Lasts

variable {keeps : System tree → Prop} {quiet final : Turn tree → Prop}

/-- The condition survives calls. -/
theorem callAll (hlasts : Lasts keeps quiet final) (hkept : keeps system)
    (calls : List Call) : keeps (system.callAll calls) := by
  induction calls generalizing system with
  | nil => exact hkept
  | cons call calls ih => exact ih (hlasts.call _ _ hkept)

/-- The condition survives the call of a party. -/
theorem callParty (hlasts : Lasts keeps quiet final) (hkept : keeps system)
    (party : Party) : keeps (system.callParty party) := by
  cases party with
  | front => exact hlasts.callFront _ hkept
  | task id =>
    rw [System.callParty]
    split
    · exact hlasts.ready _ _ hkept
    · exact hkept
  | member crowd index => exact hlasts.call _ _ hkept

/-- The condition survives the call of those who have put a wait off. -/
theorem resume (hlasts : Lasts keeps quiet final) (hkept : keeps system) :
    keeps system.resume := by
  have hparties : ∀ (parties : List Party) (system : System tree), keeps system →
      keeps (parties.foldl System.callParty system) := by
    intro parties
    induction parties with
    | nil => exact fun _ hkept => hkept
    | cons party parties ih => exact fun system hkept => ih _ (hlasts.callParty hkept party)
  exact hparties _ _ (hlasts.served _ hkept)

/-- The condition lasts through the turn of a task, or until that if it is waited for. -/
theorem runTask (hlasts : Lasts keeps quiet final) (hkept : keeps system) (id : Nat) :
    Until quiet final (system.turnOf? id).toList (keeps (system.runTask id).1) := by
  rw [turnOf?]
  cases htask : system.task? id with
  | none =>
    rw [runTask_of_none htask]
    exact .none hkept
  | some task =>
    have hid := id_eq_of_task? htask
    subst hid
    rw [runTask_of_some htask]
    exact Until.single (hlasts.turn _ _ htask hkept) id

/-- The condition lasts through the turns of several tasks. -/
theorem runTasks (hlasts : Lasts keeps quiet final) (hkept : keeps system)
    (count : Nat) :
    Until quiet final (system.turnsOfTasks count) (keeps (system.runTasks count).1) := by
  induction count generalizing system with
  | zero => exact .none hkept
  | succ count ih =>
    rw [turnsOfTasks, System.runTasks]
    cases hready : system.ready with
    | nil => exact .none hkept
    | cons id rest => exact (hlasts.runTask (hlasts.ready _ rest hkept) id).append ih

/-- The condition lasts through a round. -/
theorem round (hlasts : Lasts keeps quiet final) (hkept : keeps system) :
    Until quiet final system.turnsOfRound (keeps system.round.1) :=
  (hlasts.runTasks hkept roundLength).mono hlasts.resume

/-- The condition lasts through the rounds until nobody is called. -/
theorem settleWith (hlasts : Lasts keeps quiet final) (hkept : keeps system)
    (fuel : Nat) :
    Until quiet final (turnsOfSettling fuel system) (keeps (settleWith fuel system).1) := by
  induction fuel generalizing system with
  | zero => exact .none hkept
  | succ fuel ih =>
    rw [turnsOfSettling, System.settleWith]
    split
    · exact .none hkept
    · exact (hlasts.round hkept).append ih

end Lasts

/-! ## While time passes -/

/-- A condition that survives the moving of the clock as well. -/
structure Endures (keeps : System tree → Prop) (quiet final : Turn tree → Prop) : Prop
    extends Lasts keeps quiet final where
  /-- It survives the moving of the clock. -/
  clock : ∀ (system : System tree) now, system.world.now ≤ now → keeps system →
    keeps { system with world := { system.world with now, results := [] } }

namespace Endures

variable {keeps : System tree → Prop} {quiet final : Turn tree → Prop}

/-- The condition survives the moving of the clock and the calls that come of it. -/
theorem moveClock (hendures : Endures keeps quiet final) (hkept : keeps system)
    (time : Nat) : keeps (system.moveClock time) :=
  hendures.callAll (hendures.clock _ _ (Nat.le_max_left _ _) hkept) _

/-- The condition survives from a round to the next. -/
theorem afterRound? (hendures : Endures keeps quiet final) {next : System tree}
    (hkept : keeps system.round.1) (hnext : system.afterRound? = some next) : keeps next := by
  rw [System.afterRound?] at hnext
  split at hnext
  · obtain ⟨time, -, rfl⟩ := Option.map_eq_some_iff.mp hnext
    exact hendures.moveClock hkept time
  · cases hnext
    exact hkept

/-- The condition endures while time passes. -/
theorem passTo (hendures : Endures keeps quiet final) (hkept : keeps system)
    (target fuel : Nat) :
    Until quiet final (turnsUntil target fuel system) (keeps (passTo target fuel system).1) := by
  induction fuel generalizing system with
  | zero => exact .none (hendures.moveClock hkept target)
  | succ fuel ih =>
    rw [turnsUntil, System.passTo]
    refine (hendures.settleWith hkept system.patience).append fun hkept => ?_
    dsimp only
    cases hdue : system.settle.1.nextDue? with
    | none => exact .none (hendures.moveClock hkept target)
    | some time =>
      dsimp only
      split
      · exact ih (hendures.moveClock hkept time)
      · exact .none (hendures.moveClock hkept target)

end Endures

/-! ## Through operations -/

/-- A condition that survives the operations as well, with the turns of the foreground. -/
structure Persists (keeps : System tree → Prop) (quiet final : Turn tree → Prop) : Prop
    extends Endures keeps quiet final where
  /-- A turn of the foreground is quiet and the condition survives it, or the turn is waited for. -/
  frontTurn : ∀ system, keeps system →
    quiet system.turnOfFront ∧ keeps system.runFront.2.1 ∨ final system.turnOfFront
  /-- It survives when the foreground is given up. -/
  givenUp : ∀ (system : System tree), keeps system → keeps { system with front := none }
  /-- It survives when the waits of a new execution are counted anew. -/
  refreshed : ∀ system, keeps system → keeps system.refreshed
  /-- It survives an abort. -/
  abort : ∀ system, keeps system → keeps system.abort.1
  /-- It survives a reset. -/
  reset : ∀ system, keeps system → keeps system.reset.1

namespace Persists

variable {keeps : System tree → Prop} {quiet final : Turn tree → Prop}

/-- The condition persists through a turn of the foreground. -/
theorem runFront (hpersists : Persists keeps quiet final) (hkept : keeps system) :
    Until quiet final [system.turnOfFront] (keeps system.runFront.2.1) :=
  Until.single (hpersists.frontTurn _ hkept) id

/-- The condition persists through the turns until the foreground has answered. -/
theorem complete (hpersists : Persists keeps quiet final) (hkept : keeps system)
    (fuel : Nat) (outcome : Outcome) : Until quiet final (turnsOfCompletion fuel outcome system)
      (keeps (complete fuel outcome system).2.1) := by
  induction fuel generalizing outcome system with
  | zero =>
    cases outcome with
    | answered status => exact .none hkept
    | waiting run => exact .none (hpersists.givenUp _ hkept)
    | failed fault => exact .none hkept
  | succ fuel ih =>
    cases outcome with
    | answered status => exact .none hkept
    | failed fault => exact .none hkept
    | waiting run =>
      rw [turnsOfCompletion, complete_waiting]
      refine (hpersists.round hkept).append fun hkept => ?_
      cases hnext : system.afterRound? with
      | none => exact .none (hpersists.givenUp _ hkept)
      | some next =>
        have hkept : keeps next := hpersists.afterRound? hkept hnext
        dsimp only
        split
        · exact (hpersists.runFront hkept).append fun hkept => ih hkept next.runFront.1
        · exact ih hkept (.waiting run)

/-- The condition persists through an execution of the root. -/
theorem execute (hpersists : Persists keeps quiet final) (hkept : keeps system) :
    Until quiet final system.turnsOfExecution (keeps system.execute.2.1) :=
  (hpersists.runFront (hpersists.refreshed _ hkept)).append fun hkept =>
    hpersists.complete hkept _ _

/-- In the course of an operation the condition is kept until a turn that is waited for. -/
theorem next (hpersists : Persists keeps quiet final) (hkept : keeps system)
    (operation : Operation) :
    Until quiet final (system.turnsOf operation) (keeps (system.next operation)) := by
  cases operation with
  | execute => exact hpersists.execute hkept
  | abort => exact .none (hpersists.abort _ hkept)
  | reset => exact .none (hpersists.reset _ hkept)
  | pass duration => exact hpersists.passTo hkept _ _

/-- The condition persists through several operations. -/
theorem nextAll (hpersists : Persists keeps quiet final) (hkept : keeps system)
    (operations : List Operation) :
    Until quiet final (system.turnsAlong operations) (keeps (system.nextAll operations)) := by
  induction operations generalizing system with
  | nil => exact .none hkept
  | cons operation operations ih => exact (hpersists.next hkept operation).append ih

end Persists

/-! ## The foreground between executions -/

/-- Nothing comes into the foreground while time passes. -/
theorem endures_vacant :
    Endures (fun system : System tree => system.front = none) (fun _ => True) (fun _ => False) where
  call := by
    intro system call hfront
    rw [System.call, hfront]
    rfl
  callFront := fun _ hfront => hfront
  ready := fun _ _ hfront => hfront
  served := fun _ hfront => hfront
  clock := fun _ _ _ hfront => hfront
  turn := by
    intro system task _ hfront
    refine .inl ⟨trivial, ?_⟩
    rw [afterTurn]
    split
    · exact hfront
    all_goals
      rw [conclude, System.call]
      exact Option.map_eq_none_iff.mpr hfront

/-- Moving the clock puts nothing into the foreground. -/
theorem front_moveClock (hfront : system.front = none) (time : Nat) :
    (system.moveClock time).front = none := endures_vacant.moveClock hfront time

/-- The rounds until nobody is called put nothing into the foreground. -/
theorem front_settleWith (hfront : system.front = none) (fuel : Nat) :
    (settleWith fuel system).1.front = none :=
  (endures_vacant.settleWith hfront fuel).of_never

/-- Refreshing a system puts nothing into the foreground. -/
theorem front_refreshed (hfront : system.front = none) : system.refreshed.front = none := by
  rw [refreshed]
  split
  · rfl
  · exact hfront

/-- A turn in which an execution ends leaves nothing in the foreground. -/
theorem front_runFront (hended : system.runFront.1.run? = none) :
    system.runFront.2.1.front = none := by
  rw [runFront_eq] at hended ⊢
  exact hended

/-- An execution that ends leaves nothing in the foreground. -/
theorem front_complete {fuel : Nat} {outcome : Outcome}
    (hfront : outcome.run? = none → system.front = none) :
    (complete fuel outcome system).2.1.front = none := by
  induction fuel generalizing outcome system with
  | zero => cases outcome with
    | waiting run => rfl
    | answered status => exact hfront rfl
    | failed fault => exact hfront rfl
  | succ fuel ih =>
    cases outcome with
    | answered status => exact hfront rfl
    | failed fault => exact hfront rfl
    | waiting run =>
      rw [complete_waiting]
      cases system.afterRound? with
      | none => rfl
      | some next =>
        dsimp only
        split
        · exact ih front_runFront
        · exact ih nofun

/-- An execution of the root leaves nothing in the foreground. -/
theorem front_execute (system : System tree) : system.execute.2.1.front = none :=
  front_complete front_runFront

/-- While time passes, nothing comes into the foreground. -/
theorem front_passTo (hfront : system.front = none) (target fuel : Nat) :
    (passTo target fuel system).1.front = none :=
  (endures_vacant.passTo hfront target fuel).of_never

/-- Between operations nothing is in the foreground. -/
theorem front_nextAll (hfront : system.front = none) (operations : List Operation) :
    (system.nextAll operations).front = none := by
  induction operations generalizing system with
  | nil => exact hfront
  | cons operation operations ih =>
    refine ih ?_
    cases operation with
    | execute => exact front_execute system
    | abort => exact hfront
    | reset => exact hfront
    | pass duration => exact front_passTo hfront _ _

end System

end BehaviorTree
