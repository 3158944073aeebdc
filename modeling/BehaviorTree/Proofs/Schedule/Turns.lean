import BehaviorTree.Proofs.Schedule.Foreground
import BehaviorTree.Proofs.Schedule.Operation

/-!
# The turns of a system

Whatever happens while a root is executed or time passes happens in turns: of the foreground, and
of the tasks. Here the turns are listed, each with what it finds. The journal is that of the turns,
one after the other (`System.journal_execute`, `System.journal_pass`).
-/

namespace BehaviorTree

variable {κ : Type} [Application κ] {tree : Tree κ}

/-- One turn: the task that has it, unless it is the foreground's, and what it finds. -/
structure Turn (tree : Tree κ) where
  /-- The number of the task, or none if the turn is the foreground's. -/
  task : Option Nat
  /-- The position of the tree that is executed. -/
  path : Path
  /-- The execution that is taken up, or none if one begins. -/
  run : Option Run
  /-- What the nodes keep before the turn. -/
  memory : Memory tree
  /-- The world before the turn. -/
  world : World

/-- What the tree does in a turn. -/
def Turn.progress (turn : Turn tree) : Progress Outcome (Memory tree) :=
  advanceAt tree turn.path turn.run turn.memory turn.world

namespace System

/-! ## Listing the turns -/

/-- The turn that the foreground would have now. -/
def turnOfFront (system : System tree) : Turn tree :=
  ⟨none, [], system.front, system.memory, system.world.beginTurn .front⟩

/-- The turn that a task would have now. -/
def turnOfTask (system : System tree) (task : Task) : Turn tree :=
  ⟨some task.id, task.path, task.run, system.memory, system.world.beginTurn (.task task.id)⟩

/-- The task with a number. -/
def task? (system : System tree) (id : Nat) : Option Task :=
  system.tasks.find? fun task => task.id = id

/-- The turn that the task with a number would have now, if there is such a task. -/
def turnOf? (system : System tree) (id : Nat) : Option (Turn tree) :=
  (system.task? id).map system.turnOfTask

/-- The turns of the tasks that have been called, of as many as the first argument says. -/
def turnsOfTasks : Nat → System tree → List (Turn tree)
  | 0, _ => []
  | count + 1, system =>
    match system.ready with
    | [] => []
    | id :: rest =>
      let system := { system with ready := rest }
      (system.turnOf? id).toList ++ turnsOfTasks count (system.runTask id).1

/-- The turns in a round. -/
def turnsOfRound (system : System tree) : List (Turn tree) := system.turnsOfTasks roundLength

/-- The turns until nobody is called. -/
def turnsOfSettling : Nat → System tree → List (Turn tree)
  | 0, _ => []
  | fuel + 1, system =>
    if system.ready.isEmpty then []
    else system.turnsOfRound ++ turnsOfSettling fuel system.round.1

/-- The system after a round, and after the clock has moved if nobody is called. -/
def afterRound? (system : System tree) : Option (System tree) :=
  let next := system.round.1
  if next.isIdle then next.nextDue?.map next.moveClock else some next

/-- The turns until the foreground has answered. -/
def turnsOfCompletion : Nat → Outcome → System tree → List (Turn tree)
  | fuel + 1, .waiting run, system =>
    system.turnsOfRound ++
      match system.afterRound? with
      | none => []
      | some next =>
        if next.called then
          next.turnOfFront :: turnsOfCompletion fuel next.runFront.1 next.runFront.2.1
        else turnsOfCompletion fuel (.waiting run) next
  | _, _, _ => []

/-- The turns in an execution of the root. -/
def turnsOfExecution (system : System tree) : List (Turn tree) :=
  let first := system.refreshed
  first.turnOfFront ::
    turnsOfCompletion first.runFront.2.1.patience first.runFront.1 first.runFront.2.1

/-- The turns until a point in time. -/
def turnsUntil (target : Nat) : Nat → System tree → List (Turn tree)
  | 0, _ => []
  | fuel + 1, system =>
    let settled := system.settle.1
    turnsOfSettling system.patience system ++
      match settled.nextDue? with
      | some time => if time ≤ target then turnsUntil target fuel (settled.moveClock time) else []
      | none => []

/-- The turns while a duration passes. -/
def turnsOfPassing (system : System tree) (duration : Nat) : List (Turn tree) :=
  turnsUntil (system.world.now + duration) system.patience system

/-- The turns in the course of an operation. -/
def turnsOf (system : System tree) : Operation → List (Turn tree)
  | .execute => system.turnsOfExecution
  | .abort => []
  | .reset => []
  | .pass duration => system.turnsOfPassing duration

/-- The turns in the course of several operations. -/
def turnsAlong (system : System tree) : List Operation → List (Turn tree)
  | [] => []
  | operation :: operations =>
    system.turnsOf operation ++ turnsAlong (system.next operation) operations

end System

/-! ## The journal is that of the turns -/

/-- The journals of several turns. -/
def journalOf (turns : List (Turn tree)) : Journal := turns.flatMap (·.progress.journal)

/-- The journals of turns come one after the other. -/
theorem journalOf_append (first rest : List (Turn tree)) :
    journalOf (first ++ rest) = journalOf first ++ journalOf rest := List.flatMap_append

/-- The journal of the first turn comes first. -/
theorem journalOf_cons (turn : Turn tree) (rest : List (Turn tree)) :
    journalOf (turn :: rest) = turn.progress.journal ++ journalOf rest := rfl

namespace System

/-- The task with a number has that number. -/
theorem id_eq_of_task? {system : System tree} {id : Nat} {task : Task}
    (htask : system.task? id = some task) : task.id = id := by
  simpa using List.find?_some htask

/-- Without a task there is nothing to run. -/
theorem runTask_of_none {system : System tree} {id : Nat} (htask : system.task? id = none) :
    system.runTask id = (system, []) := by
  rw [task?] at htask
  rw [runTask, htask]

/-- The system after the turn of a task. -/
def afterTurn (system : System tree) (task : Task) : System tree :=
  let progress := (system.turnOfTask task).progress
  let system := system.absorb progress
  match progress.result with
  | .waiting run => system.park task.id run progress.again
  | .answered status => system.conclude task.id (some status)
  | .failed _ => system.conclude task.id none

/-- Running a task is giving it a turn. -/
theorem runTask_of_some {system : System tree} {id : Nat} {task : Task}
    (htask : system.task? id = some task) :
    system.runTask id = (system.afterTurn task, (system.turnOfTask task).progress.journal) := by
  have hid := id_eq_of_task? htask
  subst hid
  rw [task?] at htask
  rw [runTask, htask, afterTurn]
  dsimp only [turnOfTask, Turn.progress]
  cases (advanceAt tree task.path task.run system.memory
    (system.world.beginTurn (.task task.id))).result <;> rfl

/-- The journal of running a task is that of its turn. -/
theorem journal_runTask (system : System tree) (id : Nat) :
    (system.runTask id).2 = journalOf (system.turnOf? id).toList := by
  rw [turnOf?]
  cases htask : system.task? id with
  | none => rw [runTask_of_none htask]; rfl
  | some task =>
    rw [runTask_of_some htask]
    exact (List.append_nil _).symm

/-- The journal of running several tasks is that of their turns. -/
theorem journal_runTasks (count : Nat) (system : System tree) :
    (system.runTasks count).2 = journalOf (system.turnsOfTasks count) := by
  induction count generalizing system with
  | zero => rfl
  | succ count ih =>
    rw [runTasks, turnsOfTasks]
    cases hready : system.ready with
    | nil => rfl
    | cons id rest =>
      dsimp only
      rw [journalOf_append, journal_runTask, ih]

/-- The journal of a round is that of its turns. -/
theorem journal_round (system : System tree) :
    system.round.2 = journalOf system.turnsOfRound := journal_runTasks roundLength system

/-- The journal of the rounds until nobody is called is that of their turns. -/
theorem journal_settleWith (fuel : Nat) (system : System tree) :
    (settleWith fuel system).2 = journalOf (turnsOfSettling fuel system) := by
  induction fuel generalizing system with
  | zero => rfl
  | succ fuel ih =>
    rw [settleWith, turnsOfSettling]
    split
    · rfl
    · rw [journalOf_append, ← journal_round, ← ih]

/-- The turn of the foreground is the turn of the whole tree. -/
theorem progress_turnOfFront (system : System tree) :
    system.turnOfFront.progress = system.frontTurn := by
  rw [Turn.progress, turnOfFront, advanceAt_nil, frontTurn]

/-- The journal of running the foreground is that of its turn. -/
theorem journal_runFront (system : System tree) :
    system.runFront.2.2 = system.turnOfFront.progress.journal := by
  rw [progress_turnOfFront, runFront_eq]

/-- The foreground waits through a round, and has a turn after it if it has been called. -/
theorem complete_waiting (fuel : Nat) (run : Run) (system : System tree) :
    complete (fuel + 1) (.waiting run) system =
      match system.afterRound? with
      | none => (.error .endless, { system.round.1 with front := none }, system.round.2)
      | some next =>
        let turn := if next.called then next.runFront else (.waiting run, next, [])
        let rest := complete fuel turn.1 turn.2.1
        (rest.1, rest.2.1, system.round.2 ++ (turn.2.2 ++ rest.2.2)) := rfl

/-- The journal of completing an execution is that of its turns. -/
theorem journal_complete (fuel : Nat) (outcome : Outcome) (system : System tree) :
    (complete fuel outcome system).2.2 = journalOf (turnsOfCompletion fuel outcome system) := by
  induction fuel generalizing outcome system with
  | zero => cases outcome <;> rfl
  | succ fuel ih =>
    cases outcome with
    | answered status => rfl
    | failed fault => rfl
    | waiting run =>
      rw [complete_waiting, turnsOfCompletion, journalOf_append, ← journal_round]
      cases system.afterRound? with
      | none => exact (List.append_nil _).symm
      | some next =>
        dsimp only
        split
        · rw [journalOf_cons, ← journal_runFront, ← ih]
        · rw [← ih]
          rfl

/-- Whatever happens in an execution happens in one of its turns. -/
theorem journal_execute (system : System tree) :
    system.execute.2.2 = journalOf system.turnsOfExecution := by
  rw [execute, turnsOfExecution, journalOf_cons, ← journal_runFront, ← journal_complete]

/-- The journal of the time that passes is that of the turns until then. -/
theorem journal_passTo (target fuel : Nat) (system : System tree) :
    (passTo target fuel system).2 = journalOf (turnsUntil target fuel system) := by
  induction fuel generalizing system with
  | zero => rfl
  | succ fuel ih =>
    rw [passTo, turnsUntil, journalOf_append, settle, ← journal_settleWith]
    dsimp only
    cases (settleWith system.patience system).1.nextDue? with
    | none => exact (List.append_nil _).symm
    | some time =>
      dsimp only
      split
      · rw [← ih]
      · exact (List.append_nil _).symm

/-- Whatever happens while time passes happens in one of the turns. -/
theorem journal_pass (system : System tree) (duration : Nat) :
    (system.pass duration).2 = journalOf (system.turnsOfPassing duration) :=
  journal_passTo _ _ _

end System

end BehaviorTree
