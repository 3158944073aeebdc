import BehaviorTree.Tree.Execution

/-!
# Running a tree in virtual time

A system is a tree's memory together with its world, the execution in the foreground and the
tasks that run beside it. Computing takes no time: the clock moves only when everything waits,
and then to the next timer that is due.

Whoever waits is called when what it waits for happens. The timers that are due at one instant
call in the order in which they were started. In each round the foreground has the first turn,
if it has been called; then the tasks have theirs, in the order in which they were called, but
no more than a certain number of them; and then those are called that put a wait off.
-/

namespace BehaviorTree

/-- An execution of the tree at a position, detached from the execution that started it. It
has no run before it begins. -/
structure Task where
  /-- The number of the task. -/
  id : Nat
  /-- The position of the tree that it executes. -/
  path : Path
  /-- The suspended execution, if it has begun. -/
  run : Option Run

/-- A tree that is being run. `called` says whether the foreground is to have the next turn,
and `ready` which tasks have been called. -/
structure System {κ : Type} [Application κ] (tree : Tree κ) where
  /-- What the nodes keep. -/
  memory : Memory tree
  /-- What all nodes see and change. -/
  world : World
  /-- The suspended execution of the root, if one is under way. -/
  front : Option Run := none
  /-- Whether the foreground is to have the next turn. -/
  called : Bool := false
  /-- The tasks that are under way, in the order in which they were started. -/
  tasks : List Task := []
  /-- The numbers of the tasks that have been called, in the order of the calls. -/
  ready : List Nat := []

namespace Task

/-- The timers that a task waits for. -/
def timers (task : Task) : List Timer := (task.run.map Run.timers).getD []

/-- Whether a call concerns a task that is under way. -/
def awaits (call : Call) (task : Task) : Bool := task.run.any (·.awaits call)

/-- Passes a call on to a task that is under way. -/
def notify (call : Call) (task : Task) : Task :=
  { task with run := task.run.map (·.notify call) }

end Task

namespace Timer

/-- Puts a timer with its number into a list ordered by time and number. -/
def insertDue (due order : Nat) : List (Nat × Nat) → List (Nat × Nat)
  | [] => [(due, order)]
  | (d, o) :: rest =>
    if due < d ∨ due = d ∧ order < o then (due, order) :: (d, o) :: rest
    else (d, o) :: insertDue due order rest

/-- The numbers of those started timers whose time has come, in the order in which they
call. -/
def calling (now : Nat) (timers : List Timer) : List Nat :=
  (timers.foldl (fun found timer =>
    match timer.order with
    | some order => if timer.due ≤ now then insertDue timer.due order found else found
    | none => found) []).map (·.2)

end Timer

/-- How many tasks have a turn before the foreground is looked at again. -/
def roundLength : Nat := 61

namespace System

variable {κ : Type} [Application κ] {tree : Tree κ}

/-- Passes a call on to the foreground and to the tasks. Those who waited for it are to have
a turn. -/
def call (system : System tree) (call : Call) : System tree :=
  let callsFront := system.front.any (·.awaits call)
  let woken := (system.tasks.filter (·.awaits call)).map (·.id)
  { system with
    front := system.front.map (·.notify call)
    called := system.called || callsFront
    tasks := system.tasks.map (·.notify call)
    ready := woken.foldl (fun ready id => enlist id ready) system.ready }

/-- Passes on several calls, one after the other. -/
def callAll (system : System tree) (calls : List Call) : System tree := calls.foldl call system

/-- Takes over the memory and the world after a stretch of execution, and the tasks that it
started. -/
def absorb {ρ : Type} (system : System tree) (progress : Progress ρ (Memory tree)) :
    System tree :=
  { system with
    memory := progress.memory
    world := progress.world
    tasks := system.tasks ++ progress.spawned.map fun spawn => ⟨spawn.task, spawn.path, none⟩
    ready := system.ready ++ progress.spawned.map (·.task) }

/-- Notes where a task waits, and whether it is to be called again. -/
def park (system : System tree) (id : Nat) (run : Run) (again : Bool) : System tree :=
  { system with
    tasks := system.tasks.map fun task =>
      if task.id = id then { task with run := some run } else task
    ready := if again then enlist id system.ready else system.ready }

/-- Removes a task that has ended and calls whoever waits for its result. -/
def conclude (system : System tree) (id : Nat) (result : Option Status) : System tree :=
  { system with
    tasks := system.tasks.filter fun task => task.id != id
    world := { system.world with results := system.world.results ++ [(id, result)] } }.call
    (.ended id)

/-- Gives one task a turn. -/
def runTask (system : System tree) (id : Nat) : System tree × Journal :=
  match system.tasks.find? fun task => task.id = id with
  | none => (system, [])
  | some task =>
    let progress :=
      advanceAt tree task.path task.run system.memory (system.world.beginTurn (.task id))
    let system := system.absorb progress
    let journal := progress.journal
    match progress.result with
    | .waiting run => (system.park id run progress.again, journal)
    | .answered status => (system.conclude id (some status), journal)
    | .failed _ => (system.conclude id none, journal)

/-- Gives the foreground a turn. -/
def runFront (system : System tree) : Outcome × System tree × Journal :=
  let progress := advance tree system.front system.memory (system.world.beginTurn .front)
  let system := system.absorb progress
  match progress.result with
  | .waiting run =>
    (.waiting run, { system with front := some run, called := progress.again }, progress.journal)
  | outcome => (outcome, { system with front := none, called := false }, progress.journal)

/-- Gives turns to the tasks that have been called, to as many as the first argument says. -/
def runTasks : Nat → System tree → System tree × Journal
  | 0, system => (system, [])
  | count + 1, system =>
    match system.ready with
    | [] => (system, [])
    | id :: rest =>
      let (system, journal) := { system with ready := rest }.runTask id
      let (system, others) := runTasks count system
      (system, journal ++ others)

/-- Calls a party. -/
def callParty (system : System tree) : Party → System tree
  | .front => { system with called := system.called || system.front.isSome }
  | .task id =>
    if system.tasks.any fun task => task.id = id then
      { system with ready := enlist id system.ready }
    else system
  | .member crowd index => system.call (.turn crowd index)

/-- Calls those who put a wait off, the latest first. -/
def resume (system : System tree) : System tree :=
  system.world.putOff.reverse.foldl callParty
    { system with world := { system.world with putOff := [] } }

/-- The part of a round that belongs to the tasks. -/
def round (system : System tree) : System tree × Journal :=
  let (system, journal) := system.runTasks roundLength
  (system.resume, journal)

/-- Whether nobody is called. -/
def isIdle (system : System tree) : Bool := !system.called && system.ready.isEmpty

/-- Goes on with rounds until nobody is called. The fuel bounds their number. -/
def settleWith : Nat → System tree → System tree × Journal
  | 0, system => (system, [])
  | fuel + 1, system =>
    if system.ready.isEmpty then (system, [])
    else
      let (system, journal) := system.round
      let (system, others) := settleWith fuel system
      (system, journal ++ others)

/-- How many rounds are allowed: what all executions under way can ask for, several times
over. Only a node that retries without limit, or one of an application, can need more. -/
def patience (system : System tree) : Nat :=
  Kind.patience + 8 * (system.tasks.length + 1) * (tree.span + 1)

/-- Lets all tasks run that can run without time passing. -/
def settle (system : System tree) : System tree × Journal := settleWith system.patience system

/-- All timers that anything waits for. -/
def timers (system : System tree) : List Timer :=
  (system.front.map Run.timers).getD [] ++ system.tasks.flatMap Task.timers

/-- The time of the next timer. -/
def nextDue? (system : System tree) : Option Nat := (system.timers.map (·.due)).min?

/-- Moves the clock, and lets the timers call whose time has come. -/
def moveClock (system : System tree) (time : Nat) : System tree :=
  let now := max system.world.now time
  { system with world := { system.world with now, results := [] } }.callAll
    ((Timer.calling now system.timers).map .due)

/-- Lets time pass until the foreground has answered. The fuel bounds the number of rounds. -/
def complete : Nat → Outcome → System tree → Except Fault Status × System tree × Journal
  | _, .answered status, system => (.ok status, system, [])
  | _, .failed fault, system => (.error fault, system, [])
  | 0, .waiting _, system => (.error .endless, { system with front := none }, [])
  | fuel + 1, .waiting run, system =>
    let (system, journal) := system.round
    let next? := if system.isIdle then system.nextDue?.map system.moveClock else some system
    match next? with
    | none => (.error .endless, { system with front := none }, journal)
    | some system =>
      let (outcome, system, own) :=
        if system.called then system.runFront else (.waiting run, system, [])
      let (result, system, others) := complete fuel outcome system
      (result, system, journal ++ (own ++ others))

/-- The system as an execution finds it. Numbers are taken anew when nothing is under way. -/
def refreshed (system : System tree) : System tree :=
  if system.tasks.isEmpty then
    { memory := system.memory, world := system.world.atRest }
  else system

/-- Executes the root once and lets time pass until it answers. -/
def execute (system : System tree) : Except Fault Status × System tree × Journal :=
  let (outcome, system, journal) := system.refreshed.runFront
  let (result, system, others) := complete system.patience outcome system
  (result, system, journal ++ others)

/-- Lets time pass up to a point while nothing is in the foreground. The fuel bounds the
number of clock steps. -/
def passTo (target : Nat) : Nat → System tree → System tree × Journal
  | 0, system => (system.moveClock target, [])
  | fuel + 1, system =>
    let (system, journal) := system.settle
    match system.nextDue? with
    | some time =>
      if time ≤ target then
        let (system, others) := passTo target fuel (system.moveClock time)
        (system, journal ++ others)
      else (system.moveClock target, journal)
    | none => (system.moveClock target, journal)

/-- Lets a duration pass. -/
def pass (system : System tree) (duration : Nat) : System tree × Journal :=
  passTo (system.world.now + duration) system.patience system

/-- Asks all nodes to abort. -/
def abort (system : System tree) : System tree × Journal :=
  let (memory, journal) := system.memory.abort system.world.now
  ({ system with memory }, journal)

/-- Resets all nodes. -/
def reset (system : System tree) : System tree × Journal :=
  let (memory, journal) := system.memory.reset system.world.now
  ({ system with memory }, journal)

/-- Whether a task executes the tree at a position. -/
def isHeld (system : System tree) (path : Path) : Bool :=
  system.tasks.any fun task => task.path = path

/-- Binds the nodes to a shared context. -/
def bind (system : System tree) (id : Nat) : System tree × Journal :=
  let (memory, journal) := system.memory.bind system.world.now id system.isHeld
  ({ system with memory }, journal)

/-- Adds a context and gives its number. -/
def addContext (system : System tree) (context : Context) : Nat × System tree :=
  (system.world.contexts.length,
    { system with
      world := { system.world with contexts := system.world.contexts ++ [context] } })

/-- The context with a number. -/
def context (system : System tree) (id : Nat) : Context := system.world.context (.shared id)

/-- Changes one of the shared contexts from outside. -/
def modifyContext (system : System tree) (id : Nat) (change : Context → Context) : System tree :=
  { system with world := system.world.modifyContext id change }

/-- The context that the root is bound to. -/
def rootContext (system : System tree) : Context := system.world.context system.memory.binding

/-- A tree that has never run in a world with one context. Every node has a context of its
own. -/
def unbound (tree : Tree κ) (context : Context) : System tree :=
  { memory := .fresh (.own {}) tree, world := { contexts := [context] } }

/-- A tree that has never run, with every node bound to the only context. -/
def bound (tree : Tree κ) (context : Context) : System tree :=
  { memory := .fresh (.shared 0) tree, world := { contexts := [context] } }

end System

end BehaviorTree
