import BehaviorTree.Tree.Basic

/-!
# The world that nodes share

Nodes see a clock, contexts and the results of tasks that have ended. A suspended execution is
a run: it says at which point each node on its way is held up, and by what. What happens
later is passed on along the run to whoever waits for it.

An execution goes on in turns. The waits that may end within one turn are counted, so that an
execution which never has to wait still gives way to the others.
-/

namespace BehaviorTree

/-- A point in time that something waits for. Timers are numbered in the order in which they
are started; one that has not been started has no number. -/
structure Timer where
  /-- The point in time. -/
  due : Nat
  /-- The number of the timer, if it has been started. -/
  order : Option Nat := none
  deriving DecidableEq

/-- What holds a node up by itself. -/
inductive Pause where
  | sleep (mark : Nat) (timer : Timer)
  /-- A child that runs as a task is raced against a timer. -/
  | race (task : Nat) (timer : Timer)
  deriving DecidableEq

/-- One child of several that run side by side. -/
inductive Slot (ρ : Type) where
  | fresh
  | answered (status : Status)
  | waiting (run : ρ)

/-- An execution that is suspended, seen from the node it belongs to. -/
inductive Run where
  /-- A child is suspended. -/
  | child (mark index : Nat) (run : Run)
  /-- The node itself is held up. -/
  | paused (pause : Pause)
  /-- Some children of a few are suspended. In every turn each of them is looked at. -/
  | together (slots : List (Slot Run))
  /-- Some children of many are suspended. Only those that have been called are looked at, in
  the order of the calls. Crowds are numbered in the order in which they are formed. -/
  | crowd (id : Nat) (slots : List (Slot Run)) (called : List Nat)

/-- A run that waits for nobody stands in where none is given. -/
instance : Inhabited Run := ⟨.together []⟩

/-- Whoever can have a turn: the foreground, a task, or a child of a crowd. -/
inductive Party where
  | front
  | task (id : Nat)
  | member (crowd index : Nat)
  deriving DecidableEq

/-- Something that happens and that concerns a run. -/
inductive Call where
  /-- The time of the timer with this number has come. -/
  | due (order : Nat)
  | ended (task : Nat)
  /-- A child of a crowd is to have a turn. -/
  | turn (crowd index : Nat)
  deriving DecidableEq

/-- The child of a crowd that is to have a turn, if it is suspended. -/
def Call.member? {ρ : Type} (call : Call) (id : Nat) (slots : List (Slot ρ)) : Option Nat :=
  match call with
  | .turn crowd index =>
    match slots[index]? with
    | some (.waiting _) => if crowd = id then some index else none
    | _ => none
  | _ => none

namespace Pause

/-- The timer that ends a pause. -/
def timer : Pause → Timer
  | sleep _ timer => timer
  | race _ timer => timer

/-- The pause with its timer started under a number. -/
def started (order : Nat) : Pause → Pause
  | sleep mark timer => sleep mark { timer with order := some order }
  | race task timer => race task { timer with order := some order }

/-- Whether a pause waits for something. A race waits for its task once it has begun. -/
def awaits (pause : Pause) : Call → Bool
  | .due order => pause.timer.order = some order
  | .ended id =>
    match pause with
    | sleep _ _ => false
    | race task timer => task = id && timer.order.isSome
  | .turn _ _ => false

end Pause

mutual

/-- The started timers that a run waits for. -/
def Run.timers : Run → List Timer
  | .child _ _ run => run.timers
  | .paused pause => if pause.timer.order.isSome then [pause.timer] else []
  | .together slots => slotTimers slots
  | .crowd _ slots _ => slotTimers slots

/-- The timers that children side by side wait for. -/
def slotTimers : List (Slot Run) → List Timer
  | [] => []
  | .fresh :: rest => slotTimers rest
  | .answered _ :: rest => slotTimers rest
  | .waiting run :: rest => run.timers ++ slotTimers rest

end

mutual

/-- Whether something concerns a run. -/
def Run.awaits (call : Call) : Run → Bool
  | .child _ _ run => run.awaits call
  | .paused pause => pause.awaits call
  | .together slots => (slotAwaiting? call slots).isSome
  | .crowd id slots _ => (call.member? id slots).isSome || (slotAwaiting? call slots).isSome

/-- The position of the first slot that something concerns. -/
def slotAwaiting? (call : Call) : List (Slot Run) → Option Nat
  | [] => none
  | .fresh :: rest => (slotAwaiting? call rest).map (· + 1)
  | .answered _ :: rest => (slotAwaiting? call rest).map (· + 1)
  | .waiting run :: rest =>
    if run.awaits call then some 0 else (slotAwaiting? call rest).map (· + 1)

end

/-- Puts an index at the end of a list, unless it is there already. -/
def enlist (index : Nat) (called : List Nat) : List Nat :=
  if called.contains index then called else called ++ [index]

mutual

/-- Passes a call on along a run to whoever it concerns: in every crowd on the way the child
concerned is called. -/
def Run.notify (call : Call) : Run → Run
  | .child mark index run => .child mark index (run.notify call)
  | .paused pause => .paused pause
  | .together slots => .together (notifySlots call slots)
  | .crowd id slots called =>
    .crowd id (notifySlots call slots)
      (match (call.member? id slots).or (slotAwaiting? call slots) with
      | some index => enlist index called
      | none => called)

/-- Passes a call on to each child that is suspended. -/
def notifySlots (call : Call) : List (Slot Run) → List (Slot Run)
  | [] => []
  | .fresh :: rest => .fresh :: notifySlots call rest
  | .answered status :: rest => .answered status :: notifySlots call rest
  | .waiting run :: rest => .waiting (run.notify call) :: notifySlots call rest

end

/-- How many waits may end within one turn. -/
def turnLength : Nat := 128

/-- What all nodes see and change. A task that crashed ends without a status. -/
structure World where
  /-- The time in milliseconds. -/
  now : Nat := 0
  /-- The shared contexts by number. -/
  contexts : List Context := []
  /-- How many timers have been started so far. -/
  timersStarted : Nat := 0
  /-- How many tasks have been started so far. -/
  tasksStarted : Nat := 0
  /-- How many crowds have been formed so far. -/
  crowdsFormed : Nat := 0
  /-- Whose turn it is. -/
  present : Party := .front
  /-- How many more waits may end within the present turn. -/
  waitsLeft : Nat := turnLength
  /-- Who put a wait off to another turn, in order. -/
  putOff : List Party := []
  /-- How tasks ended since the clock last moved. -/
  results : List (Nat × Option Status) := []

namespace World

/-- The context that a binding stands for. -/
def context (world : World) : Binding → Context
  | .own context => context
  | .shared id => (world.contexts[id]?).getD {}

/-- Changes a shared context. -/
def modifyContext (world : World) (id : Nat) (change : Context → Context) : World :=
  { world with contexts := world.contexts.modify id change }

/-- Writes to the context that a binding stands for. -/
def write (world : World) (binding : Binding) (writes : List (String × Value)) :
    World × Binding :=
  match binding with
  | .own context => (world, .own (context.setAll writes))
  | .shared id => (world.modifyContext id (·.setAll writes), .shared id)

/-- Starts the timer of a pause, unless it has been started. -/
def startTimer (world : World) (pause : Pause) : Pause × World :=
  if pause.timer.order.isSome then (pause, world)
  else
    (pause.started world.timersStarted, { world with timersStarted := world.timersStarted + 1 })

/-- Takes the number for a new task. -/
def startTask (world : World) : Nat × World :=
  (world.tasksStarted, { world with tasksStarted := world.tasksStarted + 1 })

/-- Takes the number for a new crowd. -/
def formCrowd (world : World) : Nat × World :=
  (world.crowdsFormed, { world with crowdsFormed := world.crowdsFormed + 1 })

/-- Notes that whoever has the turn puts a wait off. -/
def putOffWait (world : World) : World := { world with putOff := world.putOff ++ [world.present] }

/-- Begins a turn. -/
def beginTurn (world : World) (party : Party) : World :=
  { world with present := party, waitsLeft := turnLength }

/-- Hands the present turn over. -/
def handTo (world : World) (party : Party) : World := { world with present := party }

/-- Notes that a wait has ended. -/
def endWait (world : World) : World := { world with waitsLeft := world.waitsLeft - 1 }

/-- How a task ended, if it has. -/
def result? (world : World) (task : Nat) : Option (Option Status) := world.results.lookup task

/-- The world with all numbering begun anew, which is right when nothing is under way. -/
def atRest (world : World) : World := { now := world.now, contexts := world.contexts }

end World

end BehaviorTree
