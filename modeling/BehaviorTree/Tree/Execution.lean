import BehaviorTree.Tree.Control
import BehaviorTree.Tree.Crowd

/-!
# Executing trees

Advancing a tree begins an execution or takes a suspended one up again, and goes on until the
root answers or everything in it waits. Children that run side by side are advanced in order
if they are few; of many, those that have been called are advanced in the order of the calls.
A run that is advanced while nothing it waits for has happened stays as it is.
-/

namespace BehaviorTree

/-- Why an execution ends without an answer. -/
inductive Fault where
  /-- A node crashed. -/
  | crashed
  /-- A node used up its allowance of moves within one instant. -/
  | endless
  deriving DecidableEq

/-- How far an execution has come. -/
inductive Outcome where
  | answered (status : Status)
  | waiting (run : Run)
  | failed (fault : Fault)

/-- A task that was started: its number and the position of the tree it executes. -/
structure Spawn where
  /-- The number of the task. -/
  task : Nat
  /-- The position of the tree that it executes, seen from here. -/
  path : Path
  deriving DecidableEq

/-- A task that is started by a child, as it is seen from the node. -/
def Spawn.under (index : Nat) (spawn : Spawn) : Spawn := { spawn with path := index :: spawn.path }

/-- What a stretch of execution leaves behind: its result, the memory and the world after
it, what happened, and the tasks it started. `again` says that it gave way on its own account
and is to be called again. -/
structure Progress (ρ μ : Type) where
  /-- What has come of the stretch. -/
  result : ρ
  /-- What the nodes keep after it. -/
  memory : μ
  /-- The world after it. -/
  world : World
  /-- What happened in the course of it. -/
  journal : Journal := []
  /-- The tasks that were started in the course of it. -/
  spawned : List Spawn := []
  /-- Whether it gave way on its own account and is to be called again. -/
  again : Bool := false

namespace Progress

variable {ρ τ μ ν : Type}

/-- The progress of a child, seen from its parent. -/
def under (index : Nat) (progress : Progress ρ μ) : Progress ρ μ :=
  { progress with
    journal := progress.journal.map (·.under index)
    spawned := progress.spawned.map (·.under index) }

/-- The same progress with something before it. -/
def after (journal : Journal) (spawned : List Spawn) (again : Bool) (progress : Progress ρ μ) :
    Progress ρ μ :=
  { progress with
    journal := journal ++ progress.journal
    spawned := spawned ++ progress.spawned
    again := again || progress.again }

/-- Goes on from where a stretch of execution ended. -/
def andThen (progress : Progress ρ μ) (next : ρ → μ → World → Progress τ ν) : Progress τ ν :=
  (next progress.result progress.memory progress.world).after progress.journal progress.spawned
    progress.again

/-- The same progress with the result and the memory seen differently. -/
def map (result : ρ → τ) (memory : μ → ν) (progress : Progress ρ μ) : Progress τ ν :=
  { progress with result := result progress.result, memory := memory progress.memory }

end Progress

/-- What a node can do with its children, whose memories are `μ`. -/
structure Crew (μ : Type) where
  /-- Gives a turn to the child with an index, which begins or takes up a suspended execution. -/
  advance : Nat → Option Run → μ → World → Progress Outcome μ
  /-- Gives a turn to all children that have not answered, one after the other. -/
  advanceAll : List (Slot Run) → μ → World → Progress (Except Fault (List (Slot Run))) μ
  /-- Aborts the child with an index at a time. -/
  abort : Nat → Nat → μ → μ × Journal
  /-- Resets the child with an index at a time. -/
  reset : Nat → Nat → μ → μ × Journal

/-- What follows from a request: a signal for the node, or a stop. -/
inductive Reply where
  | signal (signal : Signal)
  | stop (outcome : Outcome)

/-- What follows when a child has been advanced. -/
def replyOfChild (mark index : Nat) : Outcome → Reply
  | .answered status => .signal (.answered mark status)
  | .waiting run => .stop (.waiting (.child mark index run))
  | .failed fault => .stop (.failed fault)

/-- What follows when several children have been advanced. -/
def replyOfAll : Except Fault (List (Slot Run)) → Reply
  | .error fault => .stop (.failed fault)
  | .ok slots =>
    match Slot.allAnswered? slots with
    | some statuses => .signal (.gathered statuses)
    | none => .stop (.waiting (.together slots))

/-- What follows when the called children of a crowd have been advanced. -/
def replyOfTour : Except Fault Tour → Reply
  | .error fault => .stop (.failed fault)
  | .ok tour =>
    match Slot.allAnswered? tour.slots with
    | some statuses => .signal (.gathered statuses)
    | none => .stop (.waiting (.crowd tour.crowd tour.slots tour.called))

/-- Looks at what holds a node up. When no more waits may end within this turn it is put off to
the next one. A timer whose time has come comes first in a race, and a timer is started only
when there is something to wait for. -/
def attend {μ : Type} (pause : Pause) (below : μ) (world : World) : Progress Reply μ :=
  if world.waitsLeft = 0 then
    { result := .stop (.waiting (.paused pause)), memory := below, world := world.putOffWait }
  else if pause.timer.due ≤ world.now then
    let signal :=
      match pause with
      | .sleep mark _ => .woken mark
      | .race _ _ => .expired
    { result := .signal signal, memory := below, world := world.endWait }
  else
    let result? :=
      match pause with
      | .sleep _ _ => none
      | .race task _ => world.result? task
    match result? with
    | some status =>
      { result := .signal (.joined status), memory := below, world := world.endWait }
    | none =>
      let (pause, world) := world.startTimer pause
      { result := .stop (.waiting (.paused pause)), memory := below, world }

namespace Crew

variable {μ : Type} (crew : Crew μ)

/-- Advances one child of a crowd, which has the turn meanwhile. -/
def advanceMember (tour : Tour) (index : Nat) (below : μ) (world : World) : Progress Outcome μ :=
  let progress :=
    crew.advance index (tour.run? index) below (world.handTo (.member tour.crowd index))
  { progress with world := progress.world.handTo world.present }

/-- Advances the called children of a crowd until none is left or the crowd gives way. The
first argument bounds the number of children. -/
def advanceCalled : Nat → Tour → μ → World → Progress (Except Fault Tour) μ
  | 0, tour, below, world => { result := .ok tour, memory := below, world }
  | fuel + 1, tour, below, world =>
    match tour.called with
    | [] => { result := .ok tour, memory := below, world }
    | index :: called =>
      let tour := { tour with called }
      if tour.hasAnswer index then advanceCalled fuel tour below world
      else
        let progress := (crew.advanceMember tour index below world).under index
        progress.andThen fun outcome below world =>
          match outcome with
          | .failed fault => { result := .error fault, memory := below, world }
          | .answered status => advanceCalled fuel (tour.answer index status) below world
          | .waiting run =>
            let tour := tour.suspend index run progress.again
            if tour.givesWay then { result := .ok tour, memory := below, world, again := true }
            else advanceCalled fuel tour below world

/-- Advances a crowd. -/
def advanceCrowd (tour : Tour) (below : μ) (world : World) : Progress Reply μ :=
  (crew.advanceCalled tour.bound tour below world).map replyOfTour id

/-- The greatest number of children that are few. -/
def few : Nat := 30

/-- Begins to run all children side by side. -/
def beginAll (size : Nat) (below : μ) (world : World) : Progress Reply μ :=
  let slots := List.replicate size .fresh
  if size ≤ few then (crew.advanceAll slots below world).map replyOfAll id
  else
    let (crowd, world) := world.formCrowd
    crew.advanceCrowd (.ofSlots crowd slots (List.range size)) below world

/-- Serves a request. -/
def serve (size : Nat) (request : Request) (below : μ) (world : World) : Progress Reply μ :=
  match request with
  | .finish status => { result := .stop (.answered status), memory := below, world }
  | .crash => { result := .stop (.failed .crashed), memory := below, world }
  | .run mark index =>
    ((crew.advance index none below world).under index).map (replyOfChild mark index) id
  | .runAll => crew.beginAll size below world
  | .sleep mark duration => attend (.sleep mark ⟨world.now + duration, none⟩) below world
  | .race index limit =>
    let (task, world) := world.startTask
    (attend (.race task ⟨world.now + limit, none⟩) below world).after [] [⟨task, [index]⟩] false
  | .resetChild index =>
    let (below, journal) := crew.reset world.now index below
    { result := .signal .childReset, memory := below, world,
      journal := journal.map (·.under index) }
  | .abortChild index =>
    let (below, journal) := crew.abort world.now index below
    { result := .signal .childAborted, memory := below, world,
      journal := journal.map (·.under index) }

/-- Looks after a suspended execution. -/
def recheck (run : Run) (below : μ) (world : World) : Progress Reply μ :=
  match run with
  | .child mark index run =>
    ((crew.advance index (some run) below world).under index).map (replyOfChild mark index) id
  | .paused pause => attend pause below world
  | .together slots => (crew.advanceAll slots below world).map replyOfAll id
  | .crowd crowd slots called => crew.advanceCrowd (.ofSlots crowd slots called) below world

/-- Sends signals to a node and serves its requests until it stops. The first argument
bounds the number of moves. -/
def drive {κ : Type} [Application κ] (name : String) (kind : Kind κ) (size : Nat) :
    Nat → Reply → Cell kind.State → μ → World → Progress Outcome (Cell kind.State × μ)
  | _, .stop outcome, cell, below, world => { result := outcome, memory := (cell, below), world }
  | 0, .signal _, cell, below, world =>
    { result := .failed .endless, memory := (cell, below), world }
  | fuel + 1, .signal signal, cell, below, world =>
    let moment : Moment := ⟨name, size, world.now, world.context cell.binding⟩
    let move := kind.respond moment cell.state signal
    let (world, binding) := world.write cell.binding move.writes
    let served := crew.serve size move.request below world
    (served.andThen (drive name kind size fuel · ⟨move.state, binding⟩ · ·)).after
      (move.notices.map (noticeAt world.now)) [] false

end Crew

/-- The journal entry for the end of an execution, if it has ended. -/
def exitEntry {κ : Type} [Application κ] (name : String) (kind : Kind κ)
    (progress : Progress Outcome (Cell kind.State × μ)) : Journal :=
  match progress.result with
  | .answered status =>
    [eventAt progress.world.now
      (.exited name status (kind.gauge? progress.memory.1.state))]
  | _ => []

variable {κ : Type} [Application κ]

mutual

/-- Begins an execution of a tree, or takes up a suspended one. -/
def advance : (tree : Tree κ) → Option Run → Memory tree → World → Progress Outcome (Memory tree)
  | ⟨name, kind, children⟩, run, .node cell below, world =>
    let crew : Crew (Memories children) :=
      { advance := advanceChild children
        advanceAll := advanceAll children 0
        abort := fun now index memories => memories.abortChild now index
        reset := fun now index memories => memories.resetChild now index }
    let size := children.length
    let driven :=
      match run with
      | none =>
        (crew.drive name kind size (kind.allowance size) (.signal .started) cell below world).after
          [eventAt world.now (.entered name)] [] false
      | some run =>
        (crew.recheck run below world).andThen
          (crew.drive name kind size (kind.allowance size) · cell · ·)
    { result := driven.result
      memory := .node driven.memory.1 driven.memory.2
      world := driven.world
      journal := driven.journal ++ exitEntry name kind driven
      spawned := driven.spawned
      again := driven.again }

/-- Advances the child with an index. The progress is that child's own. -/
def advanceChild : (trees : List (Tree κ)) → Nat → Option Run → Memories trees → World →
    Progress Outcome (Memories trees)
  | [], _, _, .nil, world => { result := .failed .crashed, memory := .nil, world }
  | tree :: _, 0, run, .cons first rest, world =>
    (advance tree run first world).map id (.cons · rest)
  | _ :: trees, index + 1, run, .cons first rest, world =>
    (advanceChild trees index run rest world).map id (.cons first ·)

/-- Advances those of several trees that have not answered yet, the first tree being the child
with the given index. A fault ends it. -/
def advanceAll : (trees : List (Tree κ)) → Nat → List (Slot Run) → Memories trees → World →
    Progress (Except Fault (List (Slot Run))) (Memories trees)
  | [], _, _, .nil, world => { result := .ok [], memory := .nil, world }
  | _ :: _, _, [], memories, world => { result := .ok [], memory := memories, world }
  | _ :: trees, index, .answered status :: slots, .cons first rest, world =>
    (advanceAll trees (index + 1) slots rest world).map
      (·.map (.answered status :: ·)) (.cons first ·)
  | tree :: trees, index, slot :: slots, .cons first rest, world =>
    let run :=
      match slot with
      | .waiting run => some run
      | _ => none
    ((advance tree run first world).under index).andThen fun outcome first world =>
      match outcome with
      | .failed fault => { result := .error fault, memory := .cons first rest, world }
      | .answered status =>
        (advanceAll trees (index + 1) slots rest world).map
          (·.map (.answered status :: ·)) (.cons first ·)
      | .waiting run =>
        (advanceAll trees (index + 1) slots rest world).map
          (·.map (.waiting run :: ·)) (.cons first ·)

end

/-- Advances the tree at a position inside a tree. -/
def advanceAt : (tree : Tree κ) → Path → Option Run → Memory tree → World →
    Progress Outcome (Memory tree)
  | tree, [], run, memory, world => advance tree run memory world
  | ⟨_, _, children⟩, index :: path, run, .node cell below, world =>
    ((advanceIn children index path run below world).under index).map id (.node cell ·)
where
  /-- Advances the tree at a position inside one of several trees. -/
  advanceIn : (trees : List (Tree κ)) → Nat → Path → Option Run → Memories trees → World →
      Progress Outcome (Memories trees)
    | [], _, _, _, .nil, world => { result := .failed .crashed, memory := .nil, world }
    | tree :: _, 0, path, run, .cons first rest, world =>
      (advanceAt tree path run first world).map id (.cons · rest)
    | _ :: trees, index + 1, path, run, .cons first rest, world =>
      (advanceIn trees index path run rest world).map id (.cons first ·)

end BehaviorTree
