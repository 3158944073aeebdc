import BehaviorTree.Schedule.System

/-!
# Ticking a tree

A session ticks a tree again and again. It counts the ticks, remembers the last status and
reports when the status changes.
-/

namespace BehaviorTree

/-- A tree in use, together with the context its nodes share. -/
structure Session {κ : Type} [Application κ] (tree : Tree κ) where
  /-- The tree with its world and its tasks. -/
  system : System tree
  /-- The number of the shared context. -/
  context : Nat := 0
  /-- The status of the latest tick, if there has been one. -/
  last : Option Status := none
  /-- The number of ticks so far. -/
  ticks : Nat := 0

namespace Session

variable {κ : Type} [Application κ] {tree : Tree κ}

/-- The report of a tick, if its status differs from the last one. -/
def changeReport (session : Session tree) (status : Status) (now : Nat) : Journal :=
  if session.last = some status then []
  else [noticeAt now (.statusChanged tree.name status (session.ticks + 1))]

/-- Executes the root once. A fault is not an answer and leaves count and status alone. -/
def tick (session : Session tree) : Except Fault Status × Session tree × Journal :=
  let (result, system, journal) := session.system.execute
  match result with
  | .ok status =>
    let report := session.changeReport status system.world.now
    (result, { session with system, last := some status, ticks := session.ticks + 1 },
      journal ++ report)
  | .error _ => (result, { session with system }, journal)

/-- Asks all nodes to abort. -/
def abort (session : Session tree) : Session tree × Journal :=
  let report := noticeAt session.system.world.now (.abortingTree tree.name)
  let (system, journal) := session.system.abort
  ({ session with system }, report :: journal)

/-- Resets all nodes and forgets the last status. The ticks stay counted. -/
def reset (session : Session tree) : Session tree × Journal :=
  let (system, journal) := session.system.reset
  ({ session with system, last := none }, journal)

/-- A session on a tree that has never run, built by hand: its nodes are bound to the
context now. -/
def begin (tree : Tree κ) (context : Context) : Session tree × Journal :=
  let (system, journal) := (System.unbound tree context).bind 0
  ({ system }, journal)

end Session

end BehaviorTree
