import BehaviorTree.Proofs.Tree.Turn

/-!
# A tree between its turns

The tree may be part of a larger one. Then its root gets turns in worlds that others change, it
is aborted and reset from above, its runs are notified of calls, and detached executions change
what is below the root. All of that comes as a list of acts in any order. Only the state of the
root itself is left to the root, to an abort and to a reset.
-/

namespace BehaviorTree

open Journal

variable {κ : Type} [Application κ]

/-- The state of the root's kind. -/
def Memory.state : {tree : Tree κ} → Memory tree → tree.kind.State
  | _, .node cell _ => cell.state

/-- The memory with everything except the root's own state as given. -/
def Memory.around : {tree : Tree κ} → Binding → Memories tree.children → Memory tree → Memory tree
  | _, binding, below, .node cell _ => .node ⟨cell.state, binding⟩ below

/-- A tree between its turns: its memory, and the execution that is under way. -/
structure Stage (tree : Tree κ) where
  /-- What the nodes keep. -/
  memory : Memory tree
  /-- The execution that is under way, if there is one. -/
  run : Option Run := none

/-- What can happen to a tree. -/
inductive Act (tree : Tree κ) where
  /-- The root has a turn in a world. -/
  | turn (world : World)
  | abort (now : Nat)
  | reset (now : Nat)
  /-- The execution under way is notified of a call. -/
  | notify (call : Call)
  /-- Others bind the root, or change what is below it. -/
  | around (binding : Binding) (below : Memories tree.children)

/-- Whether an act puts the root back. -/
def Act.interrupts {tree : Tree κ} : Act tree → Bool
  | .abort _ | .reset _ => true
  | .turn _ | .notify _ | .around .. => false

namespace Stage

variable {tree : Tree κ}

/-- A tree that has never run. -/
def fresh (tree : Tree κ) (binding : Binding) : Stage tree := { memory := .fresh binding tree }

/-- What the root does in a turn: it begins an execution, or takes up the one under way. -/
def turn (stage : Stage tree) (world : World) : Progress Outcome (Memory tree) :=
  advance tree stage.run stage.memory world

/-- The tree after an act. -/
def act (stage : Stage tree) : Act tree → Stage tree
  | .turn world => ⟨(stage.turn world).memory, (stage.turn world).result.run?⟩
  | .abort now => { stage with memory := (stage.memory.abort now).1 }
  | .reset now => { stage with memory := (stage.memory.reset now).1 }
  | .notify call => { stage with run := stage.run.map (·.notify call) }
  | .around binding below => { stage with memory := stage.memory.around binding below }

/-- The tree after several acts. -/
def after (stage : Stage tree) (acts : List (Act tree)) : Stage tree := acts.foldl act stage

/-- The number of attempts after an act: of executions of the first child that have begun since
the root last answered success or failure, was aborted or was reset. -/
def tally (stage : Stage tree) (count : Nat) : Act tree → Nat
  | .turn world =>
    let turn := stage.turn world
    if turn.result.isTerminal then 0 else count + starts [0] turn.journal
  | .abort _ | .reset _ => 0
  | .notify _ | .around .. => count

/-- The number of attempts after several acts. -/
def attempts (stage : Stage tree) (count : Nat) : List (Act tree) → Nat
  | [] => count
  | act :: acts => (stage.act act).attempts (stage.tally count act) acts

/-- What the root does itself in an act. What an abort or a reset does is not part of that. -/
def own (stage : Stage tree) : Act tree → Journal
  | .turn world => (stage.turn world).journal
  | .abort _ | .reset _ | .notify _ | .around .. => []

/-- Whether an act ends the execution that is under way. -/
def ends (stage : Stage tree) : Act tree → Bool
  | .turn world => (stage.turn world).result.run?.isNone
  | .abort _ | .reset _ | .notify _ | .around .. => false

/-- What the root does in the course of one execution, from its beginning to its end. -/
def execution (stage : Stage tree) : List (Act tree) → Journal
  | [] => []
  | act :: acts =>
    stage.own act ++ if stage.ends act then [] else (stage.act act).execution acts

end Stage

end BehaviorTree
