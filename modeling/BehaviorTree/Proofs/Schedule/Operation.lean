import BehaviorTree.Schedule.Session

/-!
# Histories of a tree

What is done with a tree from outside is a list of operations. Each is answered by what can be seen
of it: the result of an execution, the journal, and the context of the root afterwards.
-/

namespace BehaviorTree

variable {κ : Type} [Application κ] {tree : Tree κ}

/-- A way to come by a tree that has never run. -/
inductive Start where
  /-- Its nodes share a context from the beginning. -/
  | bound (context : Context)
  /-- Its nodes have contexts of their own. -/
  | unbound (context : Context)
  /-- A session has just begun with it. -/
  | begun (context : Context)

/-- A tree that has never run. -/
def Start.system (tree : Tree κ) : Start → System tree
  | bound context => .bound tree context
  | unbound context => .unbound tree context
  | begun context => (Session.begin tree context).1.system

/-- What is done with a tree. -/
inductive Operation where
  /-- The root is executed once, in a tick or without one. -/
  | execute
  | abort
  | reset
  /-- A duration passes. -/
  | pass (duration : Nat)
  deriving DecidableEq

/-- What can be seen of an operation. -/
structure Response where
  /-- The result of an execution. -/
  result : Option (Except Fault Status)
  /-- What happened. -/
  journal : Journal
  /-- The context of the root afterwards. -/
  context : Context

namespace System

/-- The system after an operation. -/
def next (system : System tree) : Operation → System tree
  | .execute => system.execute.2.1
  | .abort => system.abort.1
  | .reset => system.reset.1
  | .pass duration => (system.pass duration).1

/-- The response to an operation. -/
def response (system : System tree) (operation : Operation) : Response :=
  let context := (system.next operation).rootContext
  match operation with
  | .execute => ⟨some system.execute.1, system.execute.2.2, context⟩
  | .abort => ⟨none, system.abort.2, context⟩
  | .reset => ⟨none, system.reset.2, context⟩
  | .pass duration => ⟨none, (system.pass duration).2, context⟩

/-- The system after several operations. -/
def nextAll (system : System tree) (operations : List Operation) : System tree :=
  operations.foldl next system

end System

namespace Session

/-- The session after an operation. An execution is a tick. -/
def next (session : Session tree) : Operation → Session tree
  | .execute => session.tick.2.1
  | .abort => session.abort.1
  | .reset => session.reset.1
  | .pass duration => { session with system := (session.system.pass duration).1 }

/-- The response to an operation. -/
def response (session : Session tree) (operation : Operation) : Response :=
  let context := (session.next operation).system.rootContext
  match operation with
  | .execute => ⟨some session.tick.1, session.tick.2.2, context⟩
  | .abort => ⟨none, session.abort.2, context⟩
  | .reset => ⟨none, session.reset.2, context⟩
  | .pass duration => ⟨none, (session.system.pass duration).2, context⟩

/-- The session after several operations. -/
def nextAll (session : Session tree) (operations : List Operation) : Session tree :=
  operations.foldl next session

end Session

end BehaviorTree
