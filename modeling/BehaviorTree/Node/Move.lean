import BehaviorTree.Context.Basic

/-!
# What nodes ask and are told

A node does not run its children or wait by itself. It is a machine that receives signals
and answers each with a move: its next state, what it writes and reports, and one request.
The engine serves the request and sends the outcome as the next signal, until the node asks
to finish.
-/

namespace BehaviorTree

/-- What a node is told. A mark is a number that the node chose when it made the request. -/
inductive Signal where
  /-- A new execution begins. -/
  | started
  /-- The child that was run has answered. -/
  | answered (mark : Nat) (status : Status)
  /-- All children, run together, have answered. -/
  | gathered (statuses : List Status)
  /-- The time asked for has passed. -/
  | woken (mark : Nat)
  /-- The raced child has ended before the time limit; without status if it crashed. -/
  | joined (status : Option Status)
  /-- The time limit was reached before the raced child ended. -/
  | expired
  | childReset
  | childAborted
  deriving DecidableEq

/-- What a node asks for. Durations are in milliseconds. -/
inductive Request where
  | finish (status : Status)
  /-- The node fails to answer at all. -/
  | crash
  | run (mark child : Nat)
  | runAll
  | sleep (mark duration : Nat)
  /-- Run a child detached, as a task of its own, until it ends or the time is over. -/
  | race (child limit : Nat)
  | resetChild (child : Nat)
  | abortChild (child : Nat)
  deriving DecidableEq

/-- The answer of a node to a signal. -/
structure Move (σ : Type) where
  /-- What the node keeps from then on. -/
  state : σ
  /-- What the node asks of the engine. -/
  request : Request
  /-- What is reported in the journal. -/
  notices : List Notice := []
  /-- The values written to the blackboard, in order. -/
  writes : List (String × Value) := []

/-- What a node sees when it moves: its name, the number of its children, the time in
milliseconds and its context. -/
structure Moment where
  /-- The name of the node. -/
  name : String
  /-- The number of its children. -/
  size : Nat
  /-- The time in milliseconds. -/
  now : Nat
  /-- The context that the node is bound to. -/
  context : Context

namespace Move

variable {σ : Type}

/-- Ends the execution. -/
def finish (state : σ) (status : Status) : Move σ := ⟨state, .finish status, [], []⟩

/-- Makes a request and changes nothing. -/
def ask (state : σ) (request : Request) : Move σ := ⟨state, request, [], []⟩

/-- Ends the execution with a report. -/
def report (state : σ) (notice : Notice) (status : Status) : Move σ :=
  ⟨state, .finish status, [notice], []⟩

end Move

end BehaviorTree
