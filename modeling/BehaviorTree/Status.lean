import BehaviorTree.Json.Basic

/-!
# Status of an execution

Executing a node answers success, failure, or that the node is still running and wants to
be executed again on the next tick.
-/

namespace BehaviorTree

/-- What an execution of a node answers. -/
inductive Status where
  | success
  | failure
  | running
  deriving DecidableEq, Inhabited

namespace Status

/-- The name of a status. -/
def text : Status → String
  | success => "Success"
  | failure => "Failure"
  | running => "Running"

/-- Success and failure end an activity; running does not. -/
def isTerminal : Status → Bool
  | running => false
  | success | failure => true

/-- The status with this name. -/
def ofText? (name : String) : Option Status :=
  [success, failure, running].find? fun status => status.text = name

/-- A status is stored as its name. -/
def toJson (status : Status) : Json := .string status.text

/-- Reads a stored status: its name, or an object whose only member has that name and
holds null. -/
def ofJson? : Json → Option Status
  | .string name => ofText? name
  | .object [(name, .null)] => ofText? name
  | _ => none

/-- The status with success and failure exchanged. -/
def inverted : Status → Status
  | success => failure
  | failure => success
  | running => running

end Status

end BehaviorTree
