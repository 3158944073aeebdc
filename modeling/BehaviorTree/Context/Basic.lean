import BehaviorTree.Blackboard.Value
import BehaviorTree.Dict
import BehaviorTree.Journal.Notice
import BehaviorTree.Text.Quoted

/-!
# The shared context of a tree

A context is a blackboard together with the identity of the agent that the tree drives.
Typed reads come in three strengths: of exactly the type, by reading the string form, and
by conversion with a default for what is missing or does not convert.
-/

namespace BehaviorTree

/-- What nodes share: a value for each key that has been written. -/
abbrev Blackboard := Dict Value

/-- A blackboard and an agent's identity. -/
structure Context where
  /-- The agent's identifier. -/
  agentId : String := "UnknownAgent"
  /-- The agent's role. -/
  agentRole : String := "UnknownRole"
  /-- The values that nodes read and write, by key. -/
  blackboard : Blackboard := .empty

namespace Context

/-- By default nothing is stored and no agent is named. -/
instance : Inhabited Context := ⟨{}⟩

/-- The value under a key, whatever its type. -/
def get? (context : Context) (key : String) : Option Value := context.blackboard.get? key

/-- Stores a value under a key, in place of what was there. -/
def set (context : Context) (key : String) (value : Value) : Context :=
  { context with blackboard := context.blackboard.insert key value }

/-- Storing a value changes what is under its key and nothing else. -/
theorem get?_set (context : Context) (key other : String) (value : Value) :
    (context.set key value).get? other = if other = key then some value else context.get? other :=
  Dict.get?_insert context.blackboard key other value

/-- Puts several values, one after the other. -/
def setAll (context : Context) (writes : List (String × Value)) : Context :=
  writes.foldl (fun context write => context.set write.1 write.2) context

/-- Takes away what is stored under a key. -/
def remove (context : Context) (key : String) : Context :=
  { context with blackboard := context.blackboard.erase key }

/-- Takes away everything that is stored, but keeps the agent. -/
def clear (context : Context) : Context := { context with blackboard := .empty }

/-- Whether something is stored under a key. -/
def has (context : Context) (key : String) : Bool := context.blackboard.contains key

/-- The keys under which something is stored, in order. -/
def keys (context : Context) : List String := context.blackboard.keys

/-- The context of an agent with this identifier and role. -/
def withAgent (context : Context) (id role : String) : Context :=
  { context with agentId := id, agentRole := role }

/-- The value under a key if it has exactly this type. -/
def getExact? (context : Context) (type : ValueType) (key : String) : Option Value :=
  (context.get? key).filter fun value => value.type = type

/-- The value under a key in its string form. -/
def getString? (context : Context) (key : String) : Option String :=
  (context.get? key).bind Value.stringForm?

/-- The value under a key, read from its string form if it has another type. -/
def getParsed? (context : Context) (type : ValueType) (key : String) : Option Value :=
  match context.get? key with
  | none => none
  | some value =>
    if value.type = type then some value
    else value.stringForm?.bind fun form => type.read? (Text.trim form)

/-- The value under a key, converted if it has another type. A missing key gives the default
of the type; a value that does not convert does so too, and is reported. -/
def getAs (context : Context) (type : ValueType) (key : String) : Value × List Notice :=
  match context.get? key with
  | none => (type.default, [])
  | some value =>
    if value.type = type then (value, [])
    else
      match type.convert? value with
      | some converted => (converted, [])
      | none => (type.default, [.valueNotConverted key])

/-- The truth value under a key, false if there is none. -/
def getTruth (context : Context) (key : String) : Bool × List Notice :=
  match context.getAs .bool key with
  | (.bool value, notices) => (value, notices)
  | (_, notices) => (false, notices)

/-- A one-line description: the agent and the keys. -/
def description (context : Context) : String :=
  "Context \x7b agent_id: " ++ Text.quoted context.agentId ++
    ", agent_role: " ++ Text.quoted context.agentRole ++
    ", keys: [" ++ ", ".intercalate (context.keys.map Text.quoted) ++ "] \x7d"

end Context

end BehaviorTree
