import BehaviorTree.Context.Basic
import BehaviorTree.Text.Ascii
import BehaviorTree.Text.Split

/-!
# Configuration

A configuration is a JSON value kept on the blackboard under a fixed key. Its `Agent`
section names the agent, and a dotted path leads to any of its leaves: a member is found by
its exact key, else by the first key that matches without regard to ASCII case, and an item
of an array by its index.
-/

namespace BehaviorTree

/-- The agent's identity as far as a configuration gives it. -/
structure AgentSection where
  /-- The identifier, if the configuration has one. -/
  id : Option String
  /-- The role, if the configuration has one. -/
  role : Option String
  deriving DecidableEq

namespace AgentSection

/-- A field holds a text, or null for an absent one. -/
def field? : Json → Option (Option String)
  | .null => some none
  | .string value => some (some value)
  | _ => none

/-- The keys of which one may give the identifier of an agent. -/
def idNames : List String := ["AgentId", "agentId", "agent_id"]

/-- The keys of which one may give the role of an agent. -/
def roleNames : List String := ["Role", "role", "AgentRole"]

/-- The field that stands under one of the given names. Two of them are one too many. -/
def named? (names : List String) (members : List (String × Json)) : Option (Option String) :=
  match members.filter fun member => names.contains member.1 with
  | [] => some none
  | [(_, value)] => field? value
  | _ => none

/-- Reads a section: an object with named fields, or an array of the identifier and the
role. -/
def ofJson? : Json → Option AgentSection
  | .object members =>
    match named? idNames members, named? roleNames members with
    | some id, some role => some ⟨id, role⟩
    | _, _ => none
  | .array [id, role] =>
    match field? id, field? role with
    | some id, some role => some ⟨id, role⟩
    | _, _ => none
  | _ => none

end AgentSection

namespace Context

/-- The key under which the whole configuration is stored. -/
def configKey : String := "config"

/-- Takes over the identity that a section gives. -/
def withAgentSection (context : Context) (agent : AgentSection) : Context :=
  { context with
    agentId := agent.id.getD context.agentId
    agentRole := agent.role.getD context.agentRole }

/-- Stores a configuration and takes the agent's identity from it. A malformed section is
reported and otherwise ignored. -/
def withConfig (context : Context) (config : Json) : Context × List Notice :=
  let stored := context.set configKey (.json config)
  match config.member? "Agent" with
  | none => (stored, [])
  | some found =>
    match AgentSection.ofJson? found with
    | some agent => (stored.withAgentSection agent, [])
    | none => (stored, [.agentSectionIgnored])

/-- The stored configuration. -/
def config? (context : Context) : Option Json :=
  match context.get? configKey with
  | some (.json config) => some config
  | _ => none

/-- The segments of a dotted path. Empty ones do not count. -/
def pathSegments (path : String) : List String :=
  ((Text.splitAt '.' path.toList).filter (· ≠ [])).map String.ofList

/-- One step of a path into a JSON value. -/
def configStep? (json : Json) (segment : String) : Option Json :=
  match json with
  | .object members =>
    (members.lookup segment).or
      ((members.find? fun member => Text.sameName member.1 segment).map (·.2))
  | .array items => (IntegerType.usize.read? segment).bind fun index => items[index.toNat]?
  | _ => none

/-- Follows a path into a JSON value. -/
def configWalk? (json : Json) : List String → Option Json
  | [] => some json
  | segment :: rest => (configStep? json segment).bind fun inner => configWalk? inner rest

/-- The string form of what the path leads to in the stored configuration. -/
def configValue? (context : Context) (path : String) : Option String :=
  context.config?.bind fun config =>
    (configWalk? config (pathSegments path)).bind Value.jsonForm?

end Context

end BehaviorTree
