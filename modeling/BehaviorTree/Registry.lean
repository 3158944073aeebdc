import BehaviorTree.Node.Kind
import BehaviorTree.Document.Error

/-!
# The registry of node types

A registry says which kind of node an element name stands for. Names are matched exactly,
and a later registration under the same name replaces an earlier one.
-/

namespace BehaviorTree

/-- Kinds in their unconfigured form, by element name. -/
structure Registry (κ : Type) where
  /-- A kind for each element name that is registered. -/
  kinds : Dict (Kind κ) := .empty

namespace Registry

variable {κ : Type}

/-- The registry that knows no name. -/
def empty : Registry κ := {}

/-- A registry knows no name by default. -/
instance : Inhabited (Registry κ) := ⟨empty⟩

/-- Lets a name stand for a kind, in place of what it stood for. -/
def register (registry : Registry κ) (name : String) (kind : Kind κ) : Registry κ :=
  ⟨registry.kinds.insert name kind⟩

/-- The kind that a name stands for. -/
def kind? (registry : Registry κ) (name : String) : Option (Kind κ) := registry.kinds.get? name

/-- Whether a name stands for some kind. -/
def isRegistered (registry : Registry κ) (name : String) : Bool := registry.kinds.contains name

/-- The registered names in order. -/
def names (registry : Registry κ) : List String := registry.kinds.keys

/-- Registers a kind under a further name, if the existing name is registered. -/
def addAlias? (registry : Registry κ) (name existing : String) : Option (Registry κ) :=
  (registry.kind? existing).map (registry.register name)

/-- The kind that a name stands for, or an error that lists the known names. -/
def create (registry : Registry κ) (name : String) : Except LoadError (Kind κ) :=
  match registry.kind? name with
  | some kind => .ok kind
  | none => .error (.unknownNode name registry.names)

/-- The built-in node types under their usual names. -/
def builtIn : List (String × Kind κ) :=
  [("Sequence", .sequence), ("Selector", .selector), ("Fallback", .selector),
   ("Parallel", .parallel {}), ("Retry", .retry {}),
   ("RetryUntilSuccess", .retryUntilSuccess {}), ("Timeout", .timeout 5000),
   ("Repeat", .repeating {}), ("Inverter", .inverter), ("Succeeder", .succeeder),
   ("Wait", .wait 1000), ("SetBlackboardValue", .setValue {}),
   ("AlwaysSuccess", .alwaysSuccess), ("ForceFailure", .forceFailure)]

/-- The registry that knows the built-in node types. -/
def standard : Registry κ := ⟨.ofList builtIn⟩

end Registry

end BehaviorTree
