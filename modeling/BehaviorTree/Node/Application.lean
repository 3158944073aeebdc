import BehaviorTree.Node.Move
import BehaviorTree.Property.Basic

/-!
# Node types of an application

Besides the built-in node types a tree may hold nodes that an application defines. Such a
node type is a machine like the built-in ones, with properties of its own. Aborting,
resetting and binding a context stop at it and do not reach its children.
-/

namespace BehaviorTree

/-- How many children a node type takes from a document. -/
inductive Arity where
  | exactly (count : Nat)
  | any
  deriving DecidableEq

/-- The node types of an application, one for each value of `κ`. -/
class Application (κ : Type) where
  /-- What a node keeps between moves. -/
  State : κ → Type
  /-- What a node keeps before its first move. -/
  initial : (node : κ) → State node
  /-- The name of a node that has not been given one. -/
  title : κ → String
  /-- The properties that a node type declares. -/
  properties : κ → List Property
  /-- The node type with a property set. A key or type that is not declared changes nothing. -/
  configure : κ → String → PropertyValue → κ
  /-- The present settings by name, for display. -/
  settings : κ → List (String × String)
  /-- How many children a node type takes. -/
  arity : κ → Arity
  /-- Whether a node with so many children takes one more. -/
  admits : κ → Nat → Bool
  /-- The move of a node that is told a signal. -/
  respond : (node : κ) → Moment → State node → Signal → Move (State node)
  /-- The state after an abort. -/
  aborted : (node : κ) → State node → State node
  /-- The state after a reset. -/
  restored : (node : κ) → State node → State node

/-- An application without node types of its own. -/
instance : Application Empty where
  State := nofun
  initial := nofun
  title := nofun
  properties := nofun
  configure := nofun
  settings := nofun
  arity := nofun
  admits := nofun
  respond := nofun
  aborted := nofun
  restored := nofun

end BehaviorTree
