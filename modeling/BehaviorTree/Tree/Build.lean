import BehaviorTree.Tree.Control

/-!
# Building trees by hand

A plan says which kind a node has, what it is called, which properties are set, and which
children it is offered. Building sets the properties in order and offers the children one
after the other; those that the node refuses are dropped.
-/

namespace BehaviorTree

/-- A description of a tree to be built. -/
structure Plan (κ : Type) where
  /-- The type of the root in its unconfigured form. -/
  kind : Kind κ
  /-- The name of the root, if it is to have one of its own. -/
  name : Option String := none
  /-- The properties to be set, in order. -/
  properties : List (String × PropertyValue) := []
  /-- The plans of the children, in order. -/
  children : List (Plan κ) := []

namespace Plan

variable {κ : Type} [Application κ]

/-- Sets properties one after the other. -/
def configureAll (name : String) : Kind κ → List (String × PropertyValue) → Kind κ × Journal
  | kind, [] => (kind, [])
  | kind, (key, value) :: rest =>
    let kind := kind.configure key value
    let (final, journal) := configureAll name kind rest
    (final, eventAt 0 (.configured name key value kind.settings) :: journal)

/-- The name a node gets, and the journal of giving it. -/
def naming (kind : Kind κ) : Option String → String × Journal
  | some name => (name, [eventAt 0 (.renamed kind.title name)])
  | none => (kind.title, [])

mutual

/-- Builds the tree that a plan describes. -/
def build : Plan κ → Tree κ × Journal
  | ⟨kind, name, properties, children⟩ =>
    let (name, named) := naming kind name
    let (kind, configured) := configureAll name kind properties
    let (trees, offered) := offer kind name 0 children
    (⟨name, kind, trees⟩, named ++ configured ++ offered)

/-- Builds children and offers them to a node that has `count` children already. -/
def offer (kind : Kind κ) (name : String) (count : Nat) : List (Plan κ) → List (Tree κ) × Journal
  | [] => ([], [])
  | plan :: rest =>
    let (child, built) := build plan
    let built := built.map (·.under count)
    if kind.admits count then
      let (trees, journal) := offer kind name (count + 1) rest
      (child :: trees, built ++ eventAt 0 (.adopted name child.name) :: journal)
    else
      let (trees, journal) := offer kind name count rest
      (trees, built ++ eventAt 0 (.refused name child.name) ::
        eventAt 0 (.dropped name) :: journal)

end

end Plan

end BehaviorTree
