import BehaviorTree.Context.Basic
import BehaviorTree.Journal.Entry

/-!
# Trees and their memory

A tree fixes names, kinds and children. What changes while it runs is kept apart, in a
memory of the same shape: for every node the state of its kind, and the context that the
node is bound to.
-/

namespace BehaviorTree

/-- A tree of nodes. -/
structure Tree (κ : Type) where
  /-- The name of the root. -/
  name : String
  /-- The type of the root with its settings. -/
  kind : Kind κ
  /-- The trees below the root, in order. -/
  children : List (Tree κ)

mutual

/-- A bound on the number of requests in one execution, if every node keeps within its
allowance: each of its moves makes one request or runs its children. -/
def Tree.span {κ : Type} : Tree κ → Nat
  | ⟨_, kind, children⟩ => kind.allowance children.length * (Tree.spans children + 1)

/-- The spans of several trees together. -/
def Tree.spans {κ : Type} : List (Tree κ) → Nat
  | [] => 0
  | tree :: trees => tree.span + Tree.spans trees

end

/-- The context that a node uses: one of its own, or one that it shares with other nodes. -/
inductive Binding where
  | own (context : Context)
  | shared (id : Nat)

/-- What a node keeps: the state of its kind, and its context. -/
structure Cell (σ : Type) where
  /-- The state of the kind. -/
  state : σ
  /-- The context that the node uses. -/
  binding : Binding

variable {κ : Type} [Application κ]

mutual

/-- The memory of a tree. -/
inductive Memory : Tree κ → Type where
  | node {name : String} {kind : Kind κ} {children : List (Tree κ)}
      (cell : Cell kind.State) (below : Memories children) : Memory ⟨name, kind, children⟩

/-- The memories of several trees. -/
inductive Memories : List (Tree κ) → Type where
  | nil : Memories []
  | cons {tree : Tree κ} {trees : List (Tree κ)} (first : Memory tree)
      (rest : Memories trees) : Memories (tree :: trees)

end

mutual

/-- The memory of a tree that has never run, every node with the same binding. -/
def Memory.fresh (binding : Binding) : (tree : Tree κ) → Memory tree
  | ⟨_, kind, children⟩ => .node ⟨kind.initial, binding⟩ (Memories.fresh binding children)

/-- Memories of trees that have never been executed, all with the same binding. -/
def Memories.fresh (binding : Binding) : (trees : List (Tree κ)) → Memories trees
  | [] => .nil
  | tree :: trees => .cons (Memory.fresh binding tree) (Memories.fresh binding trees)

end

/-- The context binding of the root. -/
def Memory.binding : {tree : Tree κ} → Memory tree → Binding
  | _, .node cell _ => cell.binding

end BehaviorTree
