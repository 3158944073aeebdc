import BehaviorTree.Proofs.Node.Discipline
import BehaviorTree.Proofs.Tree.Control

/-!
# What a tree keeps between executions

A tree is at rest if it keeps nothing: no cursor, no count, no wait under way. It is ready if
each of its nodes has all children at rest except the one that it resumes, which is ready itself.
The nodes that are resumed form a path, and a tree points along a path if its nodes resume the
children on it. While an execution is suspended, all nodes off the way of the run are at rest.
-/

namespace BehaviorTree

variable {κ : Type} [Application κ]

mutual

/-- Every node of the tree runs at most one child at a time. -/
def Tree.IsSequential : Tree κ → Prop
  | ⟨_, kind, children⟩ => kind.IsSequential children.length ∧ Tree.AreSequential children

/-- Every node of the trees runs at most one child at a time. -/
def Tree.AreSequential : List (Tree κ) → Prop
  | [] => True
  | tree :: trees => tree.IsSequential ∧ Tree.AreSequential trees

end

mutual

/-- No node in the tree keeps anything. -/
def Memory.AtRest : {tree : Tree κ} → Memory tree → Prop
  | ⟨_, kind, _⟩, .node cell below => kind.AtRest cell.state ∧ Memories.AtRest below

/-- No node in the trees keeps anything. -/
def Memories.AtRest : {trees : List (Tree κ)} → Memories trees → Prop
  | [], .nil => True
  | _ :: _, .cons first rest => Memory.AtRest first ∧ Memories.AtRest rest

end

mutual

/-- The tree can begin an execution: nothing is kept except by the nodes that are to be resumed. -/
def Memory.IsReady : {tree : Tree κ} → Memory tree → Prop
  | ⟨_, kind, children⟩, .node cell below =>
    (kind.discipline children.length).sane cell.state ∧
      match (kind.discipline children.length).focus? cell.state with
      | some index => Memories.IsReadyAt index below
      | none => below.AtRest

/-- The child with an index is ready, and the others are at rest. -/
def Memories.IsReadyAt : {trees : List (Tree κ)} → Nat → Memories trees → Prop
  | [], _, .nil => False
  | _ :: _, 0, .cons first rest => Memory.IsReady first ∧ rest.AtRest
  | _ :: _, index + 1, .cons first rest => first.AtRest ∧ Memories.IsReadyAt index rest

end

mutual

/-- The tree can take up a suspended execution. -/
def Memory.IsSuspended : {tree : Tree κ} → Run → Memory tree → Prop
  | ⟨_, kind, children⟩, .child mark index run, .node _ below =>
    index = (kind.discipline children.length).childOf mark ∧
      (∀ status, (kind.discipline children.length).Hears (.answered mark status)) ∧
      Memories.IsSuspendedAt index run below
  | ⟨_, kind, children⟩, .paused (.sleep mark _), .node _ below =>
    (kind.discipline children.length).Hears (.woken mark) ∧ below.AtRest
  | _, _, _ => False

/-- The child with an index is suspended, and the others are at rest. -/
def Memories.IsSuspendedAt : {trees : List (Tree κ)} → Nat → Run → Memories trees → Prop
  | [], _, _, .nil => False
  | _ :: _, 0, run, .cons first rest => Memory.IsSuspended run first ∧ rest.AtRest
  | _ :: _, index + 1, run, .cons first rest => first.AtRest ∧ Memories.IsSuspendedAt index run rest

end

mutual

/-- The nodes on the path are to be resumed, down to a leaf. -/
def Memory.PointsAlong : {tree : Tree κ} → Path → Memory tree → Prop
  | ⟨_, kind, _⟩, [], .node _ _ => kind.isLeaf
  | ⟨_, kind, children⟩, index :: path, .node cell below =>
    (kind.discipline children.length).focus? cell.state = some index ∧
      Memories.PointAlong index path below

/-- The child with an index points along the path. -/
def Memories.PointAlong : {trees : List (Tree κ)} → Nat → Path → Memories trees → Prop
  | [], _, _, .nil => False
  | _ :: _, 0, path, .cons first _ => Memory.PointsAlong path first
  | _ :: _, index + 1, path, .cons _ rest => Memories.PointAlong index path rest

end

/-! ## States -/

namespace Kind

/-- A node that has never moved keeps nothing. -/
theorem atRest_initial (kind : Kind κ) : kind.AtRest kind.initial := by
  cases kind <;> first | rfl | trivial

/-- An abort leaves a node at rest that was at rest. -/
theorem atRest_aborted {kind : Kind κ} {state : kind.State} (hrest : kind.AtRest state) :
    kind.AtRest (kind.aborted state) := by
  cases kind <;> first | exact hrest | rfl

/-- A reset leaves a node at rest. -/
theorem atRest_restored (kind : Kind κ) (state : kind.State) :
    kind.AtRest (kind.restored state) := by
  cases kind <;> first | rfl | trivial

/-- A state at rest is sane. -/
theorem sane_of_atRest {kind : Kind κ} {size : Nat} {state : kind.State}
    (hrest : kind.AtRest state) : (kind.discipline size).sane state := by
  cases kind <;> first | trivial | exact fun _ => hrest

/-- An abort leaves a sane state. -/
theorem sane_aborted {kind : Kind κ} {size : Nat} {state : kind.State} :
    (kind.discipline size).sane (kind.aborted state) := by
  cases kind <;> first | trivial | exact fun _ => rfl

/-- An abort leaves the focus where it is. -/
theorem focus?_aborted (kind : Kind κ) (size : Nat) (state : kind.State) :
    (kind.discipline size).focus? (kind.aborted state) =
      (kind.discipline size).focus? state := by
  cases kind <;> rfl

end Kind

/-- A node that does not relay has no children that could keep anything. -/
theorem Memories.atRest_of_not_relays {kind : Kind κ} {trees : List (Tree κ)}
    (hsequential : kind.IsSequential trees.length) (hrelays : ¬ kind.relays)
    (memories : Memories trees) : memories.AtRest := by
  cases kind <;> try exact absurd rfl hrelays
  cases memories with
  | nil => trivial
  | cons first rest => exact absurd hsequential.2 (Nat.succ_ne_zero _)

/-! ## Trees at rest -/

mutual

/-- A tree that has never run keeps nothing. -/
theorem atRest_fresh (binding : Binding) : (tree : Tree κ) → (Memory.fresh binding tree).AtRest
  | ⟨_, kind, children⟩ => ⟨kind.atRest_initial, atRest_freshAll binding children⟩

/-- Trees that have never run keep nothing. -/
theorem atRest_freshAll (binding : Binding) :
    (trees : List (Tree κ)) → (Memories.fresh binding trees).AtRest
  | [] => trivial
  | tree :: trees => ⟨atRest_fresh binding tree, atRest_freshAll binding trees⟩

end

mutual

/-- A tree at rest can begin an execution. -/
theorem Memory.AtRest.isReady : {tree : Tree κ} → {memory : Memory tree} → tree.IsSequential →
    memory.AtRest → memory.IsReady
  | ⟨_, _, _⟩, .node _ _, hsequential, hrest => by
    refine ⟨Kind.sane_of_atRest hrest.1, ?_⟩
    split
    · next hfocus =>
      exact Memories.AtRest.isReadyAt hsequential.2 hrest.2 (Kind.focus?_lt hsequential.1 hfocus)
    · exact hrest.2

/-- Among trees at rest, any one can begin an execution. -/
theorem Memories.AtRest.isReadyAt : {trees : List (Tree κ)} → {memories : Memories trees} →
    {index : Nat} → Tree.AreSequential trees → memories.AtRest → index < trees.length →
      memories.IsReadyAt index
  | [], .nil, _, _, _, hlt => absurd hlt (Nat.not_lt_zero _)
  | _ :: _, .cons _ _, 0, hsequential, hrest, _ => ⟨hrest.1.isReady hsequential.1, hrest.2⟩
  | _ :: _, .cons _ _, _ + 1, hsequential, hrest, hlt =>
    ⟨hrest.1, Memories.AtRest.isReadyAt hsequential.2 hrest.2 (Nat.lt_of_succ_lt_succ hlt)⟩

end

/-- A node whose children are at rest has nothing to resume, whatever its focus. -/
theorem Memories.AtRest.isReady_node {name : String} {kind : Kind κ} {children : List (Tree κ)}
    (hkind : kind.IsSequential children.length) (hchildren : Tree.AreSequential children)
    {cell : Cell kind.State} (hsane : (kind.discipline children.length).sane cell.state)
    {below : Memories children} (hrest : below.AtRest) :
    (Memory.node cell below : Memory ⟨name, kind, children⟩).IsReady := by
  refine ⟨hsane, ?_⟩
  split
  · next hfocus => exact hrest.isReadyAt hchildren (Kind.focus?_lt hkind hfocus)
  · exact hrest

/-! ## Abort, reset and binding -/

mutual

/-- An abort leaves a tree at rest that was at rest. -/
theorem Memory.AtRest.abort (now : Nat) : {tree : Tree κ} → {memory : Memory tree} →
    memory.AtRest → (memory.abort now).1.AtRest
  | ⟨_, kind, _⟩, .node _ _, hrest => by
    rw [Memory.abort_node]
    refine ⟨Kind.atRest_aborted hrest.1, ?_⟩
    split
    · exact Memories.AtRest.abort now 0 hrest.2
    · exact hrest.2

/-- An abort leaves trees at rest that were at rest. -/
theorem Memories.AtRest.abort (now index : Nat) : {trees : List (Tree κ)} →
    {memories : Memories trees} → memories.AtRest → (memories.abort now index).1.AtRest
  | [], .nil, _ => trivial
  | _ :: _, .cons _ _, hrest =>
    ⟨hrest.1.abort now, Memories.AtRest.abort now (index + 1) hrest.2⟩

end

mutual

/-- An aborted tree can begin an execution, if it could before. -/
theorem Memory.IsReady.abort (now : Nat) : {tree : Tree κ} → {memory : Memory tree} →
    memory.IsReady → (memory.abort now).1.IsReady
  | ⟨_, kind, children⟩, .node cell below, hready => by
    rw [Memory.abort_node]
    refine ⟨Kind.sane_aborted, ?_⟩
    dsimp only
    rw [Kind.focus?_aborted]
    have hbelow := hready.2
    split at hbelow
    · split
      · exact Memories.IsReadyAt.abort now 0 hbelow
      · exact hbelow
    · split
      · exact Memories.AtRest.abort now 0 hbelow
      · exact hbelow

/-- An abort of all children leaves the one ready that was ready, and the others at rest. -/
theorem Memories.IsReadyAt.abort (now start : Nat) : {trees : List (Tree κ)} →
    {memories : Memories trees} → {index : Nat} → memories.IsReadyAt index →
      (memories.abort now start).1.IsReadyAt index
  | [], .nil, _, hready => hready.elim
  | _ :: _, .cons _ _, 0, hready =>
    ⟨hready.1.abort now, Memories.AtRest.abort now (start + 1) hready.2⟩
  | _ :: _, .cons _ _, _ + 1, hready =>
    ⟨hready.1.abort now, Memories.IsReadyAt.abort now (start + 1) hready.2⟩

end

mutual

/-- A reset brings a sequential tree to rest. -/
theorem Memory.atRest_reset (now : Nat) : {tree : Tree κ} → tree.IsSequential →
    (memory : Memory tree) → (memory.reset now).1.AtRest
  | ⟨_, kind, children⟩, hsequential, .node cell below => by
    rw [Memory.reset_node]
    refine ⟨kind.atRest_restored cell.state, ?_⟩
    split
    · exact Memories.atRest_reset now 0 hsequential.2 below
    · next hrelays => exact Memories.atRest_of_not_relays hsequential.1 hrelays below

/-- A reset of all children leaves them at rest. -/
theorem Memories.atRest_reset (now index : Nat) : {trees : List (Tree κ)} →
    Tree.AreSequential trees → (memories : Memories trees) → (memories.reset now index).1.AtRest
  | [], _, .nil => trivial
  | _ :: _, hsequential, .cons first rest =>
    ⟨Memory.atRest_reset now hsequential.1 first,
      Memories.atRest_reset now (index + 1) hsequential.2 rest⟩

end

/-- A reset of one child leaves the children at rest that were at rest. -/
theorem Memories.AtRest.resetChild (now : Nat) {trees : List (Tree κ)} {memories : Memories trees}
    (hsequential : Tree.AreSequential trees) (hrest : memories.AtRest) (index : Nat) :
    (memories.resetChild now index).1.AtRest := by
  induction trees generalizing index with
  | nil =>
    cases memories
    cases index <;> trivial
  | cons tree trees ih =>
    cases memories with
    | cons first rest =>
      cases index with
      | zero => exact ⟨first.atRest_reset now hsequential.1, hrest.2⟩
      | succ index => exact ⟨hrest.1, ih hsequential.2 hrest.2 index⟩

mutual

/-- Binding leaves a tree at rest that was at rest. -/
theorem Memory.AtRest.bind (now id : Nat) (held : Path → Bool) : {tree : Tree κ} →
    {memory : Memory tree} → memory.AtRest → (memory.bind now id held).1.AtRest
  | ⟨_, kind, _⟩, .node _ _, hrest => by
    rw [Memory.bind_node]
    refine ⟨hrest.1, ?_⟩
    split
    · exact hrest.2
    · split
      · exact Memories.AtRest.bind now id held 0 hrest.2
      · exact hrest.2

/-- Binding leaves trees at rest that were at rest. -/
theorem Memories.AtRest.bind (now id : Nat) (held : Path → Bool) (index : Nat) :
    {trees : List (Tree κ)} → {memories : Memories trees} → memories.AtRest →
      (memories.bind now id held index).1.AtRest
  | [], .nil, _ => trivial
  | _ :: _, .cons _ _, hrest =>
    ⟨hrest.1.bind now id _, Memories.AtRest.bind now id held (index + 1) hrest.2⟩

end

/-! ## Calls -/

mutual

/-- A call changes nothing in the run of a suspended execution that the tree can take up. -/
theorem Memory.IsSuspended.notify_eq (call : Call) : {tree : Tree κ} → {memory : Memory tree} →
    {run : Run} → memory.IsSuspended run → run.notify call = run
  | ⟨_, _, _⟩, .node _ _, .child mark index _, hsuspended =>
    congrArg (Run.child mark index) (Memories.IsSuspendedAt.notify_eq call hsuspended.2.2)
  | ⟨_, _, _⟩, .node _ _, .paused _, _ => rfl
  | ⟨_, _, _⟩, .node _ _, .together _, hsuspended => hsuspended.elim
  | ⟨_, _, _⟩, .node _ _, .crowd .., hsuspended => hsuspended.elim

/-- A suspended child awaits no call, so it stays as it is when notified of one. -/
theorem Memories.IsSuspendedAt.notify_eq (call : Call) : {trees : List (Tree κ)} →
    {memories : Memories trees} → {index : Nat} → {run : Run} →
      memories.IsSuspendedAt index run → run.notify call = run
  | [], .nil, _, _, hsuspended => hsuspended.elim
  | _ :: _, .cons _ _, 0, _, hsuspended => Memory.IsSuspended.notify_eq call hsuspended.1
  | _ :: _, .cons _ _, _ + 1, _, hsuspended => Memories.IsSuspendedAt.notify_eq call hsuspended.2

end

end BehaviorTree
