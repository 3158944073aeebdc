import BehaviorTree.Proofs.Tree.Control
import BehaviorTree.Proofs.Tree.ChildrenInvariant

/-!
# Trees that share one context

A tree that is built or bound at once has all nodes bound to the same context. No execution, abort
or reset changes that (`Memory.IsBoundTo.advance`), and none adds a context or takes one away. So
all that a reset leaves of the past of a tree of built-in nodes is that context
(`Memory.IsBoundTo.reset_eq`).
-/

namespace BehaviorTree

variable {κ : Type} [Application κ]

omit [Application κ] in
/-- What holds of a node if it holds of its children holds of every tree. -/
@[elab_as_elim]
theorem Tree.nodeInduction {motive : Tree κ → Prop}
    (node : ∀ name kind children, (∀ tree ∈ children, motive tree) →
      motive ⟨name, kind, children⟩) (tree : Tree κ) : motive tree := by
  cases tree with
  | mk name kind children => exact node name kind children fun tree _ => nodeInduction node tree

mutual

/-- Every node of the tree is bound to the context with a number. -/
def Memory.IsBoundTo (id : Nat) : {tree : Tree κ} → Memory tree → Prop
  | ⟨_, _, _⟩, .node cell below => cell.binding = .shared id ∧ Memories.AreBoundTo id below

/-- Every node of the trees is bound to the context with a number. -/
def Memories.AreBoundTo (id : Nat) : {trees : List (Tree κ)} → Memories trees → Prop
  | [], .nil => True
  | _ :: _, .cons first rest => Memory.IsBoundTo id first ∧ Memories.AreBoundTo id rest

end

/-- The root of a bound tree is bound. -/
theorem Memory.IsBoundTo.binding_eq {id : Nat} {tree : Tree κ} {memory : Memory tree}
    (hbound : memory.IsBoundTo id) : memory.binding = .shared id := by
  cases memory with
  | node cell below => exact hbound.1

mutual

/-- A tree that is built with a context has all nodes bound to it. -/
theorem isBoundTo_fresh (id : Nat) : (tree : Tree κ) →
    (Memory.fresh (.shared id) tree).IsBoundTo id
  | ⟨_, _, children⟩ => ⟨rfl, areBoundTo_fresh id children⟩

/-- Trees that are built with a context have all nodes bound to it. -/
theorem areBoundTo_fresh (id : Nat) : (trees : List (Tree κ)) →
    (Memories.fresh (.shared id) trees).AreBoundTo id
  | [] => trivial
  | tree :: trees => ⟨isBoundTo_fresh id tree, areBoundTo_fresh id trees⟩

end

/-! ## Abort and reset -/

mutual

/-- An abort leaves a tree bound. -/
theorem Memory.IsBoundTo.abort {id : Nat} (now : Nat) : {tree : Tree κ} → {memory : Memory tree} →
    memory.IsBoundTo id → (memory.abort now).1.IsBoundTo id
  | ⟨_, kind, _⟩, .node _ _, hbound => by
    rw [Memory.abort_node]
    refine ⟨hbound.1, ?_⟩
    split
    · exact Memories.AreBoundTo.abort now 0 hbound.2
    · exact hbound.2

/-- An abort of all children leaves them bound. -/
theorem Memories.AreBoundTo.abort {id : Nat} (now index : Nat) : {trees : List (Tree κ)} →
    {memories : Memories trees} → memories.AreBoundTo id →
      (memories.abort now index).1.AreBoundTo id
  | [], .nil, _ => trivial
  | _ :: _, .cons _ _, hbound =>
    ⟨hbound.1.abort now, Memories.AreBoundTo.abort now (index + 1) hbound.2⟩

end

mutual

/-- A reset leaves a tree bound. -/
theorem Memory.IsBoundTo.reset {id : Nat} (now : Nat) : {tree : Tree κ} → {memory : Memory tree} →
    memory.IsBoundTo id → (memory.reset now).1.IsBoundTo id
  | ⟨_, kind, _⟩, .node _ _, hbound => by
    rw [Memory.reset_node]
    refine ⟨hbound.1, ?_⟩
    split
    · exact Memories.AreBoundTo.reset now 0 hbound.2
    · exact hbound.2

/-- A reset of all children leaves them bound. -/
theorem Memories.AreBoundTo.reset {id : Nat} (now index : Nat) : {trees : List (Tree κ)} →
    {memories : Memories trees} → memories.AreBoundTo id →
      (memories.reset now index).1.AreBoundTo id
  | [], .nil, _ => trivial
  | _ :: _, .cons _ _, hbound =>
    ⟨hbound.1.reset now, Memories.AreBoundTo.reset now (index + 1) hbound.2⟩

end

/-- An abort of one child leaves the children bound. -/
theorem Memories.AreBoundTo.abortChild {id : Nat} (now : Nat) : {trees : List (Tree κ)} →
    {memories : Memories trees} → (index : Nat) → memories.AreBoundTo id →
      (memories.abortChild now index).1.AreBoundTo id
  | [], .nil, index, _ => by cases index <;> trivial
  | _ :: _, .cons _ _, 0, hbound => ⟨hbound.1.abort now, hbound.2⟩
  | _ :: _, .cons _ _, index + 1, hbound => ⟨hbound.1, abortChild now index hbound.2⟩

/-- A reset of one child leaves the children bound. -/
theorem Memories.AreBoundTo.resetChild {id : Nat} (now : Nat) : {trees : List (Tree κ)} →
    {memories : Memories trees} → (index : Nat) → memories.AreBoundTo id →
      (memories.resetChild now index).1.AreBoundTo id
  | [], .nil, index, _ => by cases index <;> trivial
  | _ :: _, .cons _ _, 0, hbound => ⟨hbound.1.reset now, hbound.2⟩
  | _ :: _, .cons _ _, index + 1, hbound => ⟨hbound.1, resetChild now index hbound.2⟩

mutual

/-- Every node of the tree is of a built-in type: abort and reset go on to all children. -/
def Tree.IsBuiltIn : Tree κ → Prop
  | ⟨_, kind, children⟩ => kind.relays ∧ Tree.AreBuiltIn children

/-- Every node of the trees is of a built-in type. -/
def Tree.AreBuiltIn : List (Tree κ) → Prop
  | [] => True
  | tree :: trees => tree.IsBuiltIn ∧ Tree.AreBuiltIn trees

end

/-- A reset puts a node of a built-in type back to how it was made. -/
theorem Kind.restored_eq {kind : Kind κ} (hrelays : kind.relays) (state : kind.State) :
    kind.restored state = kind.initial := by
  cases kind with
  | custom node => cases hrelays
  | _ => rfl

mutual

/-- A reset leaves nothing of the past but the context. -/
theorem Memory.IsBoundTo.reset_eq {id : Nat} (now : Nat) : {tree : Tree κ} →
    {memory : Memory tree} → tree.IsBuiltIn → memory.IsBoundTo id →
      (memory.reset now).1 = .fresh (.shared id) tree
  | ⟨_, _, _⟩, .node _ below, hbuiltIn, hbound => by
    have hbelow := Memories.AreBoundTo.reset_eq now 0 hbuiltIn.2 hbound.2
    rw [Memory.reset_node, Memory.fresh, if_pos hbuiltIn.1, Kind.restored_eq hbuiltIn.1, hbound.1,
      ← hbelow]

/-- A reset of bound children of built-in types leaves them as if they had just been built. -/
theorem Memories.AreBoundTo.reset_eq {id : Nat} (now index : Nat) : {trees : List (Tree κ)} →
    {memories : Memories trees} → Tree.AreBuiltIn trees → memories.AreBoundTo id →
      (memories.reset now index).1 = .fresh (.shared id) trees
  | [], .nil, _, _ => rfl
  | _ :: _, .cons _ _, hbuiltIn, hbound => by
    rw [Memories.reset_cons, Memories.fresh, Memory.IsBoundTo.reset_eq now hbuiltIn.1 hbound.1,
      Memories.AreBoundTo.reset_eq now (index + 1) hbuiltIn.2 hbound.2]

end

omit [Application κ] in
/-- A node holds no child if no position is held. -/
theorem Kind.holdsChild_eq_false {kind : Kind κ} {held : Path → Bool}
    (hfree : ∀ path, held path = false) : kind.holdsChild held = false := by
  cases kind with
  | timeout limit => exact hfree [0]
  | _ => rfl

mutual

/-- Binding reaches every node of a tree of built-in nodes when nothing is held. -/
theorem Memory.isBoundTo_bind (now id : Nat) {held : Path → Bool} : {tree : Tree κ} →
    (memory : Memory tree) → tree.IsBuiltIn → (∀ path, held path = false) →
      (memory.bind now id held).1.IsBoundTo id
  | ⟨_, _, _⟩, .node _ below, hbuiltIn, hfree => by
    have hbelow := Memories.areBoundTo_bind now id 0 below hbuiltIn.2 hfree
    rw [Memory.bind_node, Kind.holdsChild_eq_false hfree, if_neg Bool.false_ne_true,
      if_pos hbuiltIn.1]
    exact ⟨rfl, hbelow⟩

/-- Binding children of built-in types reaches all of them if no position is held. -/
theorem Memories.areBoundTo_bind (now id index : Nat) {held : Path → Bool} :
    {trees : List (Tree κ)} → (memories : Memories trees) → Tree.AreBuiltIn trees →
      (∀ path, held path = false) → (memories.bind now id held index).1.AreBoundTo id
  | [], .nil, _, _ => trivial
  | _ :: _, .cons first rest, hbuiltIn, hfree =>
    ⟨Memory.isBoundTo_bind now id first hbuiltIn.1 fun path => hfree (index :: path),
      Memories.areBoundTo_bind now id (index + 1) rest hbuiltIn.2 hfree⟩

end

/-! ## Execution -/

/-- Every stretch of execution leaves the nodes bound to the context, and so many contexts there
are. -/
def Tree.StaysBound (tree : Tree κ) (id count : Nat) : Prop :=
  ∀ run (memory : Memory tree) (world : World), memory.IsBoundTo id →
    world.contexts.length = count →
      (advance tree run memory world).memory.IsBoundTo id ∧
        (advance tree run memory world).world.contexts.length = count

/-- All children are bound to the context, and so many contexts there are. -/
def boundUpkeep (id count : Nat) (trees : List (Tree κ)) : Upkeep (Memories trees) where
  holds := fun memories contexts => memories.AreBoundTo id ∧ contexts.length = count
  allows := fun _ _ _ => True

section

variable {id count : Nat} {trees : List (Tree κ)}

/-- A stretch of execution of one child leaves all children bound. -/
theorem bound_advanceChild (htrees : ∀ tree ∈ trees, tree.StaysBound id count) (index : Nat)
    (run : Option Run) {below : Memories trees} {world : World} (hbound : below.AreBoundTo id)
    (hcount : world.contexts.length = count) :
    let progress := advanceChild trees index run below world
    progress.memory.AreBoundTo id ∧ progress.world.contexts.length = count := by
  induction trees generalizing index with
  | nil =>
    cases below
    exact ⟨trivial, hcount⟩
  | cons tree trees ih =>
    cases below with
    | cons first rest =>
      cases index with
      | zero =>
        obtain ⟨hfirst, hcount⟩ := htrees tree (by simp) run first world hbound.1 hcount
        exact ⟨⟨hfirst, hbound.2⟩, hcount⟩
      | succ index =>
        have hrest := ih (fun tree hmem => htrees tree (List.mem_cons_of_mem _ hmem)) index hbound.2
        exact ⟨⟨hbound.1, hrest.1⟩, hrest.2⟩

/-- The children of a node stay bound to the context. -/
theorem upholds_boundUpkeep (htrees : ∀ tree ∈ trees, tree.StaysBound id count) :
    (crewOf trees).Upholds (boundUpkeep id count trees) where
  advance := by
    intro index run below world hholds _
    obtain ⟨hbound, hcount⟩ := bound_advanceChild htrees index run hholds.1 hholds.2
    exact ⟨⟨hbound, hcount⟩, fun _ _ _ => trivial,
      Upkeep.childWaits_of_forall (fun _ _ _ => trivial) index _ _⟩
  sideBySide := ⟨trees.length, advanceAll_eq trees⟩
  abort := fun now index _ _ hholds =>
    ⟨⟨hholds.1.abortChild now index, hholds.2⟩, fun _ _ _ => trivial⟩
  reset := fun now index _ _ hholds =>
    ⟨⟨hholds.1.resetChild now index, hholds.2⟩, fun _ _ _ => trivial⟩

/-- Writing leaves the node and its children bound. -/
theorem boundUpkeep_write (binding : Binding) (writes : List (String × Value))
    (below : Memories trees) (world : World) (hbinding : binding = .shared id)
    (hholds : (boundUpkeep id count trees).holds below world.contexts) :
    (world.write binding writes).2 = .shared id ∧
      (boundUpkeep id count trees).holds below (world.write binding writes).1.contexts := by
  subst hbinding
  refine ⟨rfl, hholds.1, ?_⟩
  rw [World.write, World.modifyContext, List.length_modify]
  exact hholds.2

end

/-- No execution binds a node to another context, adds a context or takes one away. -/
theorem staysBound (id count : Nat) (tree : Tree κ) : tree.StaysBound id count := by
  induction tree using Tree.nodeInduction with
  | node name kind children ih =>
    intro run memory world hbound hcount
    cases memory with
    | node cell below =>
      have hholds : (boundUpkeep id count children).holds below world.contexts :=
        ⟨hbound.2, hcount⟩
      have hrun : ∀ held, run = some held → (boundUpkeep id count children).AllowsRun held below :=
        fun held _ => Upkeep.allowsRun_of_forall (fun _ _ _ => trivial) held below
      obtain ⟨hbinding, hkeeps⟩ := (upholds_boundUpkeep ih).turn (· = .shared id)
        boundUpkeep_write name kind children.length hbound.1 hholds hrun
      rw [advance_eq]
      exact ⟨⟨hbinding, hkeeps.holds.1⟩, hkeeps.holds.2⟩

/-- A turn of a tree inside leaves the whole tree bound and the contexts as many. -/
theorem bound_advanceAt {tree : Tree κ} {id count : Nat} (path : Path) (run : Option Run)
    {memory : Memory tree} {world : World} (hbound : memory.IsBoundTo id)
    (hcount : world.contexts.length = count) :
    let progress := advanceAt tree path run memory world
    progress.memory.IsBoundTo id ∧ progress.world.contexts.length = count := by
  induction path generalizing tree with
  | nil =>
    rw [advanceAt_nil]
    exact staysBound id count tree run memory world hbound hcount
  | cons index path ih =>
    have hinner : ∀ (trees : List (Tree κ)) (index : Nat) (below : Memories trees),
        below.AreBoundTo id →
        let progress := advanceAt.advanceIn trees index path run below world
        progress.memory.AreBoundTo id ∧ progress.world.contexts.length = count := by
      intro trees
      induction trees with
      | nil =>
        intro index below hbelow
        cases below
        rw [advanceAt.advanceIn]
        exact ⟨trivial, hcount⟩
      | cons first trees ihTrees =>
        intro index below hbelow
        cases below with
        | cons memory rest =>
          cases index with
          | zero =>
            obtain ⟨hfirst, hcount⟩ := ih hbelow.1
            rw [advanceAt.advanceIn]
            exact ⟨⟨hfirst, hbelow.2⟩, hcount⟩
          | succ index =>
            obtain ⟨hrest, hcount⟩ := ihTrees index rest hbelow.2
            rw [advanceAt.advanceIn]
            exact ⟨⟨hbelow.1, hrest⟩, hcount⟩
    cases memory with
    | node cell below =>
      obtain ⟨hbelow, hcount⟩ := hinner _ index below hbound.2
      rw [advanceAt]
      exact ⟨⟨hbound.1, hbelow⟩, hcount⟩

end BehaviorTree
