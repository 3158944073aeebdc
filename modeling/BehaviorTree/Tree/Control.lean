import BehaviorTree.Tree.Basic

/-!
# Abort, reset and binding

These operations reach the nodes of a tree from the root downwards, children in order, and
execute nothing. Each gives the new memory and the journal of the nodes it reached.
-/

namespace BehaviorTree

variable {κ : Type} [Application κ]

/-- The journal entry of an event at the root of a tree. -/
def eventAt (now : Nat) (event : Event) : Entry := ⟨now, [], .event event⟩

/-- The journal entry of a notice from the root of a tree. -/
def noticeAt (now : Nat) (notice : Notice) : Entry := ⟨now, [], .notice notice⟩

mutual

/-- Asks every node to abort. -/
def Memory.abort (now : Nat) : {tree : Tree κ} → Memory tree → Memory tree × Journal
  | ⟨name, kind, _⟩, .node cell below =>
    let state := kind.aborted cell.state
    let (below, journal) := if kind.relays then Memories.abort now 0 below else (below, [])
    (.node ⟨state, cell.binding⟩ below,
      eventAt now (.abortBegun name) :: journal ++
        [eventAt now (.abortDone name (kind.gauge? state))])

/-- Asks several trees to abort, the first of them being the child with the given index. -/
def Memories.abort (now : Nat) (index : Nat) :
    {trees : List (Tree κ)} → Memories trees → Memories trees × Journal
  | [], .nil => (.nil, [])
  | _ :: _, .cons first rest =>
    let (first, journal) := Memory.abort now first
    let (rest, others) := Memories.abort now (index + 1) rest
    (.cons first rest, journal.map (·.under index) ++ others)

end

mutual

/-- Resets every node. -/
def Memory.reset (now : Nat) : {tree : Tree κ} → Memory tree → Memory tree × Journal
  | ⟨name, kind, _⟩, .node cell below =>
    let state := kind.restored cell.state
    let (below, journal) := if kind.relays then Memories.reset now 0 below else (below, [])
    (.node ⟨state, cell.binding⟩ below,
      eventAt now (.resetBegun name) :: journal ++
        [eventAt now (.resetDone name (kind.gauge? state))])

/-- Resets several trees, the first of them being the child with the given index. -/
def Memories.reset (now : Nat) (index : Nat) :
    {trees : List (Tree κ)} → Memories trees → Memories trees × Journal
  | [], .nil => (.nil, [])
  | _ :: _, .cons first rest =>
    let (first, journal) := Memory.reset now first
    let (rest, others) := Memories.reset now (index + 1) rest
    (.cons first rest, journal.map (·.under index) ++ others)

end

/-- Whether a node is a timeout whose child is held by an execution that goes on detached. -/
def Kind.holdsChild (kind : Kind κ) (held : Path → Bool) : Bool :=
  match kind with
  | .timeout _ => held [0]
  | _ => false

mutual

/-- Binds every node to a shared context, except those below a timeout whose child is held. -/
def Memory.bind (now id : Nat) (held : Path → Bool) :
    {tree : Tree κ} → Memory tree → Memory tree × Journal
  | ⟨name, kind, _⟩, .node cell below =>
    let (below, journal) :=
      if kind.holdsChild held then (below, [noticeAt now (.childHeld name)])
      else if kind.relays then Memories.bind now id held 0 below
      else (below, [])
    (.node ⟨cell.state, .shared id⟩ below, eventAt now (.bound name) :: journal)

/-- Binds several trees, the first of them being the child with the given index. -/
def Memories.bind (now id : Nat) (held : Path → Bool) (index : Nat) :
    {trees : List (Tree κ)} → Memories trees → Memories trees × Journal
  | [], .nil => (.nil, [])
  | _ :: _, .cons first rest =>
    let (first, journal) := Memory.bind now id (fun path => held (index :: path)) first
    let (rest, others) := Memories.bind now id held (index + 1) rest
    (.cons first rest, journal.map (·.under index) ++ others)

end

/-- Aborts the child with an index, if there is one. The journal is that child's own. -/
def Memories.abortChild (now : Nat) :
    {trees : List (Tree κ)} → Nat → Memories trees → Memories trees × Journal
  | [], _, .nil => (.nil, [])
  | _ :: _, 0, .cons first rest =>
    let (first, journal) := Memory.abort now first
    (.cons first rest, journal)
  | _ :: _, index + 1, .cons first rest =>
    let (rest, journal) := Memories.abortChild now index rest
    (.cons first rest, journal)

/-- Resets the child with an index, if there is one. The journal is that child's own. -/
def Memories.resetChild (now : Nat) :
    {trees : List (Tree κ)} → Nat → Memories trees → Memories trees × Journal
  | [], _, .nil => (.nil, [])
  | _ :: _, 0, .cons first rest =>
    let (first, journal) := Memory.reset now first
    (.cons first rest, journal)
  | _ :: _, index + 1, .cons first rest =>
    let (rest, journal) := Memories.resetChild now index rest
    (.cons first rest, journal)

end BehaviorTree
