import BehaviorTree.Proofs.Tree.Control
import BehaviorTree.Proofs.Tree.View

/-!
# How executions begin

Executing a tree can be watched: whenever a node begins an execution, its position is noted together
with what it shows of its state at that moment. Watching changes nothing (`watch_eq`).
-/

namespace BehaviorTree

variable {κ : Type} [Application κ] {μ : Type}

/-- The beginning of an execution of the node at a position, with what the node shows of its
state. -/
structure Beginning where
  /-- The position of the node. -/
  path : Path
  /-- What the node shows of its state when the execution begins. -/
  gauge : Option Gauge
  deriving DecidableEq

/-- A beginning seen from the parent. -/
def Beginning.under (index : Nat) (beginning : Beginning) : Beginning :=
  { beginning with path := index :: beginning.path }

/-- A memory, and what has begun meanwhile. -/
structure Noted (μ : Type) where
  /-- The memory itself. -/
  memory : μ
  /-- The executions that have begun, the first one first. -/
  begun : List Beginning

/-- The beginning of an execution of the root. -/
def beginningOf (kind : Kind κ) (state : kind.State) (run : Option Run) : List Beginning :=
  match run with
  | none => [⟨[], kind.gauge? state⟩]
  | some _ => []

/-- A crew that notes what begins, if it is known of every child what begins in its turn. -/
def notingCrew {trees : List (Tree κ)}
    (watchChild : Nat → Option Run → Memories trees → World →
      Progress Outcome (Noted (Memories trees))) : Crew (Noted (Memories trees)) :=
  let turn := fun index run (noted : Noted (Memories trees)) world =>
    (watchChild index run noted.memory world).map id fun (later : Noted (Memories trees)) =>
      ⟨later.memory, noted.begun ++ later.begun.map (·.under index)⟩
  { advance := turn
    advanceAll := advanceEach turn trees.length 0
    abort := fun now index noted =>
      let (memory, journal) := noted.memory.abortChild now index
      ({ noted with memory }, journal)
    reset := fun now index noted =>
      let (memory, journal) := noted.memory.resetChild now index
      ({ noted with memory }, journal) }

mutual

/-- Advances a tree and notes what begins. -/
def watch : (tree : Tree κ) → Option Run → Memory tree → World →
    Progress Outcome (Noted (Memory tree))
  | ⟨name, kind, children⟩, run, .node cell below, world =>
    let crew := notingCrew (watchChild children)
    let turn := crew.turn name kind children.length run cell ⟨below, []⟩ world
    { result := turn.result
      memory := ⟨.node turn.memory.1 turn.memory.2.memory,
        beginningOf kind cell.state run ++ turn.memory.2.begun⟩
      world := turn.world
      journal := entryOf name run world ++ turn.journal ++ exitEntry name kind turn
      spawned := turn.spawned
      again := turn.again }

/-- Advances the child with an index and notes what begins, seen from that child. -/
def watchChild : (trees : List (Tree κ)) → Nat → Option Run → Memories trees → World →
    Progress Outcome (Noted (Memories trees))
  | [], _, _, .nil, world => { result := .failed .crashed, memory := ⟨.nil, []⟩, world }
  | tree :: _, 0, run, .cons first rest, world =>
    (watch tree run first world).map id fun (noted : Noted (Memory tree)) =>
      ⟨.cons noted.memory rest, noted.begun⟩
  | tree :: trees, index + 1, run, .cons first rest, world =>
    (watchChild trees index run rest world).map id fun (noted : Noted (Memories trees)) =>
      ⟨(.cons first noted.memory : Memories (tree :: trees)), noted.begun⟩

end

mutual

/-- Advances the tree at a position inside a tree and notes what begins. -/
def watchAt : {tree : Tree κ} → Path → Option Run → Memory tree → World →
    Progress Outcome (Noted (Memory tree))
  | tree, [], run, memory, world => watch tree run memory world
  | ⟨_, _, children⟩, index :: path, run, .node cell below, world =>
    ((watchIn index path run below world).under index).map id
      fun (noted : Noted (Memories children)) =>
        ⟨.node cell noted.memory, noted.begun.map (·.under index)⟩

/-- Advances the tree at a position inside one of several trees, and notes what begins, seen from
that tree. -/
def watchIn : {trees : List (Tree κ)} → Nat → Path → Option Run → Memories trees → World →
    Progress Outcome (Noted (Memories trees))
  | [], _, _, _, .nil, world => { result := .failed .crashed, memory := ⟨.nil, []⟩, world }
  | tree :: _, 0, path, run, .cons first rest, world =>
    (watchAt path run first world).map id fun (noted : Noted (Memory tree)) =>
      ⟨.cons noted.memory rest, noted.begun⟩
  | tree :: trees, index + 1, path, run, .cons first rest, world =>
    (watchIn index path run rest world).map id fun (noted : Noted (Memories trees)) =>
      ⟨(.cons first noted.memory : Memories (tree :: trees)), noted.begun⟩

end

/-- A child is the tree at the empty position inside it. -/
theorem watchIn_nil {trees : List (Tree κ)} (index : Nat) (run : Option Run)
    (memories : Memories trees) (world : World) :
    watchIn index [] run memories world = watchChild trees index run memories world := by
  induction trees generalizing index with
  | nil =>
    cases memories
    rw [watchIn, watchChild]
  | cons tree trees ih =>
    cases memories with
    | cons first rest =>
      cases index with
      | zero => rw [watchIn, watchAt, watchChild]
      | succ index => rw [watchIn, watchChild, ih]

/-! ## Watching changes nothing -/

/-- A crew that notes what begins does what the crew of the children does. -/
theorem shows_notingCrew {trees : List (Tree κ)}
    (hchild : ∀ index run below world,
      (watchChild trees index run below world).map id Noted.memory =
        advanceChild trees index run below world) :
    (notingCrew (watchChild trees)).Shows Noted.memory (crewOf trees) where
  advance := fun index run below world => hchild index run below.memory world
  sideBySide := ⟨trees.length, rfl, advanceAll_eq trees⟩
  abort := fun _ _ _ => rfl
  reset := fun _ _ _ => rfl

mutual

/-- Watching a tree changes nothing in what it does. -/
theorem watch_eq : (tree : Tree κ) → (run : Option Run) → (memory : Memory tree) →
    (world : World) →
      (watch tree run memory world).map id Noted.memory = advance tree run memory world
  | ⟨name, kind, children⟩, run, .node cell below, world => by
    have hturn := (shows_notingCrew fun index run below world =>
      watchChild_eq children index run below world).turn name kind children.length run cell
        ⟨below, []⟩ world
    rw [advance_eq, Crew.turnOf_eq, ← hturn]
    rfl

/-- Watching a child changes nothing in what it does. -/
theorem watchChild_eq : (trees : List (Tree κ)) → (index : Nat) → (run : Option Run) →
    (memories : Memories trees) → (world : World) →
      (watchChild trees index run memories world).map id Noted.memory =
        advanceChild trees index run memories world
  | [], _, _, .nil, _ => by rw [watchChild, advanceChild]; rfl
  | tree :: _, 0, run, .cons first rest, world => by
    rw [watchChild, advanceChild, ← watch_eq tree run first world]
    rfl
  | _ :: trees, index + 1, run, .cons first rest, world => by
    rw [watchChild, advanceChild, ← watchChild_eq trees index run rest world]
    rfl

end

mutual

/-- Watching the tree at a position changes nothing in what it does. -/
theorem watchAt_eq : {tree : Tree κ} → (path : Path) → (run : Option Run) →
    (memory : Memory tree) → (world : World) →
      (watchAt path run memory world).map id Noted.memory = advanceAt tree path run memory world
  | tree, [], run, memory, world => by rw [watchAt, advanceAt, watch_eq]
  | ⟨_, _, _⟩, index :: path, run, .node cell below, world => by
    rw [watchAt, advanceAt, ← watchIn_eq index path run below world]
    rfl

/-- Watching the tree at a position inside a child changes nothing in what it does. -/
theorem watchIn_eq : {trees : List (Tree κ)} → (index : Nat) → (path : Path) →
    (run : Option Run) → (memories : Memories trees) → (world : World) →
      (watchIn index path run memories world).map id Noted.memory =
        advanceAt.advanceIn trees index path run memories world
  | [], _, _, _, .nil, _ => by rw [watchIn, advanceAt.advanceIn]; rfl
  | _ :: _, 0, path, run, .cons first rest, world => by
    rw [watchIn, advanceAt.advanceIn, ← watchAt_eq path run first world]
    rfl
  | _ :: _, index + 1, path, run, .cons first rest, world => by
    rw [watchIn, advanceAt.advanceIn, ← watchIn_eq index path run rest world]
    rfl

end

end BehaviorTree
