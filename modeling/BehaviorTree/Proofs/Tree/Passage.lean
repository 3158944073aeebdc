import BehaviorTree.Proofs.Journal.Milestones
import BehaviorTree.Proofs.Tree.Blank
import BehaviorTree.Proofs.Tree.Preorder

/-!
# Passages through a tree

Abort and reset do the same at every node: they change its state and go on to its children, in
order. They differ in how the state changes and in what the journal says. So both are passages, and
what a passage does to a whole tree is shown for both at once: it comes to every node once, in
pre-order (`Passage.calls_eq`), and changes what is kept there in one way (`Passage.keptAt_eq`).
-/

namespace BehaviorTree

variable {κ : Type} [Application κ] {tree : Tree κ} {trees : List (Tree κ)}

/-- An operation that goes through a tree from the root downwards. -/
structure Passage (κ : Type) [Application κ] where
  /-- What the operation makes of a tree at a time, and what it reports. -/
  control : Nat → (tree : Tree κ) → Memory tree → Memory tree × Journal
  /-- What it makes of the state of a node. -/
  change : (kind : Kind κ) → kind.State → kind.State
  /-- Says that the operation has come to a node. -/
  begun : String → Event
  /-- Says that it is done with a node. -/
  done : String → Option Gauge → Event
  /-- The node that the operation has come to, if the event says so. -/
  reached? : Event → Option String
  /-- A node is changed between the reports, and passes the operation on to its children or not. -/
  control_node : ∀ now name kind children (cell : Cell kind.State) (below : Memories children),
    control now ⟨name, kind, children⟩ (.node cell below) =
      let relayed := if kind.relays then below.sweep (control now) 0 else (below, [])
      (.node ⟨change kind cell.state, cell.binding⟩ relayed.1,
        eventAt now (begun name) :: relayed.2 ++
          [eventAt now (done name (kind.gauge? (change kind cell.state)))])
  /-- The first report tells the name of the node. -/
  reached?_begun : ∀ name, reached? (begun name) = some name
  /-- The last report does not count as another call. -/
  reached?_done : ∀ name gauge, reached? (done name gauge) = none

/-- The node that is asked to abort. -/
def Event.abortCall? : Event → Option String
  | .abortBegun node => some node
  | _ => none

/-- The node that is reset. -/
def Event.resetCall? : Event → Option String
  | .resetBegun node => some node
  | _ => none

namespace Passage

/-- Abort goes through a tree. -/
def abort : Passage κ where
  control := fun now _ => Memory.abort now
  change := Kind.aborted
  begun := .abortBegun
  done := .abortDone
  reached? := Event.abortCall?
  control_node := by
    intro now name kind children cell below
    rw [Memory.abort_node, Memories.abort_eq_sweep]
  reached?_begun := fun _ => rfl
  reached?_done := fun _ _ => rfl

/-- Reset goes through a tree. -/
def reset : Passage κ where
  control := fun now _ => Memory.reset now
  change := Kind.restored
  begun := .resetBegun
  done := .resetDone
  reached? := Event.resetCall?
  control_node := by
    intro now name kind children cell below
    rw [Memory.reset_node, Memories.reset_eq_sweep]
  reached?_begun := fun _ => rfl
  reached?_done := fun _ _ => rfl

end Passage

/-! ## The calls -/

/-- The position and the name of a node that an entry is about, if the event is selected. -/
def Entry.call? (select : Event → Option String) (entry : Entry) : Option (Path × String) :=
  match entry.happening with
  | .event event => (select event).map fun name => (entry.path, name)
  | .notice _ => none

/-- Seen from the parent, a call is at a position below the child. -/
theorem Entry.call?_under (select : Event → Option String) (index : Nat) (entry : Entry) :
    (entry.under index).call? select =
      (entry.call? select).map fun call => (index :: call.1, call.2) := by
  obtain ⟨time, path, happening⟩ := entry
  cases happening with
  | event event => simp [Entry.call?, Entry.under, Function.comp_def]
  | notice notice => rfl

namespace Journal

/-- The calls that a journal tells of, in order. -/
def calls (select : Event → Option String) (journal : Journal) : List (Path × String) :=
  journal.filterMap (Entry.call? select)

variable (select : Event → Option String)

/-- A journal tells of the call of its first entry, and then of the calls of the rest. -/
theorem calls_cons (entry : Entry) (journal : Journal) :
    calls select (entry :: journal) = (entry.call? select).toList ++ calls select journal := by
  rw [calls, List.filterMap_cons]
  cases entry.call? select <;> rfl

/-- Two journals tell of their calls one after the other. -/
theorem calls_append (first rest : Journal) :
    calls select (first ++ rest) = calls select first ++ calls select rest :=
  List.filterMap_append

/-- Seen from the parent, calls are at positions below the child. -/
theorem calls_map_under (index : Nat) (journal : Journal) :
    calls select (journal.map (·.under index)) =
      (calls select journal).map fun call => (index :: call.1, call.2) := by
  rw [calls, calls, List.filterMap_map, List.map_filterMap]
  exact congrArg (List.filterMap · journal) (funext (Entry.call?_under select index))

end Journal

namespace Passage

variable (passage : Passage κ) (now : Nat)

mutual

/-- A passage comes to every node of a tree whose inner nodes are all built in, in pre-order, and
to each of them once. -/
theorem calls_eq : {tree : Tree κ} → tree.IsRelayed → (memory : Memory tree) →
    Journal.calls passage.reached? (passage.control now tree memory).2 =
      tree.preorder.map fun node => (node.1, node.2.name)
  | ⟨name, kind, children⟩, hrelayed, .node cell below => by
    have hbelow : Journal.calls passage.reached?
        (if kind.relays then below.sweep (passage.control now) 0 else (below, [])).2 =
          (Tree.preorderFrom 0 children).map fun node => (node.1, node.2.name) := by
      split
      · exact calls_sweep 0 hrelayed.2 below
      · next hrelays =>
        obtain rfl := hrelayed.1.resolve_left hrelays
        rfl
    have hfirst : Entry.call? passage.reached? (eventAt now (passage.begun name)) =
        some ([], name) := by
      simp [Entry.call?, eventAt, passage.reached?_begun]
    have hlast : ∀ gauge, Entry.call? passage.reached? (eventAt now (passage.done name gauge)) =
        none := by
      intro gauge
      simp [Entry.call?, eventAt, passage.reached?_done]
    rw [passage.control_node, Tree.preorder, List.map_cons]
    simp only [List.cons_append, Journal.calls_cons, Journal.calls_append, hfirst, hlast, hbelow]
    simp [Journal.calls]

/-- A passage through several children calls each node of them once, in pre-order. -/
theorem calls_sweep (index : Nat) : {trees : List (Tree κ)} → Tree.AreRelayed trees →
    (memories : Memories trees) →
      Journal.calls passage.reached? (memories.sweep (passage.control now) index).2 =
        (Tree.preorderFrom index trees).map fun node => (node.1, node.2.name)
  | [], _, .nil => rfl
  | tree :: trees, hrelayed, .cons first rest => by
    have hfirst := calls_eq hrelayed.1 first
    have hrest := calls_sweep (index + 1) hrelayed.2 rest
    rw [Memories.sweep, Tree.preorderFrom, Journal.calls_append, Journal.calls_map_under, hfirst,
      hrest, List.map_append, List.map_map, List.map_map]
    rfl

end

/-! ## What is kept -/

end Passage

/-- The state is changed, the binding stays. -/
def Kept.changed (change : (kind : Kind κ) → kind.State → kind.State) (kept : Kept κ) : Kept κ :=
  ⟨kept.kind, change kept.kind kept.cell.state, kept.cell.binding⟩

namespace Passage

variable (passage : Passage κ) (now : Nat)

mutual

/-- A passage changes what is kept at every node once. -/
theorem keptAt_eq : {tree : Tree κ} → tree.IsRelayed → (path : Path) → (memory : Memory tree) →
    (passage.control now tree memory).1.keptAt path =
      (memory.keptAt path).map (Kept.changed passage.change)
  | ⟨name, kind, children⟩, _, [], .node cell below => by
    rw [passage.control_node]
    rfl
  | ⟨name, kind, children⟩, hrelayed, index :: path, .node cell below => by
    have hbelow := keptAt_sweep 0 hrelayed.2 index path below
    rw [passage.control_node, Memory.keptAt, Memory.keptAt]
    split
    · exact hbelow
    · next hrelays =>
      obtain rfl := hrelayed.1.resolve_left hrelays
      cases below
      rfl

/-- A passage through several children changes what is kept at every position inside them. -/
theorem keptAt_sweep (start : Nat) : {trees : List (Tree κ)} → Tree.AreRelayed trees →
    (index : Nat) → (path : Path) → (memories : Memories trees) →
      (memories.sweep (passage.control now) start).1.keptAt index path =
        (memories.keptAt index path).map (Kept.changed passage.change)
  | [], _, _, _, .nil => rfl
  | _ :: _, hrelayed, 0, path, .cons first _ => keptAt_eq hrelayed.1 path first
  | _ :: _, hrelayed, index + 1, path, .cons _ rest =>
    keptAt_sweep (start + 1) hrelayed.2 index path rest

end

end Passage

/-! ## The states afterwards -/

namespace Kind

/-- What an abort makes of a state: a chain keeps its position, a count becomes zero, a wait has no
start, and a leaf of an application changes its state in its own way. -/
def GivesUp : (kind : Kind κ) → kind.State → kind.State → Prop
  | sequence, cursor, later => later = cursor
  | selector, cursor, later => later = cursor
  | retryUntilSuccess _, _, count => count = (0 : Nat)
  | repeating _, _, count => count = (0 : Nat)
  | wait _, _, begun => begun = (none : Option Nat)
  | custom node, state, later => later = Application.aborted node state
  | _, _, _ => True

/-- What a reset makes of a state: that of a node that has never moved. A leaf of an application
changes its state in its own way. -/
def StartsOver : (kind : Kind κ) → kind.State → kind.State → Prop
  | custom node, state, later => later = Application.restored node state
  | kind, _, later => later = kind.initial

/-- Abort makes of a state what giving up makes of it. -/
theorem givesUp_aborted (kind : Kind κ) (state : kind.State) :
    kind.GivesUp state (kind.aborted state) := by
  cases kind <;> trivial

/-- Reset makes of a state what starting over makes of it. -/
theorem startsOver_restored (kind : Kind κ) (state : kind.State) :
    kind.StartsOver state (kind.restored state) := by
  cases kind <;> rfl

end Kind

end BehaviorTree
