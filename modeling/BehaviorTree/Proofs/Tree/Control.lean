import BehaviorTree.Tree.Control

/-!
# What abort, reset and binding do at a node

Each of these operations changes the cell of a node and goes on to its children, in order, if its
kind lets it. The equations here say so without naming intermediate results.
-/

namespace BehaviorTree

variable {κ : Type} [Application κ] {name : String} {kind : Kind κ} {children : List (Tree κ)}
  {tree : Tree κ} {trees : List (Tree κ)}

namespace Memory

/-- An abort changes the state of the node and goes on to its children if the kind relays it. -/
theorem abort_node (now : Nat) (cell : Cell kind.State) (below : Memories children) :
    (node cell below : Memory ⟨name, kind, children⟩).abort now =
      let relayed := if kind.relays then below.abort now 0 else (below, [])
      (node ⟨kind.aborted cell.state, cell.binding⟩ relayed.1,
        eventAt now (.abortBegun name) :: relayed.2 ++
          [eventAt now (.abortDone name (kind.gauge? (kind.aborted cell.state)))]) := rfl

/-- A reset puts the state of the node back and goes on to its children if the kind relays it. -/
theorem reset_node (now : Nat) (cell : Cell kind.State) (below : Memories children) :
    (node cell below : Memory ⟨name, kind, children⟩).reset now =
      let relayed := if kind.relays then below.reset now 0 else (below, [])
      (node ⟨kind.restored cell.state, cell.binding⟩ relayed.1,
        eventAt now (.resetBegun name) :: relayed.2 ++
          [eventAt now (.resetDone name (kind.gauge? (kind.restored cell.state)))]) := rfl

/-- Binding a node keeps its state and goes on to its children if the kind relays it and no child is
held. -/
theorem bind_node (now id : Nat) (held : Path → Bool) (cell : Cell kind.State)
    (below : Memories children) :
    (node cell below : Memory ⟨name, kind, children⟩).bind now id held =
      let relayed :=
        if kind.holdsChild held then (below, [noticeAt now (.childHeld name)])
        else if kind.relays then below.bind now id held 0
        else (below, [])
      (node ⟨cell.state, .shared id⟩ relayed.1, eventAt now (.bound name) :: relayed.2) := rfl

end Memory

namespace Memories

/-- An abort of several children goes through them in order. -/
theorem abort_cons (now index : Nat) (first : Memory tree) (rest : Memories trees) :
    (cons first rest).abort now index =
      (cons (first.abort now).1 (rest.abort now (index + 1)).1,
        (first.abort now).2.map (·.under index) ++ (rest.abort now (index + 1)).2) := rfl

/-- A reset of several children goes through them in order. -/
theorem reset_cons (now index : Nat) (first : Memory tree) (rest : Memories trees) :
    (cons first rest).reset now index =
      (cons (first.reset now).1 (rest.reset now (index + 1)).1,
        (first.reset now).2.map (·.under index) ++ (rest.reset now (index + 1)).2) := rfl

end Memories

end BehaviorTree
