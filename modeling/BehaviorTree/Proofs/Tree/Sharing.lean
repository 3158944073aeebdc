import BehaviorTree.Proofs.Tree.Blank
import BehaviorTree.Proofs.Tree.Preorder

/-!
# How far binding reaches

Binding a tree to a shared context reaches every node from the root downwards, but stops at a
timeout whose child is held by an execution that goes on detached. What lies below such a timeout is
sheltered (`Tree.Shelters`) and keeps what it had; everything else is bound (`Memory.keptAt_bind`).
No state changes.
-/

namespace BehaviorTree

variable {κ : Type}

/-- A position lies below a timeout whose child is held. -/
def Tree.Shelters (tree : Tree κ) (held : Path → Bool) (path : Path) : Prop :=
  ∃ above index rest name limit children, path = above ++ index :: rest ∧
    tree.at? above = some ⟨name, .timeout limit, children⟩ ∧ held (above ++ [0]) = true

/-- A position inside a child lies below a timeout whose child is held. The first of the trees is
the child with the given index. -/
def Tree.SheltersBelow (trees : List (Tree κ)) (start : Nat) (held : Path → Bool) (offset : Nat)
    (path : Path) : Prop :=
  ∃ above index rest name limit children, path = above ++ index :: rest ∧
    Tree.below? trees offset above = some ⟨name, .timeout limit, children⟩ ∧
    held ((start + offset) :: above ++ [0]) = true

/-- Nothing shelters the root. -/
theorem Tree.not_shelters_nil (tree : Tree κ) (held : Path → Bool) : ¬ tree.Shelters held [] := by
  rintro ⟨above, index, rest, -, -, -, heq, -⟩
  cases above <;> cases heq

/-- Where nothing is held, nothing is sheltered. -/
theorem Tree.not_shelters_of_free (tree : Tree κ) {held : Path → Bool}
    (hfree : ∀ path, held path = false) (path : Path) : ¬ tree.Shelters held path := by
  rintro ⟨above, -, -, -, -, -, -, -, hheld⟩
  rw [hfree] at hheld
  cases hheld

/-- A node below the root is sheltered by the root or by a node inside the child. -/
theorem Tree.shelters_cons_iff {name : String} {kind : Kind κ} {children : List (Tree κ)}
    {held : Path → Bool} {index : Nat} {path : Path} :
    Tree.Shelters ⟨name, kind, children⟩ held (index :: path) ↔
      kind.holdsChild held = true ∨ Tree.SheltersBelow children 0 held index path := by
  constructor
  · rintro ⟨above, child, rest, name, limit, below, heq, hat, hheld⟩
    cases above with
    | nil =>
      cases hat
      exact .inl hheld
    | cons first above =>
      cases heq
      refine .inr ⟨above, child, rest, name, limit, below, rfl, hat, ?_⟩
      rw [Nat.zero_add]
      exact hheld
  · rintro (hholds | ⟨above, child, rest, name, limit, below, rfl, hat, hheld⟩)
    · cases kind with
      | timeout limit => exact ⟨[], index, path, name, limit, children, rfl, rfl, hholds⟩
      | _ => cases hholds
    · rw [Nat.zero_add] at hheld
      exact ⟨index :: above, child, rest, name, limit, below, rfl, hat, hheld⟩

/-- A position inside the first child is sheltered if it is so within that child. -/
theorem Tree.sheltersBelow_zero {tree : Tree κ} {trees : List (Tree κ)} {start : Nat}
    {held : Path → Bool} {path : Path} :
    Tree.SheltersBelow (tree :: trees) start held 0 path ↔
      tree.Shelters (fun path => held (start :: path)) path := Iff.rfl

/-- A position inside a later child is sheltered if it is so among the later children. -/
theorem Tree.sheltersBelow_succ {tree : Tree κ} {trees : List (Tree κ)} {start offset : Nat}
    {held : Path → Bool} {path : Path} :
    Tree.SheltersBelow (tree :: trees) start held (offset + 1) path ↔
      Tree.SheltersBelow trees (start + 1) held offset path := by
  have hindex : start + (offset + 1) = start + 1 + offset := by omega
  rw [Tree.SheltersBelow, hindex]
  rfl

variable [Application κ]

/-- The state stays, the node is bound to the context with a number. -/
def Kept.bound (id : Nat) (kept : Kept κ) : Kept κ := ⟨kept.kind, kept.cell.state, .shared id⟩

open Classical in
mutual

/-- Binding binds every node that is not sheltered, and changes nothing else. -/
theorem Memory.keptAt_bind (now id : Nat) (held : Path → Bool) : {tree : Tree κ} →
    tree.IsRelayed → (path : Path) → (memory : Memory tree) →
      (memory.bind now id held).1.keptAt path =
        if tree.Shelters held path then memory.keptAt path
        else (memory.keptAt path).map (Kept.bound id)
  | ⟨name, kind, children⟩, _, [], .node cell below => by
    rw [if_neg (Tree.not_shelters_nil _ held), Memory.bind_node]
    rfl
  | ⟨name, kind, children⟩, hrelayed, index :: path, .node cell below => by
    have hbelow := Memories.keptAt_bind now id 0 held hrelayed.2 index path below
    rw [Memory.bind_node, Memory.keptAt, Memory.keptAt]
    by_cases hholds : kind.holdsChild held = true
    · -- the child is held
      rw [if_pos (Tree.shelters_cons_iff.mpr (.inl hholds)), if_pos hholds]
    · have hiff : Tree.Shelters ⟨name, kind, children⟩ held (index :: path) ↔
          Tree.SheltersBelow children 0 held index path := by
        rw [Tree.shelters_cons_iff, or_iff_right hholds]
      simp only [if_neg hholds, hiff]
      split
      · exact hbelow
      · next hrelays =>
        obtain rfl := hrelayed.1.resolve_left hrelays
        cases below
        exact (ite_self none).symm

/-- Binding several children reaches every position inside them that is not sheltered. -/
theorem Memories.keptAt_bind (now id start : Nat) (held : Path → Bool) : {trees : List (Tree κ)} →
    Tree.AreRelayed trees → (offset : Nat) → (path : Path) → (memories : Memories trees) →
      (memories.bind now id held start).1.keptAt offset path =
        if Tree.SheltersBelow trees start held offset path then memories.keptAt offset path
        else (memories.keptAt offset path).map (Kept.bound id)
  | [], _, _, _, .nil => (ite_self none).symm
  | tree :: trees, hrelayed, 0, path, .cons first rest => by
    have hfirst :=
      Memory.keptAt_bind now id (fun path => held (start :: path)) hrelayed.1 path first
    simp only [Tree.sheltersBelow_zero]
    exact hfirst
  | tree :: trees, hrelayed, offset + 1, path, .cons first rest => by
    have hrest := Memories.keptAt_bind now id (start + 1) held hrelayed.2 offset path rest
    simp only [Tree.sheltersBelow_succ]
    exact hrest

end

/-- A sheltered node keeps the binding that it had. -/
theorem Memory.keptAt_bind_of_shelters {tree : Tree κ} (hrelayed : tree.IsRelayed) (now id : Nat)
    {held : Path → Bool} {path : Path} (memory : Memory tree)
    (hshelters : tree.Shelters held path) :
    (memory.bind now id held).1.keptAt path = memory.keptAt path := by
  rw [Memory.keptAt_bind now id held hrelayed, if_pos hshelters]

/-- A node that is not sheltered is bound to the context. -/
theorem Memory.keptAt_bind_of_not_shelters {tree : Tree κ} (hrelayed : tree.IsRelayed)
    (now id : Nat) {held : Path → Bool} {path : Path} (memory : Memory tree)
    (hfree : ¬ tree.Shelters held path) :
    (memory.bind now id held).1.keptAt path = (memory.keptAt path).map (Kept.bound id) := by
  rw [Memory.keptAt_bind now id held hrelayed, if_neg hfree]

mutual

/-- A tree that has never run keeps the initial state of each node and one binding for all. -/
theorem Memory.keptAt_fresh (binding : Binding) : (tree : Tree κ) → (path : Path) →
    (Memory.fresh binding tree).keptAt path =
      (tree.at? path).map fun inner => ⟨inner.kind, inner.kind.initial, binding⟩
  | ⟨_, _, _⟩, [] => rfl
  | ⟨_, _, children⟩, index :: path => Memories.keptAt_fresh binding children index path

/-- Children that have never run keep the initial state of each node. -/
theorem Memories.keptAt_fresh (binding : Binding) : (trees : List (Tree κ)) → (index : Nat) →
    (path : Path) → (Memories.fresh binding trees).keptAt index path =
      (Tree.below? trees index path).map fun inner => ⟨inner.kind, inner.kind.initial, binding⟩
  | [], _, _ => rfl
  | tree :: _, 0, path => Memory.keptAt_fresh binding tree path
  | _ :: trees, index + 1, path => Memories.keptAt_fresh binding trees index path

end

end BehaviorTree
