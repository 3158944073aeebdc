import BehaviorTree.Proofs.Tree.Answers
import BehaviorTree.Proofs.Tree.Parts

/-!
# The nodes of a tree in order

The nodes of a tree are listed in pre-order: each node before those below it, children in order.
The positions in this list rise (`pairwise_preorder`), and it has every node of the tree
(`mem_preorder_iff`), so that whatever meets the nodes in this order meets each of them once. What
a memory keeps at a position is there for exactly the positions of nodes (`isSome_keptAt`).
-/

namespace BehaviorTree

variable {κ : Type}

mutual

/-- The nodes of a tree in pre-order, each with its position and the tree below it. -/
def Tree.preorder : Tree κ → List (Path × Tree κ)
  | ⟨name, kind, children⟩ => ([], ⟨name, kind, children⟩) :: Tree.preorderFrom 0 children

/-- The nodes of several trees, the first of them being the child with the given index. -/
def Tree.preorderFrom (index : Nat) : List (Tree κ) → List (Path × Tree κ)
  | [] => []
  | tree :: trees =>
    tree.preorder.map (fun node => (index :: node.1, node.2)) ++ Tree.preorderFrom (index + 1) trees

end

mutual

/-- The list has the nodes of the tree and nothing else. -/
theorem mem_preorder_iff {path : Path} {inner : Tree κ} :
    (tree : Tree κ) → ((path, inner) ∈ tree.preorder ↔ tree.at? path = some inner)
  | ⟨name, kind, children⟩ => by
    have hbelow : (path, inner) ∈ Tree.preorderFrom 0 children ↔ ∃ offset rest,
        path = (0 + offset) :: rest ∧ Tree.below? children offset rest = some inner :=
      mem_preorderFrom_iff 0 children
    rw [Tree.preorder, List.mem_cons, hbelow]
    cases path with
    | nil => simp [Tree.at?, eq_comm]
    | cons index path => simp [Tree.at?]

/-- The list has every node below each child, with its position. -/
theorem mem_preorderFrom_iff {path : Path} {inner : Tree κ} (start : Nat) :
    (trees : List (Tree κ)) → ((path, inner) ∈ Tree.preorderFrom start trees ↔
      ∃ offset rest, path = (start + offset) :: rest ∧
        Tree.below? trees offset rest = some inner)
  | [] => by simp [Tree.preorderFrom, Tree.below?]
  | tree :: trees => by
    have hfirst : ∀ rest, (rest, inner) ∈ tree.preorder ↔ tree.at? rest = some inner :=
      fun _ => mem_preorder_iff tree
    have hrest : (path, inner) ∈ Tree.preorderFrom (start + 1) trees ↔ ∃ offset rest,
        path = (start + 1 + offset) :: rest ∧ Tree.below? trees offset rest = some inner :=
      mem_preorderFrom_iff (start + 1) trees
    rw [Tree.preorderFrom, List.mem_append, hrest]
    constructor
    · rintro (hmem | ⟨offset, rest, rfl, hat⟩)
      · obtain ⟨⟨rest, found⟩, hnode, heq⟩ := List.mem_map.mp hmem
        cases heq
        exact ⟨0, rest, rfl, (hfirst rest).mp hnode⟩
      · exact ⟨offset + 1, rest, by rw [Nat.add_assoc, Nat.add_comm 1], hat⟩
    · rintro ⟨offset, rest, rfl, hat⟩
      cases offset with
      | zero => exact .inl (List.mem_map.mpr ⟨(rest, inner), (hfirst rest).mpr hat, rfl⟩)
      | succ offset =>
        exact .inr ⟨offset, rest, by rw [Nat.add_assoc, Nat.add_comm 1], hat⟩

end

mutual

/-- A node comes before those below it, and before those below later children. -/
theorem pairwise_preorder :
    (tree : Tree κ) → tree.preorder.Pairwise fun first second => first.1 < second.1
  | ⟨name, kind, children⟩ => by
    have hbelow := pairwise_preorderFrom 0 children
    rw [Tree.preorder, List.pairwise_cons]
    refine ⟨?_, hbelow⟩
    rintro ⟨path, inner⟩ hmem
    obtain ⟨offset, rest, rfl, -⟩ := (mem_preorderFrom_iff 0 children).mp hmem
    exact List.nil_lt_cons _ _

/-- The positions of the nodes of several children rise. -/
theorem pairwise_preorderFrom (start : Nat) : (trees : List (Tree κ)) →
    (Tree.preorderFrom start trees).Pairwise fun first second => first.1 < second.1
  | [] => .nil
  | tree :: trees => by
    have hfirst := pairwise_preorder tree
    have hrest := pairwise_preorderFrom (start + 1) trees
    rw [Tree.preorderFrom, List.pairwise_append, List.pairwise_map]
    refine ⟨hfirst.imp fun hlt => List.cons_lt_cons_iff.mpr (.inr ⟨rfl, hlt⟩), hrest, ?_⟩
    -- what is below another child has a larger first index
    rintro node hmem ⟨path, inner⟩ hlater
    obtain ⟨⟨rest, found⟩, -, rfl⟩ := List.mem_map.mp hmem
    obtain ⟨offset, rest', rfl, -⟩ := (mem_preorderFrom_iff (start + 1) trees).mp hlater
    have hlt : start < start + 1 + offset := by omega
    exact List.cons_lt_cons_iff.mpr (.inl hlt)

end

/-- The positions of all nodes, in pre-order. -/
def Tree.positions (tree : Tree κ) : List Path := tree.preorder.map (·.1)

/-- The positions of the nodes of a tree rise. -/
theorem pairwise_positions (tree : Tree κ) : tree.positions.Pairwise (· < ·) :=
  List.pairwise_map.mpr (pairwise_preorder tree)

/-- The positions of a tree are those where it has a node. -/
theorem mem_positions_iff {tree : Tree κ} {path : Path} :
    path ∈ tree.positions ↔ ∃ inner, tree.at? path = some inner := by
  rw [Tree.positions, List.mem_map]
  constructor
  · rintro ⟨⟨path, inner⟩, hmem, rfl⟩
    exact ⟨inner, (mem_preorder_iff tree).mp hmem⟩
  · rintro ⟨inner, hat⟩
    exact ⟨(path, inner), (mem_preorder_iff tree).mpr hat, rfl⟩

/-- Every node is listed once. -/
theorem count_positions {tree inner : Tree κ} {path : Path} (hat : tree.at? path = some inner) :
    tree.positions.count path = 1 := by
  have hnodup : tree.positions.Nodup := by
    refine (pairwise_positions tree).imp fun {path later} hlt => ?_
    rintro rfl
    exact List.lt_irrefl path hlt
  have hmem : path ∈ tree.positions := mem_positions_iff.mpr ⟨inner, hat⟩
  rw [hnodup.count, if_pos hmem]

/-! ## What is kept at a node -/

variable [Application κ]

/-- What a memory keeps at a node of some kind. -/
structure Kept (κ : Type) [Application κ] where
  /-- The type of the node. -/
  kind : Kind κ
  /-- The state of the node and the context that it is bound to. -/
  cell : Cell kind.State

mutual

/-- What is kept at a position. -/
def Memory.keptAt : {tree : Tree κ} → Path → Memory tree → Option (Kept κ)
  | ⟨_, kind, _⟩, [], .node cell _ => some ⟨kind, cell⟩
  | ⟨_, _, _⟩, index :: path, .node _ below => Memories.keptAt index path below

/-- What is kept at a position inside the child with an index. -/
def Memories.keptAt : {trees : List (Tree κ)} → Nat → Path → Memories trees → Option (Kept κ)
  | [], _, _, .nil => none
  | _ :: _, 0, path, .cons first _ => Memory.keptAt path first
  | _ :: _, index + 1, path, .cons _ rest => Memories.keptAt index path rest

end

mutual

/-- Something is kept at every node, of the kind that the node has. -/
theorem Memory.kind_keptAt : {tree : Tree κ} → (path : Path) → (memory : Memory tree) →
    (memory.keptAt path).map Kept.kind = (tree.at? path).map Tree.kind
  | ⟨_, _, _⟩, [], .node _ _ => rfl
  | ⟨_, _, _⟩, index :: path, .node _ below => Memories.kind_keptAt index path below

/-- What is kept at a position inside a child is of the kind of the node there. -/
theorem Memories.kind_keptAt : {trees : List (Tree κ)} → (index : Nat) → (path : Path) →
    (memories : Memories trees) →
      (memories.keptAt index path).map Kept.kind = (Tree.below? trees index path).map Tree.kind
  | [], _, _, .nil => rfl
  | _ :: _, 0, path, .cons first _ => Memory.kind_keptAt path first
  | _ :: _, index + 1, path, .cons _ rest => Memories.kind_keptAt index path rest

end

/-- There is something kept at the position of every node, and it is of the kind of that node. -/
theorem Memory.exists_keptAt {tree inner : Tree κ} {path : Path} (memory : Memory tree)
    (hat : tree.at? path = some inner) :
    ∃ kept, memory.keptAt path = some kept ∧ kept.kind = inner.kind := by
  have hkind := memory.kind_keptAt path
  rw [hat, Option.map_some, Option.map_eq_some_iff] at hkind
  exact hkind

end BehaviorTree
