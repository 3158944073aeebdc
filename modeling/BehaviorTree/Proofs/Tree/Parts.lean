import BehaviorTree.Proofs.Tree.Likeness

/-!
# Children in parts

The children of a node may be listed in several parts. What is done with one of them is done with
one in its part, counted from where the part begins (`advanceIn_append_left`,
`advanceIn_append_right`), and what is done with all of them is done with one part after the other
(`Memories.sweep_append`).
-/

namespace BehaviorTree

variable {κ : Type} [Application κ] {trees others : List (Tree κ)}

namespace Memories

/-- The memories of two parts. -/
def append : {trees others : List (Tree κ)} → Memories trees → Memories others →
    Memories (trees ++ others)
  | [], _, .nil, later => later
  | _ :: _, _, .cons first rest, later => .cons first (append rest later)

/-- Children in parts that have never run are parts of children that have never run. -/
theorem fresh_append (binding : Binding) (trees others : List (Tree κ)) :
    Memories.fresh binding (trees ++ others) =
      (Memories.fresh binding trees).append (Memories.fresh binding others) := by
  induction trees with
  | nil => rfl
  | cons tree trees ih => exact congrArg (cons (Memory.fresh binding tree)) ih

/-! ## All children -/

/-- Does the same with several trees, one after the other, the first of them being the child with
the given index. -/
def sweep (control : (tree : Tree κ) → Memory tree → Memory tree × Journal) (index : Nat) :
    {trees : List (Tree κ)} → Memories trees → Memories trees × Journal
  | [], .nil => (.nil, [])
  | tree :: _, .cons first rest =>
    let later := sweep control (index + 1) rest
    (.cons (control tree first).1 later.1, (control tree first).2.map (·.under index) ++ later.2)

variable {control : (tree : Tree κ) → Memory tree → Memory tree × Journal}

/-- An operation on several children that deals with the first of them, and then with the others, is
a sweep. -/
theorem eq_sweep (relay : {trees : List (Tree κ)} → Memories trees → Nat → Memories trees × Journal)
    (hnil : ∀ index, relay .nil index = (.nil, []))
    (hcons : ∀ {tree : Tree κ} {trees : List (Tree κ)} (first : Memory tree)
      (rest : Memories trees) (index : Nat), relay (.cons first rest) index =
        (.cons (control tree first).1 (relay rest (index + 1)).1,
          (control tree first).2.map (·.under index) ++ (relay rest (index + 1)).2))
    (index : Nat) (memories : Memories trees) :
    relay memories index = memories.sweep control index := by
  induction trees generalizing index with
  | nil =>
    cases memories
    exact hnil index
  | cons tree trees ih =>
    cases memories with
    | cons first rest => rw [hcons, sweep, ih]

/-- An abort of all children is an abort of one after the other. -/
theorem abort_eq_sweep (now index : Nat) (memories : Memories trees) :
    memories.abort now index = memories.sweep (fun _ => Memory.abort now) index :=
  eq_sweep (fun memories index => memories.abort now index) (fun _ => rfl)
    (fun first rest index => abort_cons now index first rest) index memories

/-- A reset of all children is a reset of one after the other. -/
theorem reset_eq_sweep (now index : Nat) (memories : Memories trees) :
    memories.reset now index = memories.sweep (fun _ => Memory.reset now) index :=
  eq_sweep (fun memories index => memories.reset now index) (fun _ => rfl)
    (fun first rest index => reset_cons now index first rest) index memories

/-- Binding reaches all children when nothing is held. -/
theorem bind_eq_sweep (now id index : Nat) (memories : Memories trees) :
    memories.bind now id (fun _ => false) index =
      memories.sweep (fun _ => Memory.bind now id fun _ => false) index :=
  eq_sweep (fun memories index => memories.bind now id (fun _ => false) index)
    (fun _ => rfl) (fun _ _ _ => rfl) index memories

/-- What is done with children in parts is done with one part after the other. -/
theorem sweep_append (index : Nat) (memories : Memories trees) (later : Memories others) :
    (memories.append later).sweep control index =
      ((memories.sweep control index).1.append (later.sweep control (index + trees.length)).1,
        (memories.sweep control index).2 ++ (later.sweep control (index + trees.length)).2) := by
  induction trees generalizing index with
  | nil =>
    cases memories
    rfl
  | cons tree trees ih =>
    cases memories with
    | cons first rest =>
      have hindex : index + (trees.length + 1) = index + 1 + trees.length := by omega
      rw [append, sweep, ih, sweep, List.length_cons, hindex]
      simp [append]

/-- Where the children are counted from shows in nothing but the positions of the entries. -/
theorem sweep_shift {sees otherSees : Entry → Option Entry} {start other : Nat}
    (hsees : ∀ offset, offset < trees.length → ∀ entry : Entry,
      sees (entry.under (start + offset)) = otherSees (entry.under (other + offset)))
    (memories : Memories trees) :
    (memories.sweep control start).1 = (memories.sweep control other).1 ∧
      (memories.sweep control start).2.filterMap sees =
        (memories.sweep control other).2.filterMap otherSees := by
  induction trees generalizing start other with
  | nil =>
    cases memories
    exact ⟨rfl, rfl⟩
  | cons tree trees ih =>
    cases memories with
    | cons first rest =>
      have hrest : ∀ offset, offset < trees.length → ∀ entry : Entry,
          sees (entry.under (start + 1 + offset)) =
            otherSees (entry.under (other + 1 + offset)) := by
        intro offset hoffset entry
        have hlater := hsees (offset + 1) (by simp; omega) entry
        rwa [Nat.add_comm offset, ← Nat.add_assoc, ← Nat.add_assoc] at hlater
      have hfirst : sees ∘ Entry.under start = otherSees ∘ Entry.under other :=
        funext fun entry => hsees 0 (by simp) entry
      obtain ⟨hmemories, hjournals⟩ := ih hrest rest
      constructor
      · rw [sweep, sweep, hmemories]
      · rw [sweep, sweep, List.filterMap_append, List.filterMap_append, List.filterMap_map,
          List.filterMap_map, hfirst, hjournals]

end Memories

/-! ## One child -/

/-- A turn inside a child of the first part leaves the second part as it is. -/
theorem advanceIn_append_left {index : Nat} (hindex : index < trees.length) (path : Path)
    (run : Option Run) (memories : Memories trees) (later : Memories others) (world : World) :
    advanceAt.advanceIn (trees ++ others) index path run (memories.append later) world =
      (advanceAt.advanceIn trees index path run memories world).map id (·.append later) := by
  induction trees generalizing index with
  | nil => exact absurd hindex (Nat.not_lt_zero index)
  | cons tree trees ih =>
    cases memories with
    | cons first rest =>
      cases index with
      | zero => rfl
      | succ index =>
        have hrest := ih (Nat.lt_of_succ_lt_succ hindex) rest
        exact congrArg (Progress.map id (@Memories.cons κ _ tree (trees ++ others) first)) hrest

/-- A turn inside a child of the second part leaves the first part as it is. -/
theorem advanceIn_append_right (index : Nat) (path : Path) (run : Option Run)
    (memories : Memories trees) (later : Memories others) (world : World) :
    advanceAt.advanceIn (trees ++ others) (trees.length + index) path run (memories.append later)
        world =
      (advanceAt.advanceIn others index path run later world).map id (memories.append ·) := by
  induction trees with
  | nil =>
    cases memories
    rw [List.length_nil, Nat.zero_add]
    rfl
  | cons tree trees ih =>
    cases memories with
    | cons first rest =>
      rw [List.length_cons, Nat.add_right_comm]
      exact congrArg (Progress.map id (@Memories.cons κ _ tree (trees ++ others) first)) (ih rest)

/-- What a node inside a child of the second part shows does not depend on the first part. -/
theorem gaugeAt_append_right (index : Nat) (path : Path) (memories : Memories trees)
    (later : Memories others) :
    (memories.append later).gaugeAt (trees.length + index) path = later.gaugeAt index path := by
  induction trees with
  | nil =>
    cases memories
    rw [List.length_nil, Nat.zero_add]
    rfl
  | cons tree trees ih =>
    cases memories with
    | cons first rest =>
      rw [List.length_cons, Nat.add_right_comm]
      exact ih rest

end BehaviorTree
