import BehaviorTree.Proofs.Tree.Control
import BehaviorTree.Proofs.Tree.Turn

/-!
# What happens to the children of a node

The journal of a turn tells of everything below the node. The deeds in it are what happens to the
children themselves: an execution of a child begins, it ends with an answer, a child is reset. One
stretch of the execution of a child adds its beginning and its end, if they are in that stretch
(`deeds_under_advanceChild`), and a reset adds itself (`deeds_under_resetChild`).
-/

namespace BehaviorTree

variable {κ : Type} [Application κ]

/-- What happens to a child. -/
inductive Deed where
  | begun (child : Nat)
  | ended (child : Nat) (status : Status)
  | reset (child : Nat)
  deriving DecidableEq

/-- What an event in the life of a child is to its parent. -/
def Event.deed? (child : Nat) : Event → Option Deed
  | entered _ => some (.begun child)
  | exited _ status _ => some (.ended child status)
  | resetBegun _ => some (.reset child)
  | _ => none

/-- What an entry says to the parent of the node that it is about. -/
def Entry.deed? : Entry → Option Deed
  | ⟨_, [child], .event event⟩ => event.deed? child
  | _ => none

/-- The end of a stretch of execution of a child, if it is the end of the execution. -/
def Outcome.deeds (child : Nat) : Outcome → List Deed
  | .answered status => [.ended child status]
  | .waiting _ | .failed _ => []

namespace Journal

/-- What happens to the children, in order. -/
def deeds (journal : Journal) : List Deed := journal.filterMap Entry.deed?

/-- An empty journal tells of no deeds. -/
@[simp] theorem deeds_nil : deeds [] = [] := rfl

/-- Two journals tell of their deeds one after the other. -/
@[simp] theorem deeds_append (first rest : Journal) :
    deeds (first ++ rest) = deeds first ++ deeds rest :=
  List.filterMap_append

/-- Notices tell of no deeds. -/
@[simp] theorem deeds_map_noticeAt (now : Nat) (notices : List Notice) :
    deeds (notices.map (noticeAt now)) = [] := by
  rw [deeds, List.filterMap_map]
  exact List.filterMap_eq_nil_iff.mpr fun _ _ => rfl

/-- The entry for the beginning of an execution tells of no deed of a child. -/
@[simp] theorem deeds_entryOf (name : String) (run : Option Run) (world : World) :
    deeds (entryOf name run world) = [] := by
  cases run <;> rfl

/-- The entry for the end of an execution tells of no deed of a child. -/
@[simp] theorem deeds_exitEntry {μ : Type} (name : String) (kind : Kind κ)
    (progress : Progress Outcome (Cell kind.State × μ)) :
    deeds (exitEntry name kind progress) = [] := by
  unfold exitEntry
  split <;> rfl

/-- Seen from the parent, the entry for the beginning of an execution is the deed that a child
begins. -/
theorem deeds_under_entryOf (index : Nat) (name : String) (run : Option Run) (world : World) :
    deeds ((entryOf name run world).map (·.under index)) =
      if run = none then [.begun index] else [] := by
  cases run <;> rfl

/-- Seen from the parent, the entry for the end of an execution is the deed that a child ends. -/
theorem deeds_under_exitEntry {μ : Type} (index : Nat) (name : String) (kind : Kind κ)
    (progress : Progress Outcome (Cell kind.State × μ)) :
    deeds ((exitEntry name kind progress).map (·.under index)) = progress.result.deeds index := by
  unfold exitEntry
  split
  · next status hstatus =>
    rw [hstatus]
    rfl
  · next hnone =>
    cases hresult : progress.result with
    | answered status => exact absurd hresult (hnone status)
    | waiting run => rfl
    | failed fault => rfl

/-- What happens below a child is no deed of its parent. -/
theorem IsInner.deeds_under {journal : Journal} (hinner : IsInner journal) (index : Nat) :
    deeds (journal.map (·.under index)) = [] := by
  rw [deeds, List.filterMap_map]
  refine List.filterMap_eq_nil_iff.mpr fun entry hmem => ?_
  obtain ⟨time, path, happening⟩ := entry
  cases happening with
  | notice notice => cases path <;> rfl
  | event event =>
    obtain ⟨child, path, rfl⟩ := List.exists_cons_of_ne_nil (hinner _ hmem event rfl)
    rfl

end Journal

open Journal

/-! ## Executions -/

/-- A stretch of the execution of a child, seen from its parent. -/
theorem deeds_under_advance (index : Nat) (tree : Tree κ) (run : Option Run)
    (memory : Memory tree) (world : World) :
    let progress := advance tree run memory world
    deeds (progress.journal.map (·.under index)) =
      (if run = none then [.begun index] else []) ++ progress.result.deeds index := by
  obtain ⟨name, kind, children⟩ := tree
  cases memory with
  | node cell below =>
    have hinner := isInner_turn name kind children run cell below world
    dsimp only
    rw [advance_eq]
    simp only [List.map_append, deeds_append, deeds_under_entryOf, deeds_under_exitEntry,
      hinner.deeds_under index, List.append_nil]

/-- A stretch of execution of a child adds its beginning and its end to the deeds. -/
theorem deeds_under_advanceChild {trees : List (Tree κ)} {index : Nat}
    (hindex : index < trees.length) (label : Nat) (run : Option Run) (memories : Memories trees)
    (world : World) :
    let progress := advanceChild trees index run memories world
    deeds (progress.journal.map (·.under label)) =
      (if run = none then [.begun label] else []) ++ progress.result.deeds label := by
  induction trees generalizing index with
  | nil => exact absurd hindex (Nat.not_lt_zero _)
  | cons tree trees ih =>
    cases memories with
    | cons first rest =>
      cases index with
      | zero => exact deeds_under_advance label tree run first world
      | succ index => exact ih (Nat.lt_of_succ_lt_succ hindex) rest

/-! ## Resets -/

/-- A reset of the children is about no node but the children and what is below them. -/
theorem isInner_reset {trees : List (Tree κ)} (now index : Nat) (below : Memories trees) :
    IsInner (below.reset now index).2 := by
  induction trees generalizing index with
  | nil =>
    cases below
    exact isInner_nil
  | cons tree trees ih =>
    cases below with
    | cons first rest =>
      rw [Memories.reset_cons]
      exact (isInner_map_under index _).append (ih (index + 1) rest)

/-- Seen from the parent, the reset of a tree is the deed that a child is reset. -/
theorem deeds_under_reset (index now : Nat) {tree : Tree κ} (memory : Memory tree) :
    deeds ((memory.reset now).2.map (·.under index)) = [.reset index] := by
  obtain ⟨name, kind, children⟩ := tree
  cases memory with
  | node cell below =>
    have hinner : IsInner (if kind.relays then below.reset now 0 else (below, [])).2 := by
      split
      · exact isInner_reset now 0 below
      · exact isInner_nil
    have hbelow := hinner.deeds_under index
    rw [Memory.reset_node]
    dsimp only
    rw [List.cons_append, ← List.singleton_append, List.map_append, List.map_append, deeds_append,
      deeds_append, hbelow]
    rfl

/-- A reset of a child adds itself to the deeds. -/
theorem deeds_under_resetChild {trees : List (Tree κ)} {index : Nat} (hindex : index < trees.length)
    (label now : Nat) (memories : Memories trees) :
    deeds ((memories.resetChild now index).2.map (·.under label)) = [.reset label] := by
  induction trees generalizing index with
  | nil => exact absurd hindex (Nat.not_lt_zero _)
  | cons tree trees ih =>
    cases memories with
    | cons first rest =>
      cases index with
      | zero => exact deeds_under_reset label now first
      | succ index => exact ih (Nat.lt_of_succ_lt_succ hindex) rest

end BehaviorTree
