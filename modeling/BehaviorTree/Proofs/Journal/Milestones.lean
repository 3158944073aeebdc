import BehaviorTree.Proofs.Tree.Control
import BehaviorTree.Proofs.Tree.Turn

/-!
# Milestones

The milestones of a journal are the beginnings of executions and the answers, each with the
position of the node. Those of the leaves alone show the way of an execution through the tree. A
journal is orderly if a leaf can answer running only at its very end (`Journal.Orderly`).
-/

namespace BehaviorTree

variable {κ : Type} [Application κ]

/-- The beginning of an execution, or the answer that ends it. -/
structure Milestone where
  /-- The position of the node. -/
  path : Path
  /-- The status of the answer, or none at the beginning. -/
  answer : Option Status
  deriving DecidableEq

/-- A milestone of a child, as it is seen from the node. -/
def Milestone.under (index : Nat) (milestone : Milestone) : Milestone :=
  { milestone with path := index :: milestone.path }

/-- The milestone that an entry is, if it is one. -/
def Entry.milestone? : Entry → Option Milestone
  | ⟨_, path, .event (.entered _)⟩ => some ⟨path, none⟩
  | ⟨_, path, .event (.exited _ status _)⟩ => some ⟨path, some status⟩
  | _ => none

/-- The milestone of a child's entry is that of the entry, below the child's position. -/
theorem Entry.milestone?_under (index : Nat) (entry : Entry) :
    (entry.under index).milestone? = entry.milestone?.map (·.under index) := by
  obtain ⟨time, path, happening⟩ := entry
  cases happening with
  | event event => cases event <;> rfl
  | notice notice => rfl

namespace Journal

/-- The milestones of a journal, in order. -/
def milestones (journal : Journal) : List Milestone := journal.filterMap Entry.milestone?

/-- An empty journal has no milestones. -/
@[simp] theorem milestones_nil : milestones [] = [] := rfl

/-- The milestones of a journal begin with that of its first entry, if this is one. -/
theorem milestones_cons (entry : Entry) (journal : Journal) :
    milestones (entry :: journal) = entry.milestone?.toList ++ milestones journal := by
  rw [milestones, List.filterMap_cons]
  cases entry.milestone? <;> rfl

/-- The milestones of one journal after another are those of the two in this order. -/
@[simp] theorem milestones_append (first rest : Journal) :
    milestones (first ++ rest) = milestones first ++ milestones rest :=
  List.filterMap_append

/-- The milestones of a child's journal are its own, below the child's position. -/
@[simp] theorem milestones_map_under (index : Nat) (journal : Journal) :
    milestones (journal.map (·.under index)) = (milestones journal).map (·.under index) := by
  rw [milestones, milestones, List.filterMap_map, List.map_filterMap]
  exact congrArg (List.filterMap · journal) (funext (Entry.milestone?_under index))

/-- Notices are no milestones. -/
@[simp] theorem milestones_map_noticeAt (now : Nat) (notices : List Notice) :
    milestones (notices.map (noticeAt now)) = [] := by
  rw [milestones, List.filterMap_map]
  exact List.filterMap_eq_nil_iff.mpr fun _ _ => rfl

/-- A node that begins an execution has a milestone for that, and one that goes on has none. -/
theorem milestones_entryOf (name : String) (run : Option Run) (world : World) :
    milestones (entryOf name run world) = if run = none then [⟨[], none⟩] else [] := by
  cases run <;> rfl

/-- A node that answers has a milestone for that, and one that waits or fails has none. -/
theorem milestones_exitEntry {μ : Type} (name : String) (kind : Kind κ)
    (progress : Progress Outcome (Cell kind.State × μ)) :
    milestones (exitEntry name kind progress) =
      match progress.result with
      | .answered status => [⟨[], some status⟩]
      | .waiting _ | .failed _ => [] := by
  unfold exitEntry
  cases progress.result <;> rfl

/-- The milestones of the leaves. -/
def leafMilestones (isLeaf : Path → Bool) (journal : Journal) : List Milestone :=
  (milestones journal).filter (isLeaf ·.path)

section Leaves

variable {isLeaf : Path → Bool}

/-- The leaves' milestones of one journal after another are those of the two in this order. -/
@[simp] theorem leafMilestones_append (first rest : Journal) :
    leafMilestones isLeaf (first ++ rest) =
      leafMilestones isLeaf first ++ leafMilestones isLeaf rest := by
  rw [leafMilestones, milestones_append, List.filter_append]
  rfl

/-- Without milestones there are none of leaves. -/
theorem leafMilestones_of_milestones {journal : Journal} (hnone : milestones journal = []) :
    leafMilestones isLeaf journal = [] := by
  rw [leafMilestones, hnone]
  rfl

/-- What happens below a leaf has no milestones of leaves, for there is nothing below. -/
theorem leafMilestones_of_isInner {journal : Journal} (hinner : IsInner journal)
    (hnone : ∀ index path, isLeaf (index :: path) = false) :
    leafMilestones isLeaf journal = [] := by
  refine List.filter_eq_nil_iff.mpr fun milestone hmem => ?_
  obtain ⟨⟨time, path, happening⟩, hentry, hmilestone⟩ := List.mem_filterMap.mp hmem
  cases happening with
  | notice notice => cases hmilestone
  | event event =>
    have hpath := hinner _ hentry event rfl
    cases path with
    | nil => exact absurd rfl hpath
    | cons index path => cases event <;> cases hmilestone <;> simp [hnone]

/-- The leaves' milestones of a child's journal are its own, below the child's position. -/
theorem leafMilestones_map_under (index : Nat) (journal : Journal) :
    leafMilestones isLeaf (journal.map (·.under index)) =
      (leafMilestones (fun path => isLeaf (index :: path)) journal).map (·.under index) := by
  rw [leafMilestones, milestones_map_under, List.filter_map]
  rfl

/-- No leaf answers running, except that the last milestone may be the running answer of a leaf
whose position has a property. -/
def Orderly (isLeaf : Path → Bool) (journal : Journal) (last : Path → Prop) : Prop :=
  (∀ milestone ∈ leafMilestones isLeaf journal, milestone.answer ≠ some .running) ∨
    ∃ before path, leafMilestones isLeaf journal = before ++ [⟨path, some .running⟩] ∧
      (∀ milestone ∈ before, milestone.answer ≠ some .running) ∧ last path

/-- A journal without milestones of leaves is orderly. -/
theorem orderly_of_leafMilestones {journal : Journal} (hnone : leafMilestones isLeaf journal = [])
    (last : Path → Prop) : Orderly isLeaf journal last :=
  .inl (by simp [hnone])

/-- A journal without milestones is orderly. -/
theorem orderly_of_milestones {journal : Journal} (hnone : milestones journal = [])
    (last : Path → Prop) : Orderly isLeaf journal last :=
  orderly_of_leafMilestones (leafMilestones_of_milestones hnone) last

/-- An orderly journal stays so if more leaves may answer running last. -/
theorem Orderly.mono {journal : Journal} {last last' : Path → Prop}
    (horderly : Orderly isLeaf journal last) (hlast : ∀ path, last path → last' path) :
    Orderly isLeaf journal last' :=
  horderly.imp_right fun ⟨before, path, heq, hbefore, hpath⟩ =>
    ⟨before, path, heq, hbefore, hlast path hpath⟩

/-- What follows a running answer of a leaf must have no milestones of leaves. -/
theorem Orderly.append {first rest : Journal} {last last' : Path → Prop}
    (hfirst : Orderly isLeaf first last)
    (hlast : ∀ path, last path → leafMilestones isLeaf rest = [] ∧ last' path)
    (hrest : Orderly isLeaf rest last') : Orderly isLeaf (first ++ rest) last' := by
  unfold Orderly
  rw [leafMilestones_append]
  obtain hquiet | ⟨before, path, heq, hbefore, hpath⟩ := hfirst
  · obtain hquiet' | ⟨before, path, heq, hbefore, hpath⟩ := hrest
    · exact .inl fun milestone hmem => (List.mem_append.mp hmem).elim (hquiet _) (hquiet' _)
    · refine .inr ⟨leafMilestones isLeaf first ++ before, path, ?_, ?_, hpath⟩
      · rw [heq, List.append_assoc]
      · exact fun milestone hmem => (List.mem_append.mp hmem).elim (hquiet _) (hbefore _)
  · obtain ⟨hnone, hpath'⟩ := hlast path hpath
    exact .inr ⟨before, path, by rw [hnone, List.append_nil, heq], hbefore, hpath'⟩

/-- A child's orderly journal is orderly for the node, and the leaf that answers last is below the
child. -/
theorem Orderly.under {index : Nat} {journal : Journal} {last : Path → Prop}
    (horderly : Orderly (fun path => isLeaf (index :: path)) journal last) :
    Orderly isLeaf (journal.map (·.under index))
      fun path => ∃ rest, path = index :: rest ∧ last rest := by
  unfold Orderly
  rw [leafMilestones_map_under]
  obtain hquiet | ⟨before, path, heq, hbefore, hpath⟩ := horderly
  · refine .inl fun milestone hmem => ?_
    obtain ⟨inner, hinner, rfl⟩ := List.mem_map.mp hmem
    exact hquiet inner hinner
  · refine .inr ⟨before.map (·.under index), index :: path, ?_, ?_, path, rfl, hpath⟩
    · rw [heq, List.map_append]
      rfl
    · intro milestone hmem
      obtain ⟨inner, hinner, rfl⟩ := List.mem_map.mp hmem
      exact hbefore inner hinner

/-- In an orderly journal a running answer of a leaf is the last milestone of a leaf. -/
theorem Orderly.after_running {journal : Journal} {last : Path → Prop}
    (horderly : Orderly isLeaf journal last) {before after : List Milestone} {path : Path}
    (heq : leafMilestones isLeaf journal = before ++ ⟨path, some .running⟩ :: after) :
    after = [] ∧ last path := by
  obtain hquiet | ⟨quiet, path', heq', hquiet, hlast⟩ := horderly
  · exact absurd rfl (hquiet ⟨path, some .running⟩ (by simp [heq]))
  · rw [heq'] at heq
    obtain ⟨more, -, hmore⟩ | ⟨more, hbefore, hmore⟩ := List.append_eq_append_iff.mp heq
    · cases more with
      | nil =>
        cases hmore
        exact ⟨rfl, hlast⟩
      | cons => simp at hmore
    · cases more with
      | nil =>
        cases hmore
        exact ⟨rfl, hlast⟩
      | cons milestone more =>
        cases hmore
        exact absurd rfl (hquiet ⟨path, some .running⟩ (by simp [hbefore]))

end Leaves

end Journal

/-- What is reported of a node makes no milestone if the first and the last entry are none, and what
is passed on to the children makes none. -/
theorem milestones_control {kind : Kind κ} {children : List (Tree κ)} {first last : Entry}
    {below : Memories children} {relayed : Memories children × Journal}
    (hfirst : first.milestone? = none) (hlast : last.milestone? = none)
    (hrelayed : Journal.milestones relayed.2 = []) :
    Journal.milestones
      (first :: (if kind.relays then relayed else (below, [])).2 ++ [last]) = [] := by
  have hbelow : Journal.milestones (if kind.relays then relayed else (below, [])).2 = [] := by
    split
    · exact hrelayed
    · rfl
  simp [Journal.milestones_cons, hfirst, hlast, hbelow]

/-- What is reported of several children makes no milestone if what is reported of the first one and
of the others makes none. -/
theorem milestones_controlAll {index : Nat} {first rest : Journal}
    (hfirst : Journal.milestones first = []) (hrest : Journal.milestones rest = []) :
    Journal.milestones (first.map (·.under index) ++ rest) = [] := by
  rw [Journal.milestones_append, Journal.milestones_map_under, hfirst, hrest]
  rfl

mutual

/-- An abort executes nothing. -/
theorem milestones_abort (now : Nat) :
    (tree : Tree κ) → (memory : Memory tree) → Journal.milestones (memory.abort now).2 = []
  | ⟨name, kind, children⟩, .node cell below => by
    rw [Memory.abort_node]
    exact milestones_control rfl rfl (milestones_abortAll now 0 children below)

/-- Aborting several trees makes no milestone. -/
theorem milestones_abortAll (now index : Nat) :
    (trees : List (Tree κ)) → (memories : Memories trees) →
      Journal.milestones (memories.abort now index).2 = []
  | [], .nil => rfl
  | tree :: trees, .cons first rest =>
    milestones_controlAll (milestones_abort now tree first)
      (milestones_abortAll now (index + 1) trees rest)

end

/-- Aborting a child makes no milestone. -/
theorem milestones_abortChild (now : Nat) (trees : List (Tree κ)) (index : Nat)
    (memories : Memories trees) : Journal.milestones (memories.abortChild now index).2 = [] := by
  induction trees generalizing index with
  | nil =>
    cases memories
    cases index <;> rfl
  | cons tree trees ih =>
    cases memories with
    | cons first rest =>
      cases index with
      | zero => exact milestones_abort now tree first
      | succ index => exact ih index rest

mutual

/-- A reset executes nothing. -/
theorem milestones_reset (now : Nat) :
    (tree : Tree κ) → (memory : Memory tree) → Journal.milestones (memory.reset now).2 = []
  | ⟨name, kind, children⟩, .node cell below => by
    rw [Memory.reset_node]
    exact milestones_control rfl rfl (milestones_resetAll now 0 children below)

/-- Resetting several trees makes no milestone. -/
theorem milestones_resetAll (now index : Nat) :
    (trees : List (Tree κ)) → (memories : Memories trees) →
      Journal.milestones (memories.reset now index).2 = []
  | [], .nil => rfl
  | tree :: trees, .cons first rest =>
    milestones_controlAll (milestones_reset now tree first)
      (milestones_resetAll now (index + 1) trees rest)

end

/-- Resetting a child makes no milestone. -/
theorem milestones_resetChild (now : Nat) (trees : List (Tree κ)) (index : Nat)
    (memories : Memories trees) : Journal.milestones (memories.resetChild now index).2 = [] := by
  induction trees generalizing index with
  | nil =>
    cases memories
    cases index <;> rfl
  | cons tree trees ih =>
    cases memories with
    | cons first rest =>
      cases index with
      | zero => exact milestones_reset now tree first
      | succ index => exact ih index rest

end BehaviorTree
