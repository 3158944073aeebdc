import BehaviorTree.Proofs.Schedule.Simulation
import BehaviorTree.Proofs.Tree.Duality
import BehaviorTree.Rehearsal.Cast

/-!
# An inverted sequence of inverted children is a selector

Whatever is done with the two trees, both answer the same, their cursors are equal after every
operation, and the same happens to the children in the same order (`System.selector_dual`).
-/

namespace BehaviorTree

variable {κ : Type} [Application κ]

/-- The entry as it would be without the root, its child and the inverters above the children. -/
def Entry.withoutInverters? (entry : Entry) : Option Entry :=
  match entry.path with
  | 0 :: index :: 0 :: path => some { entry with path := index :: path }
  | _ => none

section

variable (name outer inner : String) (label : Tree κ → String) (children : List (Tree κ))

/-! ## The simulation -/

variable {name outer inner label children}

/-- The inverters change nothing about the calls that are awaited. -/
theorem awaits_of_selectorRuns {run other : Run} (hruns : SelectorRuns run other) (call : Call) :
    run.awaits call = other.awaits call := by
  obtain ⟨mark, index, inside, rfl, rfl⟩ := hruns
  simp only [Run.awaits]

/-- The inverters change nothing about the timers that are waited for. -/
theorem timers_of_selectorRuns {run other : Run} (hruns : SelectorRuns run other) :
    run.timers = other.timers := by
  obtain ⟨mark, index, inside, rfl, rfl⟩ := hruns
  simp only [Run.timers]

/-- Suspended executions of both trees correspond after a call. -/
theorem notify_of_selectorRuns {run other : Run} (hruns : SelectorRuns run other) (call : Call) :
    SelectorRuns (run.notify call) (other.notify call) := by
  obtain ⟨mark, index, inside, rfl, rfl⟩ := hruns
  exact ⟨mark, index, inside.notify call, by simp only [Run.notify], by simp only [Run.notify]⟩

variable (name outer inner label children)

/-- The inverted sequence simulates the selector. -/
def selectorSimulation (binding : Binding) :
    Simulation (selectorOf name children) (invertedSequenceOf outer inner label children) where
  toLikeness := selectorLikeness name outer inner label binding children
  runs := SelectorRuns
  stands := fun run otherRun memory otherMemory =>
    (selectorLikeness name outer inner label binding children).memories memory otherMemory ∧
      Option.Rel SelectorRuns run otherRun
  front := fun hstands => relates_selector hstands.1 hstands.2
  front_stands := by
    intro memory otherMemory run otherRun hstands world _
    have hrelates := relates_selector hstands.1 hstands.2 world
    exact ⟨hrelates.memory, hrelates.result.run?⟩
  task := fun hmemory hpath => relates_inside_selector hmemory hpath
  task_stands := fun hstands hpath run world =>
    ⟨(relates_inside_selector hstands.1 hpath run world).memory, hstands.2⟩
  notify := notify_of_selectorRuns
  notify_stands := by
    rintro memory otherMemory run otherRun ⟨hmemory, hruns⟩ call
    refine ⟨hmemory, ?_⟩
    cases hruns with
    | none => exact .none
    | some hruns => exact .some (notify_of_selectorRuns hruns call)
  awaits_eq := awaits_of_selectorRuns
  timers_eq := timers_of_selectorRuns
  abort := controls_selector_abort
  abort_stands := fun hstands now => ⟨(controls_selector_abort hstands.1 now).memory, .none⟩
  reset := controls_selector_reset
  reset_stands := fun hstands now => ⟨(controls_selector_reset hstands.1 now).memory, .none⟩
  binding_eq := by
    rintro memory other ⟨middle, ⟨cursor, below, rfl, rfl⟩, rfl⟩
    rfl

/-- The selector and the inverted sequence correspond even if an execution fails. -/
theorem isSteady_selectorSimulation (binding : Binding) :
    (selectorSimulation name outer inner label children binding).IsSteady :=
  fun _ _ _ _ hmemory hruns => ⟨hmemory, hruns⟩

/-- A node that has never run has a memory like that in the inverted sequence. -/
theorem fresh_inverted (binding : Binding) (trees : List (Tree κ)) :
    Memories.fresh binding (trees.map fun tree => tree.inverted (label tree)) =
      (Memories.fresh binding trees).inverted label (inverterCell binding) := by
  induction trees with
  | nil => rfl
  | cons tree trees ih =>
    let first := (Memory.fresh binding tree).inverted (label tree) (inverterCell binding)
    exact congrArg (Memories.cons first) ih

/-- Binding children to a shared context binds the inverters above them. -/
theorem bind_inverted (now id index : Nat) (binding : Binding) {trees : List (Tree κ)}
    (memories : Memories trees) :
    ((memories.inverted label (inverterCell binding)).bind now id (fun _ => false) index).1 =
      (memories.bind now id (fun _ => false) index).1.inverted label
        (inverterCell (.shared id)) := by
  induction trees generalizing index with
  | nil =>
    cases memories
    rfl
  | cons tree trees ih =>
    cases memories with
    | cons first rest =>
      let bound := (first.bind now id fun _ => false).1.inverted (label tree)
        (inverterCell (.shared id))
      exact congrArg (Memories.cons bound) (ih (index + 1) rest)

/-- The first child comes first in both trees, whatever the memory of the children. -/
theorem memories_start (binding : Binding) (below : Memories children)
    {others : Memories (children.map fun child => child.inverted (label child))}
    (hothers : others = below.inverted label (inverterCell binding)) :
    (selectorLikeness name outer inner label binding children).memories
      (.node ⟨(0 : Nat), binding⟩ below)
      ((.node ⟨(0 : Nat), binding⟩ others : Memory ⟨inner, .sequence, _⟩).inverted outer
        (inverterCell binding)) := by
  subst hothers
  exact ⟨_, ⟨0, below, rfl, rfl⟩, rfl⟩

/-- Both trees begin in systems that are alike. -/
theorem alike_start (start : Start) :
    (selectorSimulation name outer inner label children start.binding).Alike True
      (start.system (selectorOf name children))
      (start.system (invertedSequenceOf outer inner label children)) := by
  have hfresh := fun binding => fresh_inverted label binding children
  cases start with
  | bound context =>
    have hmemories := memories_start name outer inner label children _ _ (hfresh (.shared 0))
    exact ⟨hmemories, rfl, .none, rfl, .nil, rfl, fun _ => ⟨hmemories, .none⟩⟩
  | unbound context =>
    have hmemories := memories_start name outer inner label children _ _ (hfresh (.own {}))
    exact ⟨hmemories, rfl, .none, rfl, .nil, rfl, fun _ => ⟨hmemories, .none⟩⟩
  | begun context =>
    have hbound := bind_inverted label 0 0 0 (.own {}) (Memories.fresh (.own {}) children)
    rw [← hfresh] at hbound
    have hmemories := memories_start name outer inner label children _ _ hbound
    exact ⟨hmemories, rfl, .none, rfl, .nil, rfl, fun _ => ⟨hmemories, .none⟩⟩

omit [Application κ] in
/-- Inverters do not make the span of the children smaller. -/
theorem spans_le_spans_inverted (trees : List (Tree κ)) :
    Tree.spans trees ≤ Tree.spans (trees.map fun tree => tree.inverted (label tree)) := by
  induction trees with
  | nil => exact Nat.le_refl _
  | cons tree trees ih =>
    have hspan : (tree.inverted (label tree)).span = 4 * (tree.span + 0 + 1) := rfl
    rw [List.map_cons, Tree.spans, Tree.spans, hspan]
    omega

omit [Application κ] in
/-- The inverted sequence has at least the span of the selector. -/
theorem span_selectorOf_le :
    (selectorOf name children).span ≤ (invertedSequenceOf outer inner label children).span := by
  have hspans := spans_le_spans_inverted label children
  have hselector : (selectorOf name children).span =
      (children.length + 2) * (Tree.spans children + 1) := rfl
  have hsequence : (invertedSequenceOf outer inner label children).span =
      4 * (((children.map fun child => child.inverted (label child)).length + 2) *
        (Tree.spans (children.map fun child => child.inverted (label child)) + 1) + 0 + 1) := rfl
  rw [hselector, hsequence, List.length_map]
  have hchain : (children.length + 2) * (Tree.spans children + 1) ≤ (children.length + 2) *
      (Tree.spans (children.map fun child => child.inverted (label child)) + 1) :=
    Nat.mul_le_mul_left _ (Nat.succ_le_succ hspans)
  omega

/-! ## What is seen of both trees -/

/-- What is seen of an operation on the selector and on the inverted sequence. -/
structure SameForChildren
    (step : Response × System (selectorOf name children))
    (copy : Response × System (invertedSequenceOf outer inner label children)) : Prop where
  /-- The answers are the same. -/
  result_eq : step.1.result = copy.1.result
  /-- The contexts are the same. -/
  context_eq : step.1.context = copy.1.context
  /-- The cursors are equal. -/
  cursor_eq : step.2.memory.gaugeAt [] = copy.2.memory.gaugeAt [0]
  /-- The same happens at the children and below them. -/
  children_eq : step.1.journal.filterMap Entry.below? =
    copy.1.journal.filterMap Entry.withoutInverters?

/-- An entry is seen without the root and its child, and then without the inverters. -/
theorem withoutInverters?_eq (entry : Entry) :
    entry.withoutInverters? = entry.inside?.bind Entry.without? := by
  obtain ⟨time, path, happening⟩ := entry
  match path with
  | [] => rfl
  | [0] => rfl
  | 0 :: index :: [] => rfl
  | 0 :: index :: 0 :: path => rfl
  | 0 :: index :: (_ + 1) :: path => rfl
  | (_ + 1) :: path => rfl

variable {name outer inner label children}

/-- What both systems show is the same for the children. -/
theorem SameForChildren.of_sees {binding : Binding} {intact : Prop}
    {step : Response × System (selectorOf name children)}
    {copy : Response × System (invertedSequenceOf outer inner label children)}
    (hsees : (selectorSimulation name outer inner label children binding).Sees intact step copy) :
    SameForChildren name outer inner label children step copy where
  result_eq := hsees.response.result_eq
  context_eq := hsees.response.context_eq
  cursor_eq := by
    have hmemory : (selectorLikeness name outer inner label binding children).memories
        step.2.memory copy.2.memory := hsees.alike.memory
    obtain ⟨middle, ⟨cursor, below, hstep, rfl⟩, hcopy⟩ := hmemory
    rw [hstep, hcopy]
    rfl
  children_eq := by
    have hjournal : step.1.journal.filterMap Entry.below? =
        copy.1.journal.filterMap fun entry => entry.inside?.bind Entry.without? :=
      hsees.response.journal
    rw [hjournal]
    exact List.filterMap_congr fun entry _ => (withoutInverters?_eq entry).symm

end

/-- A sequence of inverted children, itself inverted, does what the selector of these children does.
Whatever is done with both trees, they respond in the same way, their cursors are equal after every
operation, and the same happens to the children in the same order. This is so within any bound on
the rounds, and within those of the two trees if that of the selector is not reached. -/
theorem System.selector_dual (name outer inner : String) (label : Tree κ → String)
    (children : List (Tree κ)) (start : Start) (operations : List Operation) :
    let selector := start.system (selectorOf name children)
    let dual := start.system (invertedSequenceOf outer inner label children)
    (∀ patience, List.Forall₂ (SameForChildren name outer inner label children)
        (selector.historyWithin patience operations) (dual.historyWithin patience operations)) ∧
      (selector.IsPatient operations →
        List.Forall₂ (SameForChildren name outer inner label children)
          (selector.history operations) (dual.history operations)) := by
  intro selector dual
  have halike := alike_start name outer inner label children start
  have hsteady := isSteady_selectorSimulation name outer inner label children start.binding
  have hidle := start.front_eq_none (selectorOf name children)
  constructor
  · intro patience
    exact (halike.historyWithin hsteady hidle patience operations).imp fun _ _ => .of_sees
  · intro hpatient
    have hspan := span_selectorOf_le name outer inner label children
    exact (halike.history hsteady hidle hpatient hspan).imp fun _ _ => .of_sees

/-- Two leaves that follow scripts, the second of which takes its time. -/
def scriptedLeaves : List (Tree Performer) :=
  [⟨"A", .custom (.scripted "R,F" ""), []⟩, ⟨"B", .custom (.scripted "F@20,R@10,S" ""), []⟩]

/-- The selector of these leaves is suspended at each of them, aborted at the first and reset at the
second. -/
theorem System.selector_dual_scriptedLeaves :
    let selector := (Start.begun {}).system (selectorOf "Selector" scriptedLeaves)
    let dual := (Start.begun {}).system
      (invertedSequenceOf "Outer" "Sequence" (fun child => "Not" ++ child.name) scriptedLeaves)
    let operations := [.execute, .abort, .execute, .execute, .reset, .execute]
    selector.IsPatient operations ∧
      (selector.history operations).map (fun step => step.1.result.bind Except.toOption) =
        [some .running, none, some .failure, some .running, none, some .success] ∧
      List.Forall₂ (SameForChildren "Selector" "Outer" "Sequence" (fun child => "Not" ++ child.name)
        scriptedLeaves) (selector.history operations) (dual.history operations) := by
  intro selector dual operations
  have htimeless : ∀ duration, Operation.pass duration ∉ operations := by
    intro duration hmem
    simp [operations] at hmem
  have hended : ∀ step ∈ selector.history operations, step.1.isEndless = false := by
    decide +kernel
  have hpatient : selector.IsPatient operations := isPatient_of_ended htimeless hended
  refine ⟨hpatient, by decide +kernel, ?_⟩
  exact (selector_dual "Selector" "Outer" "Sequence" (fun child => "Not" ++ child.name)
    scriptedLeaves (.begun {}) operations).2 hpatient

end BehaviorTree
