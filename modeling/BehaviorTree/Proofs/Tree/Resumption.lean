import BehaviorTree.Proofs.Journal.Milestones
import BehaviorTree.Proofs.Tree.Answers
import BehaviorTree.Proofs.Tree.Resting

/-!
# A turn of a sequential tree

A turn keeps a sequential tree in order, whatever it meets (`sound_advance`). A node that answers
success or failure is at rest with its whole subtree. A leaf that answers running does so last,
everything above it answers running at once, and the tree points along the path to that leaf. And a
tree that points along a path begins its next execution with the leaf there.
-/

namespace BehaviorTree

open Journal

variable {κ : Type} [Application κ]

/-- Whether there is a leaf at a position. -/
def Tree.isLeafAt (tree : Tree κ) (path : Path) : Bool := (tree.at? path).any (·.kind.isLeaf)

/-- Whether there is a leaf at a position inside the child with an index. -/
def Tree.isLeafIn (trees : List (Tree κ)) (index : Nat) (path : Path) : Bool :=
  (Tree.below? trees index path).any (·.kind.isLeaf)

/-- An answer as a milestone. -/
def Answer.milestone (answer : Answer κ) : Milestone := ⟨answer.path, some answer.status⟩

/-! ## Stances -/

/-- What can hold of a tree or of one among several trees, whose memories are `μ`. -/
structure Stance (μ : Type) where
  /-- Nothing is left of an execution that has ended. -/
  atRest : μ → Prop
  /-- A new execution can begin. -/
  ready : μ → Prop
  /-- An execution is suspended. -/
  suspended : Run → μ → Prop
  /-- A leaf at a position is the next one to be executed. -/
  points : Path → μ → Prop
  /-- The positions at which there are leaves. -/
  isLeaf : Path → Bool

/-- The stance of a tree. -/
def Tree.stance (tree : Tree κ) : Stance (Memory tree) where
  atRest := Memory.AtRest
  ready := Memory.IsReady
  suspended := Memory.IsSuspended
  points := Memory.PointsAlong
  isLeaf := tree.isLeafAt

/-- The stance of the child with an index, the others being at rest. -/
def Tree.stanceOf (trees : List (Tree κ)) (index : Nat) : Stance (Memories trees) where
  atRest := Memories.AtRest
  ready := Memories.IsReadyAt index
  suspended := Memories.IsSuspendedAt index
  points := Memories.PointAlong index
  isLeaf := Tree.isLeafIn trees index

namespace Stance

variable {μ : Type} (stance : Stance μ)

/-- What has to hold for an execution to begin or to be taken up. -/
def Before (memory : μ) : Option Run → Prop
  | none => stance.ready memory
  | some run => stance.suspended run memory

/-- What holds after a stretch of execution in which some answers were given, if `waits` more waits
could end when it began. -/
structure Sound (waits : Nat) (progress : Progress Outcome μ) (answers : List (Answer κ)) :
    Prop where
  /-- No wait is given back. -/
  waits_le : progress.world.waitsLeft ≤ waits
  /-- No task is started. -/
  spawned_eq : progress.spawned = []
  /-- After success or failure nothing is left of the execution. -/
  atRest : ∀ status, progress.result = .answered status → status.isTerminal →
    stance.atRest progress.memory
  /-- After the answer running a new execution can begin. -/
  ready : progress.result = .answered .running → stance.ready progress.memory
  /-- An execution that waits leaves the memory suspended. -/
  suspended : ∀ run, progress.result = .waiting run → stance.suspended run progress.memory
  /-- No leaf answers running but the last one, which the memory points at. -/
  orderly : Orderly stance.isLeaf progress.journal fun path =>
    progress.result = .answered .running ∧ stance.points path progress.memory
  /-- The answers are those that the journal tells of. -/
  reported : answers.map Answer.milestone =
    (milestones progress.journal).filter (·.answer.isSome)
  /-- Whoever answers with success or failure keeps nothing of the execution. -/
  answers_atRest : ∀ answer ∈ answers, answer.status.isTerminal → answer.memory.AtRest

/-- An execution that begins while the memory points along a path begins with the leaf there. -/
def Resumes (run : Option Run) (memory : μ) (journal : Journal) : Prop :=
  run = none → ∀ path, stance.points path memory →
    (leafMilestones stance.isLeaf journal).head? = some ⟨path, none⟩

variable {stance}

/-- A stretch is in good order after one that passes no milestone. -/
theorem Sound.after_quiet {waits waits' : Nat} {progress : Progress Outcome μ}
    {answers : List (Answer κ)} (hsound : stance.Sound waits' progress answers)
    (hwaits : waits' ≤ waits) {journal : Journal} (hquiet : milestones journal = [])
    (again : Bool) : stance.Sound waits (progress.after journal [] again) answers where
  waits_le := Nat.le_trans hsound.waits_le hwaits
  spawned_eq := hsound.spawned_eq
  atRest := hsound.atRest
  ready := hsound.ready
  suspended := hsound.suspended
  orderly :=
    (orderly_of_milestones hquiet fun _ => False).append (fun _ => False.elim) hsound.orderly
  reported := by rw [hsound.reported, Progress.journal_after, milestones_append, hquiet]; rfl
  answers_atRest := hsound.answers_atRest

end Stance

/-- The answers among milestones are the same seen from the parent. -/
theorem answered_map_under (index : Nat) (milestones : List Milestone) :
    (milestones.map (·.under index)).filter (·.answer.isSome) =
      (milestones.filter (·.answer.isSome)).map (·.under index) := by
  rw [List.filter_map]
  rfl

section Node

variable {name : String} {kind : Kind κ} {children : List (Tree κ)}

/-- A stretch of a child's execution before one of the node. A running answer of the child has to be
passed on at once, with the focus on the child. -/
theorem Stance.Sound.after_child {index waits : Nat} {child : Progress Outcome (Memories children)}
    {rest : Progress Outcome (Memory ⟨name, kind, children⟩)} {inner outer : List (Answer κ)}
    (hchild : (Tree.stanceOf children index).Sound waits child inner)
    (hrest : (Tree.stance ⟨name, kind, children⟩).Sound child.world.waitsLeft rest outer)
    (hyields : child.result = .answered .running →
      milestones rest.journal = [] ∧ rest.result = .answered .running ∧
        ∀ path, child.memory.PointAlong index path → rest.memory.PointsAlong (index :: path))
    (again : Bool) :
    (Tree.stance ⟨name, kind, children⟩).Sound waits
      (rest.after (child.under index).journal (child.under index).spawned again)
      (inner.map (·.under index) ++ outer) where
  waits_le := Nat.le_trans hrest.waits_le hchild.waits_le
  spawned_eq := by
    rw [Progress.spawned_after, Progress.spawned_under, hchild.spawned_eq, hrest.spawned_eq]
    rfl
  atRest := hrest.atRest
  ready := hrest.ready
  suspended := hrest.suspended
  orderly := by
    have hunder : Orderly (Tree.isLeafAt ⟨name, kind, children⟩) (child.under index).journal _ :=
      Orderly.under hchild.orderly
    refine hunder.append ?_ hrest.orderly
    rintro _ ⟨path, rfl, hrunning, hpoints⟩
    obtain ⟨hquiet, hresult, hpoint⟩ := hyields hrunning
    exact ⟨leafMilestones_of_milestones hquiet, hresult, hpoint path hpoints⟩
  reported := by
    have hinner : (inner.map (·.under index)).map Answer.milestone =
        (inner.map Answer.milestone).map (·.under index) := by
      rw [List.map_map, List.map_map]
      rfl
    rw [List.map_append, hinner, hchild.reported, hrest.reported, Progress.journal_after,
      Progress.journal_under, milestones_append, milestones_map_under, List.filter_append,
      answered_map_under]
  answers_atRest := by
    intro answer hmem hterminal
    obtain hmem | hmem := List.mem_append.mp hmem
    · obtain ⟨answer, hanswer, rfl⟩ := List.mem_map.mp hmem
      exact hchild.answers_atRest answer hanswer hterminal
    · exact hrest.answers_atRest answer hmem hterminal

/-- What a node may get, with its cell and the memories of its children at that moment. -/
def Poised (name : String) (kind : Kind κ) (children : List (Tree κ)) (reply : Reply)
    (cell : Cell kind.State) (below : Memories children) : Prop :=
  match reply with
  | .signal signal =>
    (kind.discipline children.length).Hears signal ∧
      (signal = .started → (kind.discipline children.length).sane cell.state) ∧
      match (kind.discipline children.length).standing? cell.state signal with
      | some index => below.IsReadyAt index
      | none => below.AtRest
  | .stop (.waiting run) => (Memory.node cell below : Memory ⟨name, kind, children⟩).IsSuspended run
  | .stop (.failed _) => True
  | .stop (.answered _) => False

/-- A child that has been advanced in good order leaves its parent poised. -/
theorem Stance.Sound.poised {index waits mark : Nat} {child : Progress Outcome (Memories children)}
    {answers : List (Answer κ)} (hchild : (Tree.stanceOf children index).Sound waits child answers)
    (hindex : index = (kind.discipline children.length).childOf mark)
    (hhears : ∀ status, (kind.discipline children.length).Hears (.answered mark status))
    (cell : Cell kind.State) :
    Poised name kind children (replyOfChild mark index child.result) cell child.memory := by
  subst hindex
  cases hresult : child.result with
  | answered status =>
    refine ⟨hhears status, nofun, ?_⟩
    cases status with
    | running => exact hchild.ready hresult
    | success => exact hchild.atRest _ hresult rfl
    | failure => exact hchild.atRest _ hresult rfl
  | waiting run => exact ⟨rfl, hhears, hchild.suspended run hresult⟩
  | failed fault => trivial

/-- The progress of a driven node as one of its tree. -/
def Progress.ofNode (name : String) (kind : Kind κ) (children : List (Tree κ))
    (progress : Progress Outcome (Cell kind.State × Memories children)) :
    Progress Outcome (Memory ⟨name, kind, children⟩) :=
  progress.map id fun memory => .node memory.1 memory.2

/-- What went before a driven node went before its tree. -/
theorem Progress.ofNode_after (journal : Journal) (spawned : List Spawn) (again : Bool)
    (progress : Progress Outcome (Cell kind.State × Memories children)) :
    Progress.ofNode name kind children (progress.after journal spawned again) =
      (Progress.ofNode name kind children progress).after journal spawned again := rfl

/-- A reply to one child that is a signal reports the answer of the child. -/
theorem exists_of_replyOfChild_eq_signal {mark index : Nat} {outcome : Outcome} {signal : Signal}
    (hsignal : replyOfChild mark index outcome = .signal signal) :
    ∃ status, signal = .answered mark status := by
  cases outcome with
  | answered status =>
    cases hsignal
    exact ⟨status, rfl⟩
  | waiting run => cases hsignal
  | failed fault => cases hsignal

/-- A node that is poised to stop does so in good order. -/
theorem sound_stop {outcome : Outcome} {cell : Cell kind.State} {below : Memories children}
    (hpoised : Poised name kind children (.stop outcome) cell below) (world : World) :
    (Tree.stance ⟨name, kind, children⟩).Sound world.waitsLeft
      (Progress.ofNode name kind children { result := outcome, memory := (cell, below), world })
      ([] : List (Answer κ)) where
  waits_le := Nat.le_refl _
  spawned_eq := rfl
  atRest := by
    rintro status rfl
    exact hpoised.elim
  ready := by
    rintro rfl
    exact hpoised.elim
  suspended := by
    rintro run rfl
    exact hpoised
  orderly := orderly_of_milestones rfl _
  reported := rfl
  answers_atRest := fun _ hmem => absurd hmem List.not_mem_nil

/-- The move of a node of a sequential kind keeps to the discipline. -/
theorem Poised.keeps {signal : Signal} {cell : Cell kind.State} {below : Memories children}
    (hpoised : Poised name kind children (.signal signal) cell below)
    (hkind : kind.IsSequential children.length) (world : World) :
    (kind.discipline children.length).Keeps children.length cell.state world.waitsLeft signal
      (kind.respond ⟨name, children.length, world.now, world.context cell.binding⟩ cell.state
        signal) :=
  Kind.keeps_respond ⟨name, children.length, world.now, world.context cell.binding⟩ hkind _
    hpoised.1 hpoised.2.1

/-- A node that hears of a running child passes that on at once, with the focus on the child. -/
theorem drive_yields (hkind : kind.IsSequential children.length) {mark fuel : Nat}
    (hfuel : 0 < fuel) {cell : Cell kind.State} {below : Memories children}
    (hpoised : Poised name kind children (.signal (.answered mark .running)) cell below)
    (world : World) :
    let driven := Progress.ofNode name kind children ((crewOf children).drive name kind
      children.length fuel (.signal (.answered mark .running)) cell below world)
    milestones driven.journal = [] ∧ driven.result = .answered .running ∧
      ∀ path, below.PointAlong ((kind.discipline children.length).childOf mark) path →
        driven.memory.PointsAlong ((kind.discipline children.length).childOf mark :: path) := by
  obtain ⟨fuel, rfl⟩ := Nat.exists_eq_succ_of_ne_zero (Nat.ne_of_gt hfuel)
  have hkeeps := hpoised.keeps hkind world
  dsimp only [Progress.ofNode]
  rw [Crew.drive_signal]
  generalize kind.respond _ cell.state _ = move at hkeeps ⊢
  cases hkeeps with
  | yields hsane hfocus =>
    simp only [Move.finish, Crew.serve]
    rw [Crew.drive_stop]
    refine ⟨?_, rfl, fun path hpoints => ⟨hfocus, hpoints⟩⟩
    simp
  | free hstanding hfrees => cases hstanding

/-- A node goes on after a stretch of a child's execution. -/
theorem Stance.Sound.go_on {index waits mark fuel : Nat}
    {child : Progress Outcome (Memories children)} {inner outer : List (Answer κ)}
    (hchild : (Tree.stanceOf children index).Sound waits child inner)
    (hkind : kind.IsSequential children.length)
    (hindex : index = (kind.discipline children.length).childOf mark)
    (hhears : ∀ status, (kind.discipline children.length).Hears (.answered mark status))
    (hfuel : 0 < fuel) {cell : Cell kind.State}
    (hrest : (Tree.stance ⟨name, kind, children⟩).Sound child.world.waitsLeft
      (Progress.ofNode name kind children ((crewOf children).drive name kind children.length fuel
        (replyOfChild mark index child.result) cell child.memory child.world)) outer)
    (again : Bool) :
    (Tree.stance ⟨name, kind, children⟩).Sound waits
      ((Progress.ofNode name kind children ((crewOf children).drive name kind children.length fuel
        (replyOfChild mark index child.result) cell child.memory child.world)).after
          (child.under index).journal (child.under index).spawned again)
      (inner.map (·.under index) ++ outer) := by
  refine hchild.after_child hrest (fun hrunning => ?_) again
  have hpoised : Poised name kind children _ cell child.memory :=
    hchild.poised hindex hhears cell
  rw [hrunning] at hpoised ⊢
  subst hindex
  exact drive_yields hkind hfuel hpoised child.world

/-- A node ends its execution in good order if it is at rest, or ready for another one. -/
theorem sound_finish {status : Status} {cell : Cell kind.State} {below : Memories children}
    (hrest : status.isTerminal → kind.AtRest cell.state ∧ below.AtRest)
    (hready : status = .running →
      (Memory.node cell below : Memory ⟨name, kind, children⟩).IsReady) (world : World) :
    (Tree.stance ⟨name, kind, children⟩).Sound world.waitsLeft
      (Progress.ofNode name kind children
        { result := .answered status, memory := (cell, below), world }) ([] : List (Answer κ)) where
  waits_le := Nat.le_refl _
  spawned_eq := rfl
  atRest := by
    rintro _ ⟨⟩ hterminal
    exact hrest hterminal
  ready := by
    rintro ⟨⟩
    exact hready rfl
  suspended := nofun
  orderly := orderly_of_milestones rfl _
  reported := rfl
  answers_atRest := fun _ hmem => absurd hmem List.not_mem_nil

/-- Children that are to be advanced leave things in order. -/
def Heeds (children : List (Tree κ)) : Prop :=
  ∀ index run memories world, (Tree.stanceOf children index).Before memories run →
    world.waitsLeft ≤ turnLength →
      let progress := advanceChild children index run memories world
      (Tree.stanceOf children index).Sound world.waitsLeft progress
          (answersChild children index run memories world) ∧
        (Tree.stanceOf children index).Resumes run memories progress.journal

/-- A node that is poised for a reply is driven in good order, if the fuel is enough. -/
def Drives (name : String) (kind : Kind κ) (children : List (Tree κ)) (fuel : Nat) : Prop :=
  ∀ reply cell below world, Poised name kind children reply cell below →
    (∀ signal, reply = .signal signal →
      (kind.discipline children.length).need world.waitsLeft signal ≤ fuel) →
    world.waitsLeft ≤ turnLength →
      (Tree.stance ⟨name, kind, children⟩).Sound world.waitsLeft
        (Progress.ofNode name kind children
          ((crewOf children).drive name kind children.length fuel reply cell below world))
        ((crewOf children).driveAnswers (answersChild children) name kind children.length fuel reply
          cell below world)

/-- A request is served in good order, and so is all that follows. -/
def Serves (name : String) (kind : Kind κ) (children : List (Tree κ)) (fuel : Nat)
    (request : Request) (cell : Cell kind.State) (below : Memories children) (world : World) :
    Prop :=
  let served := (crewOf children).serve children.length request below world
  (Tree.stance ⟨name, kind, children⟩).Sound world.waitsLeft
    ((Progress.ofNode name kind children ((crewOf children).drive name kind children.length fuel
      served.result cell served.memory served.world)).after served.journal served.spawned
        served.again)
    (Crew.serveAnswers (answersChild children) request below world ++
      (crewOf children).driveAnswers (answersChild children) name kind children.length fuel
        served.result cell served.memory served.world)

/-- A node that finishes in order is served in good order. -/
theorem serves_finish {status : Status} {cell : Cell kind.State} {below : Memories children}
    (hrest : status.isTerminal → kind.AtRest cell.state ∧ below.AtRest)
    (hready : status = .running →
      (Memory.node cell below : Memory ⟨name, kind, children⟩).IsReady) (fuel : Nat)
    (world : World) : Serves name kind children fuel (.finish status) cell below world := by
  simp only [Serves, Crew.serve, Crew.serveAnswers]
  rw [Crew.drive_stop, Crew.driveAnswers_stop]
  exact sound_finish hrest hready world

/-- A node that asks for another tick is served in good order if it is ready for one. -/
theorem serves_yield {cell : Cell kind.State} {below : Memories children}
    (hready : (Memory.node cell below : Memory ⟨name, kind, children⟩).IsReady) (fuel : Nat)
    (world : World) : Serves name kind children fuel (.finish .running) cell below world := by
  refine serves_finish (fun hterminal => ?_) (fun _ => hready) fuel world
  cases hterminal

/-- A node that crashes is served in good order. -/
theorem serves_crash (fuel : Nat) (cell : Cell kind.State) (below : Memories children)
    (world : World) : Serves name kind children fuel .crash cell below world := by
  simp only [Serves, Crew.serve, Crew.serveAnswers]
  rw [Crew.drive_stop, Crew.driveAnswers_stop]
  have hpoised : Poised name kind children (.stop (.failed .crashed)) cell below := trivial
  exact sound_stop hpoised world

/-- A node that runs a child is served in good order if the child is ready. -/
theorem serves_run {mark fuel : Nat} (hdrives : Drives name kind children fuel)
    (hkind : kind.IsSequential children.length) (hheeds : Heeds children)
    {below : Memories children} {world : World}
    (hhears : ∀ status, (kind.discipline children.length).Hears (.answered mark status))
    (hneed : ∀ left ≤ world.waitsLeft, ∀ status,
      (kind.discipline children.length).need left (.answered mark status) ≤ fuel)
    (hready : below.IsReadyAt ((kind.discipline children.length).childOf mark))
    (hwaits : world.waitsLeft ≤ turnLength) (cell : Cell kind.State) :
    Serves name kind children fuel
      (.run mark ((kind.discipline children.length).childOf mark)) cell below world := by
  have hchild := (hheeds _ none below world hready hwaits).1
  have hfuel : 0 < fuel := Nat.lt_of_lt_of_le (kind.need_pos _ _ _)
    (hneed world.waitsLeft (Nat.le_refl _) .running)
  refine hchild.go_on hkind rfl hhears hfuel ?_ _
  refine hdrives _ cell _ _ (hchild.poised rfl hhears cell) ?_
    (Nat.le_trans hchild.waits_le hwaits)
  intro signal hsignal
  obtain ⟨status, rfl⟩ := exists_of_replyOfChild_eq_signal hsignal
  exact hneed _ hchild.waits_le status

/-- A node that sleeps is attended to in good order. -/
theorem sound_attend {mark fuel : Nat} (hdrives : Drives name kind children fuel) {timer : Timer}
    {below : Memories children} {world : World}
    (hhears : (kind.discipline children.length).Hears (.woken mark))
    (hneed : 0 < world.waitsLeft →
      (kind.discipline children.length).need (world.waitsLeft - 1) (.woken mark) ≤ fuel)
    (hrest : below.AtRest) (hwaits : world.waitsLeft ≤ turnLength) (cell : Cell kind.State) :
    let attended := attend (.sleep mark timer) below world
    (Tree.stance ⟨name, kind, children⟩).Sound world.waitsLeft
      ((Progress.ofNode name kind children ((crewOf children).drive name kind children.length fuel
        attended.result cell attended.memory attended.world)).after attended.journal
          attended.spawned attended.again)
      ((crewOf children).driveAnswers (answersChild children) name kind children.length fuel
        attended.result cell attended.memory attended.world) := by
  obtain ⟨hleft, hattend⟩ | ⟨timer, world', hwaits', hattend⟩ := attend_sleep mark timer below world
  · rw [hattend]
    refine Stance.Sound.after_quiet (hdrives (.signal (.woken mark)) cell below world.endWait
      ⟨hhears, nofun, hrest⟩ ?_ ?_) (Nat.sub_le _ _) rfl _
    · rintro _ ⟨⟩
      exact hneed hleft
    · exact Nat.le_trans (Nat.sub_le _ _) hwaits
  · rw [hattend]
    refine Stance.Sound.after_quiet (hdrives (.stop (.waiting (.paused (.sleep mark timer))))
      cell below world' ⟨hhears, hrest⟩ nofun ?_) (Nat.le_of_eq hwaits') rfl _
    exact hwaits'.symm ▸ hwaits

/-- A node that resets its child is served in good order. -/
theorem serves_resetChild {fuel : Nat} (hdrives : Drives name kind children fuel)
    (hchildren : Tree.AreSequential children) {below : Memories children} {world : World}
    (hhears : (kind.discipline children.length).Hears .childReset)
    (hneed : (kind.discipline children.length).need world.waitsLeft .childReset ≤ fuel)
    (hrest : below.AtRest) (hwaits : world.waitsLeft ≤ turnLength) (cell : Cell kind.State) :
    Serves name kind children fuel (.resetChild 0) cell below world := by
  refine Stance.Sound.after_quiet (hdrives (.signal .childReset) cell
    (below.resetChild world.now 0).1 world
    ⟨hhears, nofun, hrest.resetChild world.now hchildren 0⟩ ?_ hwaits) (Nat.le_refl _) ?_ _
  · rintro _ ⟨⟩
    exact hneed
  · exact (milestones_map_under 0 _).trans
      (congrArg _ (milestones_resetChild world.now children 0 below))

/-- A node of a sequential kind serves what it asks for in good order. -/
theorem serves_respond {fuel : Nat} (hdrives : Drives name kind children fuel)
    (hkind : kind.IsSequential children.length) (hchildren : Tree.AreSequential children)
    (hheeds : Heeds children) {signal : Signal} {cell : Cell kind.State}
    {below : Memories children} (hpoised : Poised name kind children (.signal signal) cell below)
    {move : Move kind.State} {world : World}
    (hkeeps : (kind.discipline children.length).Keeps children.length cell.state world.waitsLeft
      signal move)
    (hneeds : (kind.discipline children.length).need world.waitsLeft signal ≤ fuel + 1)
    (hwaits : world.waitsLeft ≤ turnLength) (binding : Binding) :
    Serves name kind children fuel move.request ⟨move.state, binding⟩ below world := by
  have hstands := hpoised.2.2
  cases hkeeps with
  | resumes hfocus hhears hneed =>
    simp only [Discipline.standing?, hfocus] at hstands
    refine serves_run hdrives hkind hheeds hhears (fun left hleft status => ?_) hstands hwaits _
    exact Nat.le_of_lt_succ (Nat.lt_of_lt_of_le (hneed left hleft status) hneeds)
  | yields hsane hfocus =>
    refine serves_yield ?_ fuel world
    refine ⟨hsane, ?_⟩
    rw [Move.finish, hfocus]
    exact hstands
  | free hstanding hfrees =>
    rw [hstanding] at hstands
    cases hfrees with
    | ends hterminal hrest =>
      refine serves_finish (fun _ => ⟨(kind.atRest_discipline _ _).mp hrest, hstands⟩) ?_ fuel world
      rintro rfl
      cases hterminal
    | yields hsane =>
      exact serves_yield (hstands.isReady_node hkind hchildren hsane) fuel world
    | crashes => exact serves_crash fuel _ below world
    | runs hlt hhears hneed =>
      refine serves_run hdrives hkind hheeds hhears (fun left hleft status => ?_)
        (hstands.isReadyAt hchildren hlt) hwaits _
      exact Nat.le_of_lt_succ (Nat.lt_of_lt_of_le (hneed left hleft status) hneeds)
    | sleeps hhears hneed =>
      refine sound_attend hdrives hhears (fun hleft => ?_) hstands hwaits _
      exact Nat.le_of_lt_succ (Nat.lt_of_lt_of_le (hneed hleft) hneeds)
    | resets hhears hneed =>
      exact serves_resetChild hdrives hchildren hhears
        (Nat.le_of_lt_succ (Nat.lt_of_lt_of_le hneed hneeds)) hstands hwaits _

/-- A node of a sequential kind is driven in good order if its children are advanced so. -/
theorem drives (hkind : kind.IsSequential children.length)
    (hchildren : Tree.AreSequential children) (hheeds : Heeds children) (fuel : Nat) :
    Drives name kind children fuel := by
  induction fuel with
  | zero =>
    intro reply cell below world hpoised hfuel _
    cases reply with
    | stop outcome => exact sound_stop hpoised world
    | signal signal => exact absurd (hfuel signal rfl) (Nat.not_le.mpr (kind.need_pos _ _ _))
  | succ fuel ih =>
    intro reply cell below world hpoised hfuel hwaits
    cases reply with
    | stop outcome => exact sound_stop hpoised world
    | signal signal =>
      have hkeeps := hpoised.keeps hkind world
      rw [Crew.drive_signal, Crew.driveAnswers_signal]
      dsimp only
      generalize kind.respond _ cell.state _ = move at hkeeps ⊢
      have hwritten := world.waitsLeft_write cell.binding move.writes
      generalize world.write cell.binding move.writes = written at hwritten ⊢
      rw [← hwritten] at hkeeps hwaits
      have hneeds := hwritten.symm ▸ hfuel signal rfl
      have hserves := serves_respond ih hkind hchildren hheeds hpoised hkeeps hneeds hwaits
        written.2
      rw [Progress.after_append, Progress.ofNode_after, Progress.ofNode_after]
      exact hserves.after_quiet (Nat.le_of_eq hwritten) (milestones_map_noticeAt _ _) false

/-- A turn leaves a node in good order. -/
theorem sound_turn (hkind : kind.IsSequential children.length)
    (hchildren : Tree.AreSequential children) (hheeds : Heeds children) {run : Option Run}
    {cell : Cell kind.State} {below : Memories children} {world : World}
    (hbefore : (Tree.stance ⟨name, kind, children⟩).Before (.node cell below) run)
    (hwaits : world.waitsLeft ≤ turnLength) :
    (Tree.stance ⟨name, kind, children⟩).Sound world.waitsLeft
      (Progress.ofNode name kind children (turnOf name kind children run cell below world))
      (turnAnswers name kind children run cell below world) := by
  have hdrives : Drives name kind children (kind.allowance children.length) :=
    drives hkind hchildren hheeds _
  cases run with
  | none =>
    refine hdrives (.signal .started) cell below world
      ⟨kind.hears_started _, fun _ => hbefore.1, hbefore.2⟩ ?_ hwaits
    rintro _ ⟨⟩
    exact Kind.need_le_allowance hkind hwaits (kind.hears_started _)
  | some run =>
    rw [turnOf, Progress.andThen_eq, Progress.ofNode_after]
    cases run with
    | child mark index run =>
      obtain ⟨hindex, hhears, hsuspended⟩ := hbefore
      have hchild := (hheeds index (some run) below world hsuspended hwaits).1
      have hleft := Nat.le_trans hchild.waits_le hwaits
      have hfuel : 0 < kind.allowance children.length :=
        Nat.lt_of_lt_of_le (kind.need_pos _ world.waitsLeft _)
          (Kind.need_le_allowance hkind hwaits (hhears .running))
      refine hchild.go_on hkind hindex hhears hfuel ?_ _
      refine hdrives _ cell _ _ (hchild.poised hindex hhears cell) ?_ hleft
      intro signal hsignal
      obtain ⟨status, rfl⟩ := exists_of_replyOfChild_eq_signal hsignal
      exact Kind.need_le_allowance hkind hleft (hhears status)
    | paused pause =>
      cases pause with
      | sleep mark timer =>
        refine sound_attend hdrives hbefore.1 (fun _ => ?_) hbefore.2 hwaits cell
        exact Kind.need_le_allowance hkind (Nat.le_trans (Nat.sub_le _ _) hwaits) hbefore.1
      | race task timer => exact hbefore.elim
    | together slots => exact hbefore.elim
    | crowd id slots called => exact hbefore.elim

/-- An execution begins with the child that is to be resumed. -/
theorem drive_resumes (hkind : kind.IsSequential children.length) (hheeds : Heeds children)
    {fuel : Nat} (hfuel : 0 < fuel) {cell : Cell kind.State} {below : Memories children}
    (hready : (Memory.node cell below : Memory ⟨name, kind, children⟩).IsReady) {world : World}
    (hwaits : world.waitsLeft ≤ turnLength) {index : Nat} {path : Path}
    (hpoints : (Memory.node cell below : Memory ⟨name, kind, children⟩).PointsAlong
      (index :: path)) :
    (leafMilestones (Tree.isLeafAt ⟨name, kind, children⟩)
      ((crewOf children).drive name kind children.length fuel (.signal .started) cell below
        world).journal).head? = some ⟨index :: path, none⟩ := by
  obtain ⟨fuel, rfl⟩ := Nat.exists_eq_succ_of_ne_zero (Nat.ne_of_gt hfuel)
  have hpoised : Poised name kind children (.signal .started) cell below :=
    ⟨kind.hears_started _, fun _ => hready.1, hready.2⟩
  have hkeeps := hpoised.keeps hkind world
  rw [Crew.drive_signal]
  dsimp only
  generalize kind.respond _ cell.state _ = move at hkeeps ⊢
  have hwritten := world.waitsLeft_write cell.binding move.writes
  generalize world.write cell.binding move.writes = written at hwritten ⊢
  rw [← hwritten] at hwaits
  cases hkeeps with
  | @resumes next mark hfocus hhears hneed =>
    obtain rfl : (kind.discipline children.length).childOf mark = index :=
      Option.some.inj (hfocus.symm.trans hpoints.1)
    generalize (kind.discipline children.length).childOf mark = index at hfocus hpoints ⊢
    have hchild : below.IsReadyAt index := by
      have hready := hready.2
      rwa [hfocus] at hready
    have hfirst : (leafMilestones (Tree.isLeafIn children index)
        (advanceChild children index none below written.1).journal).head? = some ⟨path, none⟩ :=
      (hheeds index none below written.1 hchild hwaits).2 rfl path hpoints.2
    have hserved : leafMilestones (Tree.isLeafAt ⟨name, kind, children⟩)
        ((crewOf children).serve children.length (.run mark index) below written.1).journal =
        (leafMilestones (Tree.isLeafIn children index)
          (advanceChild children index none below written.1).journal).map (·.under index) :=
      leafMilestones_map_under index _
    simp only [Move.ask, Progress.journal_after, leafMilestones_append, hserved,
      leafMilestones_of_milestones (milestones_map_noticeAt _ _), List.nil_append]
    rw [List.head?_append, List.head?_map, hfirst]
    rfl
  | free hstanding hfrees => cases hstanding.symm.trans hpoints.1

/-- There is nothing below a leaf. -/
theorem isLeafAt_cons_of_isLeaf (name : String) (hkind : kind.IsSequential children.length)
    (hleaf : kind.isLeaf) (index : Nat) (path : Path) :
    Tree.isLeafAt ⟨name, kind, children⟩ (index :: path) = false := by
  rw [List.length_eq_zero_iff.mp (Kind.eq_zero_of_isLeaf hkind hleaf)]
  cases index <;> rfl

omit [Application κ] in
/-- A journal about the root tells of no leaf if the root is none. -/
theorem leafMilestones_of_not_isLeaf (name : String) (children : List (Tree κ))
    (hleaf : kind.isLeaf = false) {journal : Journal}
    (hroot : ∀ milestone ∈ milestones journal, milestone.path = []) :
    leafMilestones (Tree.isLeafAt ⟨name, kind, children⟩) journal = [] := by
  refine List.filter_eq_nil_iff.mpr fun milestone hmem => ?_
  rw [hroot milestone hmem]
  exact ne_true_of_eq_false hleaf

omit [Application κ] in
/-- A journal about the root tells of a leaf only if the root is one. -/
theorem leafMilestones_of_isLeaf (name : String) (children : List (Tree κ))
    (hleaf : kind.isLeaf = true) {journal : Journal}
    (hroot : ∀ milestone ∈ milestones journal, milestone.path = []) :
    leafMilestones (Tree.isLeafAt ⟨name, kind, children⟩) journal = milestones journal := by
  refine List.filter_eq_self.mpr fun milestone hmem => ?_
  rw [hroot milestone hmem]
  exact hleaf

/-- A turn of a node is orderly with its first and its last entry. -/
theorem orderly_advance (hkind : kind.IsSequential children.length) (run : Option Run)
    (world : World) {turn : Progress Outcome (Cell kind.State × Memories children)}
    (hinner : IsInner turn.journal)
    (horderly : Orderly (Tree.isLeafAt ⟨name, kind, children⟩) turn.journal fun path =>
      turn.result = .answered .running ∧
        (Memory.node turn.memory.1 turn.memory.2 : Memory ⟨name, kind, children⟩).PointsAlong
          path) :
    Orderly (Tree.isLeafAt ⟨name, kind, children⟩)
      (entryOf name run world ++ turn.journal ++ exitEntry name kind turn) fun path =>
        turn.result = .answered .running ∧
          (Memory.node turn.memory.1 turn.memory.2 : Memory ⟨name, kind, children⟩).PointsAlong
            path := by
  have hentry : ∀ milestone ∈ milestones (entryOf name run world),
      milestone.path = [] ∧ milestone.answer = none := by
    cases run <;> simp [milestones_entryOf]
  have hexit : ∀ milestone ∈ milestones (exitEntry name kind turn), milestone.path = [] := by
    rw [milestones_exitEntry]
    split <;> simp
  cases hleaf : kind.isLeaf with
  | false =>
    have hfirst := leafMilestones_of_not_isLeaf name children hleaf
      fun _ hmem => (hentry _ hmem).1
    have hlast := leafMilestones_of_not_isLeaf name children hleaf hexit
    exact ((orderly_of_leafMilestones hfirst fun _ => False).append (fun _ => False.elim)
      horderly).append (fun _ hpath => ⟨hlast, hpath⟩) (orderly_of_leafMilestones hlast _)
  | true =>
    have hturn := leafMilestones_of_isInner hinner
      (isLeafAt_cons_of_isLeaf name hkind hleaf)
    have hquiet : ∀ milestone ∈ leafMilestones (Tree.isLeafAt ⟨name, kind, children⟩)
        (entryOf name run world), milestone.answer ≠ some .running := by
      intro milestone hmem
      rw [(hentry milestone ((List.mem_filter.mp hmem).1)).2]
      rintro ⟨⟩
    unfold Orderly
    rw [leafMilestones_append, leafMilestones_append, hturn, List.append_nil]
    by_cases hrunning : turn.result = .answered .running
    · refine .inr ⟨_, [], ?_, hquiet, hrunning, hleaf⟩
      rw [leafMilestones_of_isLeaf name children hleaf hexit, milestones_exitEntry, hrunning]
    · refine .inl fun milestone hmem => ?_
      obtain hmem | hmem := List.mem_append.mp hmem
      · exact hquiet milestone hmem
      · have hlast := (List.mem_filter.mp hmem).1
        rw [milestones_exitEntry] at hlast
        split at hlast
        · next status hresult =>
          cases List.mem_singleton.mp hlast
          rintro ⟨⟩
          exact hrunning hresult
        · cases hlast
        · cases hlast

/-- What holds of a node whose children are to be advanced in good order. -/
theorem advances (hkind : kind.IsSequential children.length)
    (hchildren : Tree.AreSequential children) (hheeds : Heeds children) {run : Option Run}
    {cell : Cell kind.State} {below : Memories children} {world : World}
    (hbefore : (Tree.stance ⟨name, kind, children⟩).Before (.node cell below) run)
    (hwaits : world.waitsLeft ≤ turnLength) :
    let progress := advance ⟨name, kind, children⟩ run (.node cell below) world
    (Tree.stance ⟨name, kind, children⟩).Sound world.waitsLeft progress
        (answers ⟨name, kind, children⟩ run (.node cell below) world) ∧
      (Tree.stance ⟨name, kind, children⟩).Resumes run (.node cell below) progress.journal := by
  have hturn := sound_turn hkind hchildren hheeds hbefore hwaits
  have hinner := isInner_turn name kind children run cell below world
  rw [answers_eq, advance_eq]
  refine ⟨⟨hturn.waits_le, hturn.spawned_eq, hturn.atRest, hturn.ready, hturn.suspended,
    orderly_advance hkind run world hinner hturn.orderly, ?_, ?_⟩, ?_⟩
  · have hentry : (milestones (entryOf name run world)).filter (·.answer.isSome) = [] := by
      cases run <;> rfl
    have hreported := hturn.reported
    simp only [Progress.ofNode, Progress.journal_map] at hreported
    simp only [List.map_append, hreported, milestones_append, List.filter_append, hentry,
      List.nil_append, milestones_exitEntry, ownAnswer]
    congr 1
    cases (turnOf name kind children run cell below world).result <;> rfl
  · intro answer hmem hterminal
    obtain hmem | hmem := List.mem_append.mp hmem
    · exact hturn.answers_atRest answer hmem hterminal
    · unfold ownAnswer at hmem
      split at hmem
      · next status hresult =>
        cases List.mem_singleton.mp hmem
        exact hturn.atRest status hresult hterminal
      · cases hmem
      · cases hmem
  · rintro rfl path hpoints
    have hroot : ∀ milestone ∈ milestones (entryOf name none world), milestone.path = [] := by
      simp [milestones_entryOf]
    cases path with
    | nil =>
      have hleaf : kind.isLeaf := hpoints
      simp only [Tree.stance, leafMilestones_append,
        leafMilestones_of_isLeaf name children hleaf hroot]
      rfl
    | cons index path =>
      have hleaf : kind.isLeaf = false := by
        cases hleaf : kind.isLeaf with
        | false => rfl
        | true => cases (Kind.focus?_of_isLeaf hleaf _ _).symm.trans hpoints.1
      have hentry := leafMilestones_of_not_isLeaf name children hleaf hroot
      have hready : (Memory.node cell below : Memory ⟨name, kind, children⟩).IsReady := hbefore
      have hfuel : 0 < kind.allowance children.length :=
        Nat.lt_of_lt_of_le (kind.need_pos _ world.waitsLeft _)
          (Kind.need_le_allowance hkind hwaits (kind.hears_started _))
      simp only [Tree.stance, leafMilestones_append, hentry, List.nil_append]
      rw [List.head?_append, turnOf,
        drive_resumes hkind hheeds hfuel hready hwaits hpoints]
      rfl

end Node

/-! ## Trees -/

namespace Stance

variable {μ ν : Type} {stance : Stance μ} {wider : Stance ν}

/-- How one stance is part of another, where a memory is part of another. -/
structure Embeds (stance : Stance μ) (wider : Stance ν) (embed : μ → ν) : Prop where
  /-- Nothing is left in the wider memory either. -/
  atRest : ∀ memory, stance.atRest memory → wider.atRest (embed memory)
  /-- A new execution can begin there as well. -/
  ready : ∀ memory, stance.ready memory → wider.ready (embed memory)
  /-- The same execution is suspended there. -/
  suspended : ∀ run memory, stance.suspended run memory → wider.suspended run (embed memory)
  /-- The same leaf is pointed at there. -/
  points : ∀ path memory, stance.points path memory → wider.points path (embed memory)
  /-- There are leaves at the same positions. -/
  isLeaf : stance.isLeaf = wider.isLeaf

/-- What is sound for a part is so for the whole. -/
theorem Sound.embed {embed : μ → ν} (hembeds : stance.Embeds wider embed) {waits : Nat}
    {progress : Progress Outcome μ} {answers : List (Answer κ)}
    (hsound : stance.Sound waits progress answers) :
    wider.Sound waits (progress.map id embed) answers where
  waits_le := hsound.waits_le
  spawned_eq := hsound.spawned_eq
  atRest status hresult hterminal := hembeds.atRest _ (hsound.atRest status hresult hterminal)
  ready hresult := hembeds.ready _ (hsound.ready hresult)
  suspended run hresult := hembeds.suspended run _ (hsound.suspended run hresult)
  orderly := by
    rw [← hembeds.isLeaf]
    exact hsound.orderly.mono fun path hlast => ⟨hlast.1, hembeds.points path _ hlast.2⟩
  reported := hsound.reported
  answers_atRest := hsound.answers_atRest

end Stance

/-- The stance of the first child is part of that of the children if the others are at rest. -/
theorem embeds_first (tree : Tree κ) {trees : List (Tree κ)} {rest : Memories trees}
    (hrest : rest.AtRest) :
    tree.stance.Embeds (Tree.stanceOf (tree :: trees) 0) (Memories.cons · rest) where
  atRest _ hfirst := ⟨hfirst, hrest⟩
  ready _ hfirst := ⟨hfirst, hrest⟩
  suspended _ _ hfirst := ⟨hfirst, hrest⟩
  points _ _ hfirst := hfirst
  isLeaf := rfl

/-- The stance of a later child is part of that of the children if the first one is at rest. -/
theorem embeds_rest {tree : Tree κ} {first : Memory tree} (hfirst : first.AtRest)
    (trees : List (Tree κ)) (index : Nat) :
    (Tree.stanceOf trees index).Embeds (Tree.stanceOf (tree :: trees) (index + 1))
      (Memories.cons first ·) where
  atRest _ hrest := ⟨hfirst, hrest⟩
  ready _ hrest := ⟨hfirst, hrest⟩
  suspended _ _ hrest := ⟨hfirst, hrest⟩
  points _ _ hrest := hrest
  isLeaf := rfl

mutual

/-- Every turn of a sequential tree is in good order. -/
theorem sound_advance : (tree : Tree κ) → tree.IsSequential → ∀ run memory world,
    tree.stance.Before memory run → world.waitsLeft ≤ turnLength →
      let progress := advance tree run memory world
      tree.stance.Sound world.waitsLeft progress (answers tree run memory world) ∧
        tree.stance.Resumes run memory progress.journal
  | ⟨_, _, children⟩, hsequential, _, .node _ _, _, hbefore, hwaits =>
    advances hsequential.1 hsequential.2 (heeds children hsequential.2) hbefore hwaits

/-- Sequential children are advanced in good order. -/
theorem heeds : (trees : List (Tree κ)) → Tree.AreSequential trees → Heeds trees
  | [], _ => by
    intro index run memories world hbefore
    cases memories
    cases run <;> exact hbefore.elim
  | tree :: trees, hsequential => by
    intro index run memories world hbefore hwaits
    cases memories with
    | cons first rest =>
      cases index with
      | zero =>
        have hfirst : tree.stance.Before first run ∧ rest.AtRest := by
          cases run <;> exact hbefore
        obtain ⟨hsound, hresumes⟩ :=
          sound_advance tree hsequential.1 run first world hfirst.1 hwaits
        exact ⟨hsound.embed (embeds_first tree hfirst.2), hresumes⟩
      | succ index =>
        have hrest : first.AtRest ∧ (Tree.stanceOf trees index).Before rest run := by
          cases run <;> exact hbefore
        obtain ⟨hsound, hresumes⟩ := heeds trees hsequential.2 index run rest world hrest.2 hwaits
        exact ⟨hsound.embed (embeds_rest hrest.1 trees index), hresumes⟩

end

end BehaviorTree
