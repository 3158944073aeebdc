import BehaviorTree.Proofs.Tree.Resumption
import BehaviorTree.Schedule.Session

/-!
# The foreground alone

A sequential tree never starts a task. So the foreground is alone when it is executed: rounds only
call it, and the clock moves to its own timers. Its turns make up one execution of the root, which
is as orderly as each of them (`ends_execute`).
-/

namespace BehaviorTree

open Journal

variable {κ : Type} [Application κ] {tree : Tree κ}

namespace System

/-! ## The answers given in an execution -/

/-- The answers given in a turn of the foreground. -/
def frontAnswers (system : System tree) : List (Answer κ) :=
  BehaviorTree.answers tree system.front system.memory (system.world.beginTurn .front)

/-- The answers given in the foreground until it has answered itself. -/
def completeAnswers : Nat → Outcome → System tree → List (Answer κ)
  | fuel + 1, .waiting run, system =>
    let system := system.round.1
    match if system.isIdle then system.nextDue?.map system.moveClock else some system with
    | none => []
    | some system =>
      if system.called then
        system.frontAnswers ++ completeAnswers fuel system.runFront.1 system.runFront.2.1
      else completeAnswers fuel (.waiting run) system
  | _, _, _ => []

/-- The answers given in the foreground while the root is executed once. -/
def executeAnswers (system : System tree) : List (Answer κ) :=
  let first := system.refreshed
  first.frontAnswers ++
    completeAnswers first.runFront.2.1.patience first.runFront.1 first.runFront.2.1

/-- Each answer is given by the node at its position. -/
theorem at?_of_mem_completeAnswers {fuel : Nat} {outcome : Outcome} {system : System tree} :
    ∀ answer ∈ completeAnswers fuel outcome system, tree.at? answer.path = some answer.tree := by
  induction fuel generalizing outcome system with
  | zero => cases outcome <;> exact fun _ hmem => absurd hmem List.not_mem_nil
  | succ fuel ih =>
    cases outcome with
    | answered status => exact fun _ hmem => absurd hmem List.not_mem_nil
    | failed fault => exact fun _ hmem => absurd hmem List.not_mem_nil
    | waiting run =>
      intro answer hmem
      rw [completeAnswers] at hmem
      split at hmem
      · cases hmem
      · split at hmem
        · exact (List.mem_append.mp hmem).elim (at?_of_mem_answers tree _ _ _ answer) (ih answer)
        · exact ih answer hmem

/-- Every answer that is listed is one of the node at its position. -/
theorem at?_of_mem_executeAnswers {system : System tree} :
    ∀ answer ∈ system.executeAnswers, tree.at? answer.path = some answer.tree :=
  fun answer hmem => (List.mem_append.mp hmem).elim (at?_of_mem_answers tree _ _ _ answer)
    (at?_of_mem_completeAnswers answer)

/-! ## Being alone -/

/-- Nothing runs beside the foreground. -/
structure IsAlone (system : System tree) : Prop where
  /-- No task is under way. -/
  tasks_eq : system.tasks = []
  /-- No task is to have a turn. -/
  ready_eq : system.ready = []

/-- The foreground is alone and has come so far, in good order. -/
def Stands (system : System tree) (outcome : Outcome) : Prop :=
  system.IsAlone ∧
    match outcome with
    | .answered _ => system.front = none ∧ system.memory.IsReady
    | .waiting run => system.front = some run ∧ system.memory.IsSuspended run
    | .failed _ => system.front = none

/-- Standing is about the memory and about who is under way. -/
theorem Stands.same {system later : System tree} {outcome : Outcome}
    (hstands : system.Stands outcome) (hmemory : later.memory = system.memory)
    (hfront : later.front = system.front) (htasks : later.tasks = system.tasks)
    (hready : later.ready = system.ready) : later.Stands outcome := by
  refine ⟨⟨htasks.trans hstands.1.tasks_eq, hready.trans hstands.1.ready_eq⟩, ?_⟩
  rw [hmemory, hfront]
  exact hstands.2

/-- A call leaves the foreground standing as it is. -/
theorem Stands.call {system : System tree} {run : Run} (hstands : system.Stands (.waiting run))
    (call : Call) : (system.call call).Stands (.waiting run) := by
  obtain ⟨⟨htasks, hready⟩, hfront, hsuspended⟩ := hstands
  refine ⟨⟨?_, ?_⟩, ?_, hsuspended⟩
  · simp [System.call, htasks]
  · simp [System.call, htasks, hready]
  · simp [System.call, hfront, hsuspended.notify_eq]

/-- Calls leave the foreground standing as it is. -/
theorem Stands.callAll {system : System tree} {run : Run} (hstands : system.Stands (.waiting run))
    (calls : List Call) : (system.callAll calls).Stands (.waiting run) := by
  induction calls generalizing system with
  | nil => exact hstands
  | cons call calls ih => exact ih (hstands.call call)

/-- Calling a party leaves the foreground standing as it is. -/
theorem Stands.callParty {system : System tree} {run : Run}
    (hstands : system.Stands (.waiting run)) (party : Party) :
    (system.callParty party).Stands (.waiting run) := by
  cases party with
  | front => exact hstands.same rfl rfl rfl rfl
  | task id =>
    rw [System.callParty, hstands.1.tasks_eq]
    exact hstands
  | member crowd index => exact hstands.call _

/-- Calling those who have put a wait off leaves the foreground standing as it is. -/
theorem Stands.resume {system : System tree} {run : Run} (hstands : system.Stands (.waiting run)) :
    system.resume.Stands (.waiting run) := by
  have hparties : ∀ (parties : List Party) (system : System tree),
      system.Stands (.waiting run) →
        (parties.foldl System.callParty system).Stands (.waiting run) := by
    intro parties
    induction parties with
    | nil => exact fun _ hstands => hstands
    | cons party parties ih => exact fun system hstands => ih _ (hstands.callParty party)
  exact hparties _ _ (hstands.same rfl rfl rfl rfl)

/-- If the foreground is alone, a round does nothing but call it. -/
theorem IsAlone.round {system : System tree} (halone : system.IsAlone) :
    system.round = (system.resume, []) := by
  rw [System.round, roundLength, runTasks, halone.ready_eq]

/-- Moving the clock leaves the foreground standing as it is. -/
theorem Stands.moveClock {system : System tree} {run : Run}
    (hstands : system.Stands (.waiting run)) (time : Nat) :
    (system.moveClock time).Stands (.waiting run) := by
  refine Stands.callAll ?_ _
  exact hstands.same rfl rfl rfl rfl

/-! ## Turns -/

/-- What the tree does in a turn of the foreground. -/
def frontTurn (system : System tree) : Progress Outcome (Memory tree) :=
  advance tree system.front system.memory (system.world.beginTurn .front)

/-- What the foreground does in its turn is what the tree does. -/
theorem runFront_eq (system : System tree) :
    system.runFront =
      (system.frontTurn.result,
        { system.absorb system.frontTurn with
          front := system.frontTurn.result.run?
          called := system.frontTurn.result.run?.isSome && system.frontTurn.again },
        system.frontTurn.journal) := by
  rw [runFront, frontTurn]
  cases (advance tree system.front system.memory (system.world.beginTurn .front)).result <;> rfl

/-- What has to hold for the foreground to have a turn. -/
def Awaits (system : System tree) : Prop :=
  system.IsAlone ∧ tree.stance.Before system.memory system.front

/-- A foreground that waits in good order is ready for its next turn. -/
theorem Stands.awaits {system : System tree} {run : Run} (hstands : system.Stands (.waiting run)) :
    system.Awaits := by
  obtain ⟨halone, hfront, hsuspended⟩ := hstands
  exact ⟨halone, hfront ▸ hsuspended⟩

/-- A turn of the foreground of a sequential tree keeps it in order. -/
theorem Awaits.sound (hsequential : tree.IsSequential) {system : System tree}
    (hawaits : system.Awaits) :
    tree.stance.Sound turnLength system.frontTurn system.frontAnswers ∧
      tree.stance.Resumes system.front system.memory system.frontTurn.journal :=
  sound_advance tree hsequential system.front system.memory (system.world.beginTurn .front)
    hawaits.2 (Nat.le_refl _)

/-- A turn of the foreground of a sequential tree leaves it standing in good order. -/
theorem Awaits.stands (hsequential : tree.IsSequential) {system : System tree}
    (hawaits : system.Awaits) : system.runFront.2.1.Stands system.runFront.1 := by
  have hsound := (hawaits.sound hsequential).1
  rw [runFront_eq]
  refine ⟨⟨?_, ?_⟩, ?_⟩
  · simp [absorb, hawaits.1.tasks_eq, hsound.spawned_eq]
  · simp [absorb, hawaits.1.ready_eq, hsound.spawned_eq]
  · dsimp only
    cases hresult : system.frontTurn.result with
    | answered status =>
      refine ⟨rfl, ?_⟩
      cases status with
      | running => exact hsound.ready hresult
      | success | failure => exact (hsound.atRest _ hresult rfl).isReady hsequential
    | waiting run => exact ⟨rfl, hsound.suspended run hresult⟩
    | failed fault => rfl

/-! ## Executions -/

/-- What holds when the foreground has come to its end, and in the course of it some answers were
given. -/
structure Ends (ended : Except Fault Status × System tree × Journal) (answers : List (Answer κ)) :
    Prop where
  /-- Nothing runs beside the foreground. -/
  alone : ended.2.1.IsAlone
  /-- Nothing is suspended. -/
  front_eq : ended.2.1.front = none
  /-- After an answer a new execution can begin. -/
  ready : ∀ status, ended.1 = .ok status → ended.2.1.memory.IsReady
  /-- No leaf answers running but the last one, which the memory points at. -/
  orderly : Orderly tree.isLeafAt ended.2.2 fun path =>
    ended.1 = .ok .running ∧ ended.2.1.memory.PointsAlong path
  /-- The answers are those that the journal tells of. -/
  reported : answers.map Answer.milestone = (milestones ended.2.2).filter (·.answer.isSome)
  /-- Whoever answers with success or failure keeps nothing of the execution. -/
  answers_atRest : ∀ answer ∈ answers, answer.status.isTerminal → answer.memory.AtRest

/-- An execution that has been answered is complete. -/
theorem complete_answered (fuel : Nat) (status : Status) (system : System tree) :
    complete fuel (.answered status) system = (.ok status, system, []) := by
  cases fuel <;> rfl

/-- An execution without entries ends in good order if nothing is in the foreground. -/
theorem ends_of_journal_nil {result : Except Fault Status} {system : System tree}
    (halone : system.IsAlone) (hfront : system.front = none)
    (hready : ∀ status, result = .ok status → system.memory.IsReady) :
    Ends (result, system, []) ([] : List (Answer κ)) where
  alone := halone
  front_eq := hfront
  ready := hready
  orderly := orderly_of_milestones rfl _
  reported := rfl
  answers_atRest := fun _ hmem => absurd hmem List.not_mem_nil

/-- A turn of the foreground ends in order if all that follows it does. -/
theorem Awaits.ends (hsequential : tree.IsSequential) {system : System tree}
    (hawaits : system.Awaits) {fuel : Nat} {answers : List (Answer κ)}
    {ended : Except Fault Status × System tree × Journal}
    (hended : complete fuel system.runFront.1 system.runFront.2.1 = ended)
    (hrest : Ends ended answers) :
    Ends (ended.1, ended.2.1, system.runFront.2.2 ++ ended.2.2)
      (system.frontAnswers ++ answers) := by
  have hturn := (hawaits.sound hsequential).1
  rw [runFront_eq] at hended ⊢
  refine ⟨hrest.alone, hrest.front_eq, hrest.ready, ?_, ?_, ?_⟩
  · refine hturn.orderly.append ?_ hrest.orderly
    rintro path ⟨hrunning, hpoints⟩
    rw [hrunning, complete_answered] at hended
    rw [← hended]
    exact ⟨rfl, rfl, hpoints⟩
  · rw [List.map_append, hturn.reported, hrest.reported, milestones_append, List.filter_append]
  · intro answer hmem
    exact (List.mem_append.mp hmem).elim (hturn.answers_atRest answer)
      (hrest.answers_atRest answer)

/-- An execution of a sequential tree that has come so far in good order ends so. -/
theorem ends_complete (hsequential : tree.IsSequential) (fuel : Nat) {outcome : Outcome}
    {system : System tree} (hstands : system.Stands outcome) :
    Ends (complete fuel outcome system) (completeAnswers fuel outcome system) := by
  induction fuel generalizing outcome system with
  | zero =>
    cases outcome with
    | answered status => exact ends_of_journal_nil hstands.1 hstands.2.1 fun _ _ => hstands.2.2
    | waiting run => exact ends_of_journal_nil ⟨hstands.1.tasks_eq, hstands.1.ready_eq⟩ rfl nofun
    | failed fault => exact ends_of_journal_nil hstands.1 hstands.2 nofun
  | succ fuel ih =>
    cases outcome with
    | answered status => exact ends_of_journal_nil hstands.1 hstands.2.1 fun _ _ => hstands.2.2
    | failed fault => exact ends_of_journal_nil hstands.1 hstands.2 nofun
    | waiting run =>
      have hresumed := hstands.resume
      rw [complete, completeAnswers, hstands.1.round]
      dsimp only
      generalize hnext : (if system.resume.isIdle then
          system.resume.nextDue?.map system.resume.moveClock
        else some system.resume) = next?
      cases next? with
      | none => exact ends_of_journal_nil ⟨hresumed.1.tasks_eq, hresumed.1.ready_eq⟩ rfl nofun
      | some next =>
        have hstands : next.Stands (.waiting run) := by
          split at hnext
          · obtain ⟨time, -, rfl⟩ := Option.map_eq_some_iff.mp hnext
            exact hresumed.moveClock time
          · cases hnext
            exact hresumed
        by_cases hcalled : next.called
        · simp only [hcalled, if_true, List.nil_append]
          exact hstands.awaits.ends hsequential rfl
            (ih (hstands.awaits.stands hsequential))
        · simp only [hcalled, List.nil_append]
          exact ih hstands

/-- An execution of the root ends in order and begins with the leaf that is pointed at. -/
theorem ends_execute (hsequential : tree.IsSequential) {system : System tree}
    (halone : system.IsAlone) (hready : system.memory.IsReady) :
    Ends system.execute system.executeAnswers ∧
      tree.stance.Resumes none system.memory system.execute.2.2 := by
  have hrefreshed : system.refreshed.Awaits ∧ system.refreshed.front = none ∧
      system.refreshed.memory = system.memory := by
    rw [refreshed, halone.tasks_eq]
    exact ⟨⟨⟨rfl, rfl⟩, hready⟩, rfl, rfl⟩
  generalize hfirst : system.refreshed = first at hrefreshed
  obtain ⟨hawaits, hfront, hmemory⟩ := hrefreshed
  have hends := hawaits.ends hsequential rfl
    (ends_complete hsequential first.runFront.2.1.patience (hawaits.stands hsequential))
  rw [execute, executeAnswers, hfirst]
  refine ⟨hends, fun _ path hpoints => ?_⟩
  have hturn := (hawaits.sound hsequential).2 hfront path (hmemory ▸ hpoints)
  rw [leafMilestones_append, List.head?_append, runFront_eq, hturn]
  rfl

end System

end BehaviorTree
