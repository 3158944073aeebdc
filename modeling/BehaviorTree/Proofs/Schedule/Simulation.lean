import BehaviorTree.Proofs.Schedule.RoundBound
import BehaviorTree.Proofs.Tree.Likeness

/-!
# Trees that respond in the same way

Two trees simulate each other if their turns correspond: those of the root, those of the trees that
are executed detached, and what abort and reset do. Then everything corresponds that is done with
them. The schedules take the same course, and the responses are the same but for the shape of the
journals, as long as both have the same patience.

What an execution of the roots needs in order to go the same way may be lost when an execution
fails. Then the two correspond up to there (`Simulation.Alike.untilFault`). If nothing is lost they
correspond throughout (`Simulation.Alike.history`).
-/

namespace BehaviorTree

variable {κ : Type} [Application κ] {tree other : Tree κ}

/-- The execution has not failed. -/
def Outcome.IsSound (outcome : Outcome) : Prop := ∀ fault, outcome ≠ .failed fault

/-- The execution, if there was one, has given a status. -/
def Response.IsSound (response : Response) : Prop :=
  ∀ fault, response.result ≠ some (.error fault)

namespace Start

/-- The context that the root of a tree is bound to at the start. -/
def binding : Start → Binding
  | bound _ => .shared 0
  | unbound _ => .own {}
  | begun _ => .shared 0

/-- At the start nothing is in the foreground. -/
theorem front_eq_none (start : Start) (tree : Tree κ) : (start.system tree).front = none := by
  cases start <;> rfl

end Start

/-- Two histories that correspond up to the first execution that fails. -/
inductive UntilFault {α β : Type} (same : Response × α → Response × β → Prop) :
    List (Response × α) → List (Response × β) → Prop where
  | nil : UntilFault same [] []
  | cons {step : Response × α} {other : Response × β} {steps : List (Response × α)}
    {others : List (Response × β)} (hsame : same step other)
    (hrest : step.1.IsSound → UntilFault same steps others) :
    UntilFault same (step :: steps) (other :: others)

/-- Histories correspond up to a fault in every respect that follows from the one in which they
do. -/
theorem UntilFault.imp {α β : Type} {same same' : Response × α → Response × β → Prop}
    (himp : ∀ step other, same step other → same' step other) {steps : List (Response × α)}
    {others : List (Response × β)} (hsteps : UntilFault same steps others) :
    UntilFault same' steps others := by
  induction hsteps with
  | nil => exact .nil
  | cons hsame _ ih => exact .cons (himp _ _ hsame) ih

/-- A likeness of two trees that is kept by every turn, abort and reset. -/
structure Simulation (tree other : Tree κ) extends Likeness (Memory tree) (Memory other) where
  /-- Suspended executions of the roots that correspond. -/
  runs : Run → Run → Prop
  /-- The roots, suspended or not, are to do the same in their next turns. -/
  stands : Option Run → Option Run → Memory tree → Memory other → Prop
  /-- Turns of the roots correspond if the roots are to do the same. -/
  front : ∀ {memory otherMemory run otherRun}, stands run otherRun memory otherMemory → ∀ world,
    toLikeness.Relates (Outcome.Like id runs) (advance tree run memory world)
      (advance other otherRun otherMemory world)
  /-- After such turns the roots are again to do the same, unless they fail. -/
  front_stands : ∀ {memory otherMemory run otherRun}, stands run otherRun memory otherMemory →
    ∀ world, (advance tree run memory world).result.IsSound →
      stands (advance tree run memory world).result.run?
        (advance other otherRun otherMemory world).result.run?
        (advance tree run memory world).memory (advance other otherRun otherMemory world).memory
  /-- Turns of tasks at corresponding positions correspond. -/
  task : ∀ {memory otherMemory path otherPath}, memories memory otherMemory →
    positions path otherPath → ∀ run world,
      toLikeness.Relates Eq (advanceAt tree path run memory world)
        (advanceAt other otherPath run otherMemory world)
  /-- Such turns do not change what the roots are to do. -/
  task_stands : ∀ {memory otherMemory run otherRun path otherPath},
    stands run otherRun memory otherMemory → positions path otherPath → ∀ taskRun world,
      stands run otherRun (advanceAt tree path taskRun memory world).memory
        (advanceAt other otherPath taskRun otherMemory world).memory
  /-- Suspended executions correspond after a call is passed on to both. -/
  notify : ∀ {run otherRun}, runs run otherRun → ∀ call,
    runs (run.notify call) (otherRun.notify call)
  /-- A call that is passed on to both roots does not change what they are to do. -/
  notify_stands : ∀ {memory otherMemory run otherRun}, stands run otherRun memory otherMemory →
    ∀ call, stands (run.map (·.notify call)) (otherRun.map (·.notify call)) memory otherMemory
  /-- Suspended executions that correspond wait for the same calls. -/
  awaits_eq : ∀ {run otherRun}, runs run otherRun → ∀ call, run.awaits call = otherRun.awaits call
  /-- Suspended executions that correspond wait for the same timers. -/
  timers_eq : ∀ {run otherRun}, runs run otherRun → run.timers = otherRun.timers
  /-- Aborts correspond. -/
  abort : ∀ {memory otherMemory}, memories memory otherMemory → ∀ now,
    toLikeness.Controls (memory.abort now) (otherMemory.abort now)
  /-- After an abort the roots are again to do the same. -/
  abort_stands : ∀ {memory otherMemory}, stands none none memory otherMemory → ∀ now,
    stands none none (memory.abort now).1 (otherMemory.abort now).1
  /-- Resets correspond. -/
  reset : ∀ {memory otherMemory}, memories memory otherMemory → ∀ now,
    toLikeness.Controls (memory.reset now) (otherMemory.reset now)
  /-- After a reset the roots are again to do the same. -/
  reset_stands : ∀ {memory otherMemory}, stands none none memory otherMemory → ∀ now,
    stands none none (memory.reset now).1 (otherMemory.reset now).1
  /-- Memories that correspond are bound to the same context. -/
  binding_eq : ∀ {memory otherMemory}, memories memory otherMemory →
    memory.binding = otherMemory.binding

namespace Simulation

variable (simulation : Simulation tree other)

/-- The same execution of the same tree, at corresponding positions. -/
structure Tasks (task copy : Task) : Prop where
  /-- The tasks have the same number. -/
  id_eq : task.id = copy.id
  /-- They execute trees at corresponding positions. -/
  position : simulation.positions task.path copy.path
  /-- They are suspended in the same execution, or both have not begun. -/
  run_eq : task.run = copy.run

/-- Two systems in which everything corresponds. The roots are to do the same in their next turns
if that is not lost. -/
structure Alike (intact : Prop) (system : System tree) (copy : System other) : Prop where
  /-- The memories correspond. -/
  memory : simulation.memories system.memory copy.memory
  /-- The worlds are the same. -/
  world_eq : system.world = copy.world
  /-- What waits in the foreground corresponds. -/
  front : Option.Rel simulation.runs system.front copy.front
  /-- The foreground is called in both systems, or in neither. -/
  called_eq : system.called = copy.called
  /-- The tasks correspond one by one. -/
  tasks : List.Forall₂ simulation.Tasks system.tasks copy.tasks
  /-- The same tasks are to have a turn. -/
  ready_eq : system.ready = copy.ready
  /-- The roots are to do the same, if that is not lost. -/
  stands : intact → simulation.stands system.front copy.front system.memory copy.memory

/-- Two systems in which everything corresponds, after journals that say the same. -/
structure Steps (intact : Prop) (step : System tree × Journal) (copy : System other × Journal) :
    Prop where
  /-- Everything corresponds afterwards. -/
  alike : simulation.Alike intact step.1 copy.1
  /-- The journals say the same. -/
  journal : simulation.Journals step.2 copy.2

/-- What the roots are to do is nothing more than what corresponds anyway. -/
def IsSteady : Prop :=
  ∀ memory otherMemory run otherRun, simulation.memories memory otherMemory →
    Option.Rel simulation.runs run otherRun → simulation.stands run otherRun memory otherMemory

variable {simulation} {intact : Prop} {system : System tree} {copy : System other}

namespace Alike

/-- What is lost stays lost. -/
theorem imp {later : Prop} (halike : simulation.Alike intact system copy) (himp : later → intact) :
    simulation.Alike later system copy :=
  { halike with stands := fun hlater => halike.stands (himp hlater) }

/-- Nothing is lost if nothing can be. -/
theorem sound (halike : simulation.Alike intact system copy) (hsteady : simulation.IsSteady) :
    simulation.Alike True system copy :=
  { halike with stands := fun _ => hsteady _ _ _ _ halike.memory halike.front }

/-! ## What is looked at -/

/-- Nothing is in the foreground of either system, or corresponding executions are. -/
theorem front_cases (halike : simulation.Alike intact system copy) :
    system.front = none ∧ copy.front = none ∨
      ∃ run otherRun, simulation.runs run otherRun ∧ system.front = some run ∧
        copy.front = some otherRun := by
  have hfront := halike.front
  generalize system.front = front, copy.front = otherFront at hfront
  cases hfront with
  | none => exact .inl ⟨rfl, rfl⟩
  | some hruns => exact .inr ⟨_, _, hruns, rfl, rfl⟩

/-- The tasks agree in whatever does not depend on their positions. -/
theorem tasks_map_eq (halike : simulation.Alike intact system copy) {α : Type} {f : Task → α}
    (hsame : ∀ task copy, simulation.Tasks task copy → f task = f copy) :
    system.tasks.map f = copy.tasks.map f := by
  have hmapped : List.Forall₂ Eq (system.tasks.map f) (copy.tasks.map f) :=
    List.rel_map hsame halike.tasks
  rwa [List.forall₂_eq_eq_eq] at hmapped

/-- Both systems wait for the same timers. -/
theorem timers_eq (halike : simulation.Alike intact system copy) :
    system.timers = copy.timers := by
  have hfront : (system.front.map Run.timers).getD [] = (copy.front.map Run.timers).getD [] := by
    obtain ⟨hnone, hotherNone⟩ | ⟨run, otherRun, hruns, hsome, hotherSome⟩ := halike.front_cases
    · rw [hnone, hotherNone]
    · rw [hsome, hotherSome]
      exact simulation.timers_eq hruns
  have htasks : system.tasks.map Task.timers = copy.tasks.map Task.timers :=
    halike.tasks_map_eq fun _ _ htask => by rw [Task.timers, Task.timers, htask.run_eq]
  rw [System.timers, System.timers, hfront, List.flatMap_def, List.flatMap_def, htasks]

/-- The next timer is due at the same time in both systems. -/
theorem nextDue?_eq (halike : simulation.Alike intact system copy) :
    system.nextDue? = copy.nextDue? := by
  rw [System.nextDue?, System.nextDue?, halike.timers_eq]

/-- Nobody is called in one system exactly if nobody is in the other. -/
theorem isIdle_eq (halike : simulation.Alike intact system copy) :
    system.isIdle = copy.isIdle := by
  rw [System.isIdle, System.isIdle, halike.called_eq, halike.ready_eq]

/-- The roots of both systems have the same context. -/
theorem rootContext_eq (halike : simulation.Alike intact system copy) :
    system.rootContext = copy.rootContext := by
  rw [System.rootContext, System.rootContext, halike.world_eq, simulation.binding_eq halike.memory]

/-- The tasks that wait for a call are the same. -/
theorem awaiting_eq (halike : simulation.Alike intact system copy) (call : Call) :
    (system.tasks.filter (·.awaits call)).map (·.id) =
      (copy.tasks.filter (·.awaits call)).map (·.id) := by
  have hawaiting : List.Forall₂ simulation.Tasks (system.tasks.filter (·.awaits call))
      (copy.tasks.filter (·.awaits call)) := by
    refine List.rel_filter (fun task copy htask => ?_) halike.tasks
    have hsame : task.awaits call = copy.awaits call := by
      rw [Task.awaits, Task.awaits, htask.run_eq]
    exact Bool.eq_iff_iff.mp hsame
  have hids : List.Forall₂ Eq ((system.tasks.filter (·.awaits call)).map (·.id))
      ((copy.tasks.filter (·.awaits call)).map (·.id)) :=
    List.rel_map (fun _ _ htask => htask.id_eq) hawaiting
  rwa [List.forall₂_eq_eq_eq] at hids

/-- The tasks with a number correspond. -/
theorem task? (halike : simulation.Alike intact system copy) (id : Nat) :
    Option.Rel simulation.Tasks (system.task? id) (copy.task? id) := by
  rw [System.task?, System.task?]
  have htasks := halike.tasks
  generalize system.tasks = tasks, copy.tasks = copies at htasks
  induction htasks with
  | nil => exact .none
  | cons htask _ ih =>
    rw [List.find?_cons, List.find?_cons, htask.id_eq]
    split
    · exact .some htask
    · exact ih

/-! ## Between the turns -/

/-- Both systems correspond after a call. -/
theorem call (halike : simulation.Alike intact system copy) (call : Call) :
    simulation.Alike intact (system.call call) (copy.call call) where
  memory := halike.memory
  world_eq := halike.world_eq
  front := by
    obtain ⟨hnone, hotherNone⟩ | ⟨run, otherRun, hruns, hsome, hotherSome⟩ := halike.front_cases
    · rw [System.call, System.call, hnone, hotherNone]
      exact .none
    · rw [System.call, System.call, hsome, hotherSome]
      exact .some (simulation.notify hruns call)
  called_eq := by
    have hfront : system.front.any (·.awaits call) = copy.front.any (·.awaits call) := by
      obtain ⟨hnone, hotherNone⟩ | ⟨run, otherRun, hruns, hsome, hotherSome⟩ := halike.front_cases
      · rw [hnone, hotherNone]
      · rw [hsome, hotherSome]
        exact simulation.awaits_eq hruns call
    rw [System.call, System.call, hfront, halike.called_eq]
  tasks := by
    refine List.rel_map (fun task copy htask => ⟨htask.id_eq, htask.position, ?_⟩) halike.tasks
    exact congrArg (Option.map (Run.notify call)) htask.run_eq
  ready_eq := by
    rw [System.call, System.call, halike.awaiting_eq, halike.ready_eq]
  stands := fun hintact => simulation.notify_stands (halike.stands hintact) call

/-- Both systems correspond after several calls. -/
theorem callAll (halike : simulation.Alike intact system copy) (calls : List Call) :
    simulation.Alike intact (system.callAll calls) (copy.callAll calls) := by
  induction calls generalizing system copy with
  | nil => exact halike
  | cons call calls ih => exact ih (halike.call call)

/-- Both systems correspond after a party has been called. -/
theorem callParty (halike : simulation.Alike intact system copy) (party : Party) :
    simulation.Alike intact (system.callParty party) (copy.callParty party) := by
  cases party with
  | front =>
    refine { halike with called_eq := ?_ }
    obtain ⟨hnone, hotherNone⟩ | ⟨run, otherRun, hruns, hsome, hotherSome⟩ := halike.front_cases
    · rw [System.callParty, System.callParty, hnone, hotherNone, halike.called_eq]
    · rw [System.callParty, System.callParty, hsome, hotherSome, halike.called_eq]
      rfl
  | task id =>
    have hids : system.tasks.map (·.id) = copy.tasks.map (·.id) :=
      halike.tasks_map_eq fun _ _ htask => htask.id_eq
    have hany : (system.tasks.any fun task => task.id = id) =
        copy.tasks.any fun task => task.id = id := calc
      (system.tasks.any fun task => task.id = id) =
          (system.tasks.map (·.id)).any (fun number => number = id) := by
        rw [List.any_map]
        rfl
      _ = (copy.tasks.map (·.id)).any (fun number => number = id) := by rw [hids]
      _ = copy.tasks.any fun task => task.id = id := by
        rw [List.any_map]
        rfl
    rw [System.callParty, System.callParty, hany]
    split
    · exact { halike with ready_eq := congrArg (enlist id) halike.ready_eq }
    · exact halike
  | member crowd index => exact halike.call _

/-- Both systems correspond after those who have put a wait off have been called. -/
theorem resume (halike : simulation.Alike intact system copy) :
    simulation.Alike intact system.resume copy.resume := by
  have hparties : ∀ (parties : List Party) {system : System tree} {copy : System other},
      simulation.Alike intact system copy →
        simulation.Alike intact (parties.foldl System.callParty system)
          (parties.foldl System.callParty copy) := by
    intro parties
    induction parties with
    | nil => exact fun halike => halike
    | cons party parties ih => exact fun halike => ih (halike.callParty party)
  rw [System.resume, System.resume, halike.world_eq]
  exact hparties _ ⟨halike.memory, rfl, halike.front, halike.called_eq, halike.tasks,
    halike.ready_eq, halike.stands⟩

/-- Both systems correspond after the clock has moved. -/
theorem moveClock (halike : simulation.Alike intact system copy) (time : Nat) :
    simulation.Alike intact (system.moveClock time) (copy.moveClock time) := by
  rw [System.moveClock, System.moveClock, halike.world_eq, halike.timers_eq]
  have hmoved : simulation.Alike intact
      { system with world := { copy.world with now := max copy.world.now time, results := [] } }
      { copy with world := { copy.world with now := max copy.world.now time, results := [] } } :=
    ⟨halike.memory, rfl, halike.front, halike.called_eq, halike.tasks, halike.ready_eq,
      halike.stands⟩
  exact hmoved.callAll _

/-- If nothing is in the foreground of the one system, then so it is in the other. -/
theorem front_eq_none (halike : simulation.Alike intact system copy)
    (hfront : system.front = none) : copy.front = none := by
  obtain ⟨_, hother⟩ | ⟨run, _, _, hsome, _⟩ := halike.front_cases
  · exact hother
  · cases hfront.symm.trans hsome

/-- Both systems correspond after they have been refreshed. -/
theorem refreshed (halike : simulation.Alike intact system copy) (hfront : system.front = none) :
    simulation.Alike intact system.refreshed copy.refreshed := by
  have hempty : system.tasks.isEmpty = copy.tasks.isEmpty := by
    have htasks := halike.tasks
    generalize system.tasks = tasks, copy.tasks = copies at htasks
    cases htasks <;> rfl
  rw [System.refreshed, System.refreshed, hempty, halike.world_eq]
  split
  · refine ⟨halike.memory, rfl, .none, rfl, .nil, rfl, fun hintact => ?_⟩
    have hstands := halike.stands hintact
    rw [hfront, halike.front_eq_none hfront] at hstands
    exact hstands
  · exact halike

/-! ## Turns -/

variable {ρ τ : Type}

/-- What a turn leaves behind, before its own execution is put back. -/
theorem absorb (halike : simulation.Alike intact system copy) {results : ρ → τ → Prop}
    {progress : Progress ρ (Memory tree)} {otherProgress : Progress τ (Memory other)}
    (hrelates : simulation.Relates results progress otherProgress) {later : Prop}
    (hstands : later →
      simulation.stands system.front copy.front progress.memory otherProgress.memory) :
    simulation.Alike later (system.absorb progress) (copy.absorb otherProgress) where
  memory := hrelates.memory
  world_eq := hrelates.world_eq
  front := halike.front
  called_eq := halike.called_eq
  tasks := by
    refine List.rel_append halike.tasks (List.rel_map (fun spawn other hspawn => ?_)
      hrelates.spawned)
    exact ⟨hspawn.1, hspawn.2, rfl⟩
  ready_eq := by
    have hstarted : List.Forall₂ Eq (progress.spawned.map (·.task))
        (otherProgress.spawned.map (·.task)) :=
      List.rel_map (fun _ _ hspawn => hspawn.1) hrelates.spawned
    rw [List.forall₂_eq_eq_eq] at hstarted
    rw [System.absorb, System.absorb, halike.ready_eq, hstarted]
  stands := hstands

/-- Both systems correspond after a task has been parked. -/
theorem park (halike : simulation.Alike intact system copy) (id : Nat) (run : Run)
    (again : Bool) :
    simulation.Alike intact (system.park id run again) (copy.park id run again) where
  memory := halike.memory
  world_eq := halike.world_eq
  front := halike.front
  called_eq := halike.called_eq
  tasks := by
    refine List.rel_map (fun task copy htask => ?_) halike.tasks
    by_cases hid : copy.id = id
    · rw [if_pos hid, if_pos (htask.id_eq.trans hid)]
      exact ⟨htask.id_eq, htask.position, rfl⟩
    · rw [if_neg hid, if_neg (hid <| htask.id_eq.symm.trans ·)]
      exact htask
  ready_eq := by rw [System.park, System.park, halike.ready_eq]
  stands := halike.stands

/-- Both systems correspond after a task has been concluded. -/
theorem conclude (halike : simulation.Alike intact system copy) (id : Nat)
    (result : Option Status) :
    simulation.Alike intact (system.conclude id result) (copy.conclude id result) := by
  have htasks : List.Forall₂ simulation.Tasks (system.tasks.filter fun task => task.id != id)
      (copy.tasks.filter fun task => task.id != id) := by
    refine List.rel_filter (fun task copy htask => ?_) halike.tasks
    exact Bool.eq_iff_iff.mp (congrArg (· != id) htask.id_eq)
  rw [System.conclude, System.conclude, halike.world_eq]
  have hended : simulation.Alike intact
      { system with
        tasks := system.tasks.filter fun task => task.id != id
        world := { copy.world with results := copy.world.results ++ [(id, result)] } }
      { copy with
        tasks := copy.tasks.filter fun task => task.id != id
        world := { copy.world with results := copy.world.results ++ [(id, result)] } } :=
    ⟨halike.memory, rfl, halike.front, halike.called_eq, htasks, halike.ready_eq, halike.stands⟩
  exact hended.call _

/-- Both systems correspond after the turns of corresponding tasks. -/
theorem afterTurn (halike : simulation.Alike intact system copy) {task otherTask : Task}
    (htask : simulation.Tasks task otherTask) :
    simulation.Steps intact (system.afterTurn task, (system.turnOfTask task).progress.journal)
      (copy.afterTurn otherTask, (copy.turnOfTask otherTask).progress.journal) := by
  have hrelates : simulation.Relates Eq (system.turnOfTask task).progress
      (copy.turnOfTask otherTask).progress := by
    have hturn := simulation.task halike.memory htask.position task.run
      (system.world.beginTurn (.task task.id))
    rw [Turn.progress, Turn.progress, System.turnOfTask, System.turnOfTask]
    dsimp only
    rwa [← halike.world_eq, ← htask.id_eq, ← htask.run_eq]
  have hstands : intact → simulation.stands system.front copy.front
      (system.turnOfTask task).progress.memory (copy.turnOfTask otherTask).progress.memory := by
    intro hintact
    have hturn := simulation.task_stands (halike.stands hintact) htask.position task.run
      (system.world.beginTurn (.task task.id))
    rw [Turn.progress, Turn.progress, System.turnOfTask, System.turnOfTask]
    dsimp only
    rwa [← halike.world_eq, ← htask.id_eq, ← htask.run_eq]
  have habsorbed := halike.absorb hrelates hstands
  refine ⟨?_, hrelates.journal⟩
  dsimp only
  rw [System.afterTurn, System.afterTurn, ← hrelates.result, ← hrelates.again_eq, ← htask.id_eq]
  split
  · exact habsorbed.park _ _ _
  · exact habsorbed.conclude _ _
  · exact habsorbed.conclude _ _

/-- Both systems correspond after the turn of the task with a number. -/
theorem runTask (halike : simulation.Alike intact system copy) (id : Nat) :
    simulation.Steps intact (system.runTask id) (copy.runTask id) := by
  have hfound := halike.task? id
  cases htask : system.task? id with
  | none =>
    rw [htask] at hfound
    cases hotherTask : copy.task? id with
    | none =>
      rw [System.runTask_of_none htask, System.runTask_of_none hotherTask]
      exact ⟨halike, .nil⟩
    | some otherTask =>
      rw [hotherTask] at hfound
      cases hfound
  | some task =>
    rw [htask] at hfound
    cases hotherTask : copy.task? id with
    | none =>
      rw [hotherTask] at hfound
      cases hfound
    | some otherTask =>
      rw [hotherTask] at hfound
      cases hfound with
      | some hfound =>
        rw [System.runTask_of_some htask, System.runTask_of_some hotherTask]
        exact halike.afterTurn hfound

/-- Both systems correspond after the turns of several tasks. -/
theorem runTasks (halike : simulation.Alike intact system copy) (count : Nat) :
    simulation.Steps intact (system.runTasks count) (copy.runTasks count) := by
  induction count generalizing system copy with
  | zero => exact ⟨halike, .nil⟩
  | succ count ih =>
    rw [System.runTasks, System.runTasks, halike.ready_eq]
    split
    · exact ⟨halike, .nil⟩
    · next id rest hready =>
      have hrest : simulation.Alike intact { system with ready := rest }
          { copy with ready := rest } :=
        ⟨halike.memory, halike.world_eq, halike.front, halike.called_eq, halike.tasks, rfl,
          halike.stands⟩
      have hfirst := hrest.runTask id
      have hothers := ih hfirst.alike
      exact ⟨hothers.alike, hfirst.journal.append hothers.journal⟩

/-- Both systems correspond after a round. -/
theorem round (halike : simulation.Alike intact system copy) :
    simulation.Steps intact system.round copy.round := by
  have htasks := halike.runTasks roundLength
  exact ⟨htasks.alike.resume, htasks.journal⟩

/-- Both systems correspond after the rounds until nobody is called. -/
theorem settleWith (halike : simulation.Alike intact system copy) (fuel : Nat) :
    simulation.Steps intact (System.settleWith fuel system) (System.settleWith fuel copy) := by
  induction fuel generalizing system copy with
  | zero => exact ⟨halike, .nil⟩
  | succ fuel ih =>
    rw [System.settleWith, System.settleWith, halike.ready_eq]
    split
    · exact ⟨halike, .nil⟩
    · have hround := halike.round
      have hothers := ih hround.alike
      exact ⟨hothers.alike, hround.journal.append hothers.journal⟩

end Alike

/-! ## Executions -/

variable (simulation) in
/-- Two executions that come equally far, in systems in which everything corresponds. -/
structure Executes {ρ τ : Type} (results : ρ → τ → Prop) (intact : ρ → Prop)
    (executed : ρ × System tree × Journal) (copy : τ × System other × Journal) : Prop where
  /-- The results correspond. -/
  result : results executed.1 copy.1
  /-- Everything corresponds afterwards. -/
  alike : simulation.Alike (intact executed.1) executed.2.1 copy.2.1
  /-- The journals say the same. -/
  journal : simulation.Journals executed.2.2 copy.2.2

namespace Alike

/-- Both systems correspond after a turn of the foreground, unless it fails. -/
theorem runFront (halike : simulation.Alike True system copy) :
    simulation.Executes (Outcome.Like id simulation.runs) Outcome.IsSound system.runFront
      copy.runFront := by
  have hstands := halike.stands trivial
  have hrelates : simulation.Relates (Outcome.Like id simulation.runs) system.frontTurn
      copy.frontTurn := by
    rw [System.frontTurn, System.frontTurn, ← halike.world_eq]
    exact simulation.front hstands _
  have hlater : system.frontTurn.result.IsSound → simulation.stands system.frontTurn.result.run?
      copy.frontTurn.result.run? system.frontTurn.memory copy.frontTurn.memory := by
    rw [System.frontTurn, System.frontTurn, ← halike.world_eq]
    exact simulation.front_stands hstands _
  have habsorbed := halike.absorb hrelates False.elim
  rw [System.runFront_eq, System.runFront_eq, hrelates.result.isSome_run?, hrelates.again_eq]
  exact ⟨hrelates.result, ⟨habsorbed.memory, habsorbed.world_eq, hrelates.result.run?, rfl,
    habsorbed.tasks, habsorbed.ready_eq, hlater⟩, hrelates.journal⟩

/-- Both systems have something to do after a round, and correspond then, or neither has. -/
theorem afterRound? (halike : simulation.Alike intact system copy) :
    Option.Rel (simulation.Alike intact) system.afterRound? copy.afterRound? := by
  have hround := halike.round.alike
  rw [System.afterRound?, System.afterRound?, hround.isIdle_eq, hround.nextDue?_eq]
  split
  · cases copy.round.1.nextDue? with
    | none => exact .none
    | some time => exact .some (hround.moveClock time)
  · exact .some hround

/-- Both systems correspond after the foreground has been given up. -/
theorem givenUp {later : Prop} (halike : simulation.Alike intact system copy) (hlost : ¬ later) :
    simulation.Alike later { system with front := none } { copy with front := none } :=
  ⟨halike.memory, halike.world_eq, .none, halike.called_eq, halike.tasks, halike.ready_eq,
    fun hlater => absurd hlater hlost⟩

/-- Both systems complete an execution in the same way. -/
theorem complete (fuel : Nat) {outcome otherOutcome : Outcome}
    (halike : simulation.Alike outcome.IsSound system copy)
    (hlike : Outcome.Like id simulation.runs outcome otherOutcome) :
    simulation.Executes Eq (fun result => ∀ fault, result ≠ .error fault)
      (System.complete fuel outcome system) (System.complete fuel otherOutcome copy) := by
  have hfailed : ∀ fault, ¬ ∀ other, (.error fault : Except Fault Status) ≠ .error other :=
    fun fault hanswer => hanswer fault rfl
  induction fuel generalizing outcome otherOutcome system copy with
  | zero =>
    cases hlike with
    | answered status => exact ⟨rfl, halike.imp fun _ => nofun, .nil⟩
    | failed fault => exact ⟨rfl, halike.imp fun hanswer => absurd hanswer (hfailed fault), .nil⟩
    | waiting hruns => exact ⟨rfl, halike.givenUp (hfailed .endless), .nil⟩
  | succ fuel ih =>
    cases hlike with
    | answered status => exact ⟨rfl, halike.imp fun _ => nofun, .nil⟩
    | failed fault => exact ⟨rfl, halike.imp fun hanswer => absurd hanswer (hfailed fault), .nil⟩
    | @waiting run otherRun hruns =>
      have hintact : simulation.Alike True system copy := halike.imp fun _ => nofun
      have hround := hintact.round
      have hnext := hintact.afterRound?
      rw [System.complete_waiting, System.complete_waiting]
      generalize system.afterRound? = next, copy.afterRound? = otherNext at hnext
      cases hnext with
      | none => exact ⟨rfl, hround.alike.givenUp (hfailed .endless), hround.journal⟩
      | @some next otherNext hnext =>
        dsimp only
        rw [hnext.called_eq]
        cases otherNext.called with
        | true =>
          have hfront := hnext.runFront
          have hothers := ih hfront.alike hfront.result
          exact ⟨hothers.result, hothers.alike,
            hround.journal.append (hfront.journal.append hothers.journal)⟩
        | false =>
          have hothers := ih (hnext.imp fun _ => trivial) (.waiting hruns)
          exact ⟨hothers.result, hothers.alike,
            hround.journal.append (.append .nil hothers.journal)⟩

/-- Both systems execute their roots in the same way within a bound. -/
theorem executeWithin (halike : simulation.Alike True system copy) (hidle : system.front = none)
    (patience : Patience) :
    simulation.Executes Eq (fun result => ∀ fault, result ≠ .error fault)
      (system.executeWithin patience) (copy.executeWithin patience) := by
  have hfront := (halike.refreshed hidle).runFront
  have hothers := hfront.alike.complete (patience system.refreshed.runFront.2.1.tasks.length)
    hfront.result
  rw [System.executeWithin_eq, System.executeWithin_eq]
  dsimp only
  rw [← hfront.alike.tasks.length_eq]
  exact ⟨hothers.result, hothers.alike, hfront.journal.append hothers.journal⟩

/-- Both systems correspond after time has passed within a bound. -/
theorem passToWithin (halike : simulation.Alike intact system copy) (patience : Patience)
    (target fuel : Nat) :
    simulation.Steps intact (System.passToWithin patience target fuel system)
      (System.passToWithin patience target fuel copy) := by
  induction fuel generalizing system copy with
  | zero => exact ⟨halike.moveClock target, .nil⟩
  | succ fuel ih =>
    have hsettled := halike.settleWith (patience system.tasks.length)
    rw [System.passToWithin, System.passToWithin, ← halike.tasks.length_eq]
    dsimp only
    rw [hsettled.alike.nextDue?_eq]
    split
    · next time hdue =>
      split
      · have hothers := ih (hsettled.alike.moveClock time)
        exact ⟨hothers.alike, hsettled.journal.append hothers.journal⟩
      · exact ⟨hsettled.alike.moveClock target, hsettled.journal⟩
    · exact ⟨hsettled.alike.moveClock target, hsettled.journal⟩

end Alike

/-! ## Histories -/

variable (simulation) in
/-- Two responses that are the same but for the shape of their journals. -/
structure Responses (response copy : Response) : Prop where
  /-- The answers are the same. -/
  result_eq : response.result = copy.result
  /-- The contexts are the same. -/
  context_eq : response.context = copy.context
  /-- The journals say the same. -/
  journal : simulation.Journals response.journal copy.journal

variable (simulation) in
/-- Two steps of histories that correspond. -/
structure Sees (intact : Prop) (step : Response × System tree) (copy : Response × System other) :
    Prop where
  /-- The responses correspond. -/
  response : simulation.Responses step.1 copy.1
  /-- Everything corresponds afterwards. -/
  alike : simulation.Alike intact step.2 copy.2
  /-- Nothing waits in the foreground of the first system. -/
  idle : step.2.front = none

namespace Alike

/-- An abort or a reset that corresponds leaves both systems corresponding. -/
theorem control (halike : simulation.Alike intact system copy) (hidle : system.front = none)
    {control : Memory tree × Journal} {other : Memory other × Journal}
    (hcontrols : simulation.Controls control other)
    (hstands : simulation.stands none none system.memory copy.memory →
      simulation.stands none none control.1 other.1) :
    simulation.Sees intact
      (⟨none, control.2, { system with memory := control.1 }.rootContext⟩,
        { system with memory := control.1 })
      (⟨none, other.2, { copy with memory := other.1 }.rootContext⟩,
        { copy with memory := other.1 }) := by
  have hlater : simulation.Alike intact { system with memory := control.1 }
      { copy with memory := other.1 } := by
    refine { halike with memory := hcontrols.memory, stands := fun hintact => ?_ }
    have hbefore := halike.stands hintact
    rw [hidle, halike.front_eq_none hidle] at hbefore ⊢
    exact hstands hbefore
  exact ⟨⟨rfl, hlater.rootContext_eq, hcontrols.journal⟩, hlater, hidle⟩

/-- Both systems show the same in an operation within a bound. -/
theorem steps (halike : simulation.Alike True system copy) (hidle : system.front = none)
    (patience : Patience) (operation : Operation) :
    simulation.Sees (system.responseWithin patience operation).IsSound
      (system.responseWithin patience operation, system.nextWithin patience operation)
      (copy.responseWithin patience operation, copy.nextWithin patience operation) := by
  cases operation with
  | execute =>
    have hexecuted := halike.executeWithin hidle patience
    have hlater : simulation.Alike (system.responseWithin patience .execute).IsSound
        (system.nextWithin patience .execute) (copy.nextWithin patience .execute) := by
      refine hexecuted.alike.imp fun hsound fault hfault => ?_
      exact hsound fault (congrArg some hfault)
    exact ⟨⟨congrArg some hexecuted.result, hlater.rootContext_eq, hexecuted.journal⟩, hlater,
      System.front_nextWithin hidle patience .execute⟩
  | abort =>
    have hcontrols : simulation.Controls (system.memory.abort system.world.now)
        (copy.memory.abort copy.world.now) := by
      rw [← halike.world_eq]
      exact simulation.abort halike.memory system.world.now
    refine (halike.imp fun _ => trivial).control hidle hcontrols fun hstands => ?_
    rw [← halike.world_eq]
    exact simulation.abort_stands hstands system.world.now
  | reset =>
    have hcontrols : simulation.Controls (system.memory.reset system.world.now)
        (copy.memory.reset copy.world.now) := by
      rw [← halike.world_eq]
      exact simulation.reset halike.memory system.world.now
    refine (halike.imp fun _ => trivial).control hidle hcontrols fun hstands => ?_
    rw [← halike.world_eq]
    exact simulation.reset_stands hstands system.world.now
  | pass duration =>
    have hpassed := halike.passToWithin patience (system.world.now + duration)
      (patience system.tasks.length)
    have hcopy : System.passToWithin patience (system.world.now + duration)
        (patience system.tasks.length) copy = copy.passWithin patience duration := by
      rw [System.passWithin, halike.world_eq, halike.tasks.length_eq]
    rw [hcopy] at hpassed
    exact ⟨⟨rfl, hpassed.alike.rootContext_eq, hpassed.journal⟩, hpassed.alike.imp fun _ => trivial,
      System.front_nextWithin hidle patience (.pass duration)⟩

/-- What is seen of the one tree is seen of the other, up to the first execution that fails. -/
theorem untilFault (halike : simulation.Alike True system copy) (hidle : system.front = none)
    (patience : Patience) (operations : List Operation) :
    UntilFault (fun step other => simulation.Sees step.1.IsSound step other)
      (system.historyWithin patience operations) (copy.historyWithin patience operations) := by
  induction operations generalizing system copy with
  | nil => exact .nil
  | cons operation operations ih =>
    have hstep := halike.steps hidle patience operation
    exact .cons hstep fun hsound => ih (hstep.alike.imp fun _ => hsound) hstep.idle

/-- What is seen of the one tree is seen of the other, whatever is done with them. -/
theorem historyWithin (hsteady : simulation.IsSteady) (halike : simulation.Alike True system copy)
    (hidle : system.front = none) (patience : Patience) (operations : List Operation) :
    List.Forall₂ (simulation.Sees True) (system.historyWithin patience operations)
      (copy.historyWithin patience operations) := by
  induction operations generalizing system copy with
  | nil => exact .nil
  | cons operation operations ih =>
    have hstep := halike.steps hidle patience operation
    have hlater := hstep.alike.sound hsteady
    exact .cons ⟨hstep.response, hlater, hstep.idle⟩ (ih hlater hstep.idle)

/-- If the one system takes its time, then so does the other, and the bound does not matter. -/
theorem history (hsteady : simulation.IsSteady) (halike : simulation.Alike True system copy)
    (hidle : system.front = none) {operations : List Operation}
    (hpatient : system.IsPatient operations) (hspan : tree.span ≤ other.span) :
    List.Forall₂ (simulation.Sees True) (system.history operations) (copy.history operations) := by
  have hseen := halike.historyWithin hsteady hidle (System.ownPatience other) operations
  rwa [hpatient _ (System.ownPatience_le hspan), ← System.history_eq] at hseen

end Alike

end Simulation

end BehaviorTree
