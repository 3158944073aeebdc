import BehaviorTree.Proofs.Schedule.Invariant
import BehaviorTree.Proofs.Tree.Calls
import BehaviorTree.Proofs.Tree.Numbering

/-!
# Tasks and timers have numbers of their own

A task that is under way, one whose result is noted and a timer that a task waits for have numbers
that have been given away, so a new number is nobody else's. One timer may be the foreground's own:
no task waits for it, and none ever will (`System.endures_numbered`).
-/

namespace BehaviorTree

variable {κ : Type} [Application κ] {tree : Tree κ}

/-- A call changes none of the timers that a task waits for. -/
theorem Task.timers_notify (task : Task) (call : Call) :
    (task.notify call).timers = task.timers := by
  obtain ⟨id, path, run⟩ := task
  cases run with
  | none => rfl
  | some run => exact BehaviorTree.timers_notify call run

/-- Timers that are among so many, and none of which is the foreground's own. -/
def Timer.AreNumbered (started : Nat) (own : Option Nat) (timers : List Timer) : Prop :=
  ∀ timer ∈ timers, ∀ order, timer.order = some order → order < started ∧ own ≠ some order

/-- A task below the root that is among so many, as are the timers that it waits for. -/
structure Task.IsNumbered (tasksStarted timersStarted : Nat) (own : Option Nat) (task : Task) :
    Prop where
  /-- The task has been given its number. -/
  id_lt : task.id < tasksStarted
  /-- It executes a tree below the root. -/
  path_ne_nil : task.path ≠ []
  /-- The timers that it waits for have been given their numbers, and none is the foreground's. -/
  timers : Timer.AreNumbered timersStarted own task.timers

namespace Task

variable {tasksStarted timersStarted : Nat} {own : Option Nat} {task : Task}

/-- A task that has not begun waits for no timers. -/
theorem isNumbered_fresh {id : Nat} {path : Path} (hid : id < tasksStarted) (hpath : path ≠ []) :
    Task.IsNumbered tasksStarted timersStarted own ⟨id, path, none⟩ where
  id_lt := hid
  path_ne_nil := hpath
  timers := List.forall_mem_nil _

/-- A task keeps its number while more numbers are given away. -/
theorem IsNumbered.mono {tasksLater timersLater : Nat}
    (hnumbered : task.IsNumbered tasksStarted timersStarted own)
    (htasks : tasksStarted ≤ tasksLater) (htimers : timersStarted ≤ timersLater) :
    task.IsNumbered tasksLater timersLater own where
  id_lt := Nat.lt_of_lt_of_le hnumbered.id_lt htasks
  path_ne_nil := hnumbered.path_ne_nil
  timers := fun timer hmem order horder =>
    (hnumbered.timers timer hmem order horder).imp_left (Nat.lt_of_lt_of_le · htimers)

/-- A task keeps its number after a call. -/
theorem IsNumbered.notify (hnumbered : task.IsNumbered tasksStarted timersStarted own)
    (call : Call) : (task.notify call).IsNumbered tasksStarted timersStarted own := by
  refine ⟨hnumbered.id_lt, hnumbered.path_ne_nil, ?_⟩
  rw [timers_notify]
  exact hnumbered.timers

end Task

namespace System

/-- Every task and every timer that a task waits for has been given its number, and so has the timer
of the foreground, if it has one. Tasks are below the root. The foreground has put nothing off. -/
structure IsNumbered (system : System tree) (own : Option Nat) : Prop where
  /-- Every task is numbered. -/
  tasks : ∀ task ∈ system.tasks,
    task.IsNumbered system.world.tasksStarted system.world.timersStarted own
  /-- The timer of the foreground has been given its number. -/
  own_lt : ∀ order, own = some order → order < system.world.timersStarted
  /-- A result is that of a task that has been given its number. -/
  result_lt : ∀ ended ∈ system.world.results, ended.1 < system.world.tasksStarted
  /-- The foreground has put no wait off. -/
  putOff : .front ∉ system.world.putOff

variable {system : System tree} {own : Option Nat}

namespace IsNumbered

/-- The number of the next task is not that of a task that has ended. -/
theorem result?_eq_none (hnumbered : system.IsNumbered own) :
    system.world.result? system.world.tasksStarted = none := by
  rw [World.result?, List.lookup_eq_none_iff]
  intro ended hmem
  have hlt := hnumbered.result_lt ended hmem
  simp
  omega

/-- The number of the next task is not that of a task that is under way. -/
theorem task?_eq_none (hnumbered : system.IsNumbered own) :
    system.task? system.world.tasksStarted = none := by
  rw [task?, List.find?_eq_none]
  intro task hmem
  have hlt := (hnumbered.tasks task hmem).id_lt
  simp
  omega

/-- No task awaits the call of the foreground's own timer. -/
theorem awaits_eq_false {order : Nat} (hnumbered : system.IsNumbered (some order)) {task : Task}
    (hmem : task ∈ system.tasks) : task.awaits (.due order) = false := by
  rw [Bool.eq_false_iff]
  intro hawaits
  obtain ⟨run, hrun, hawaits⟩ : ∃ run, task.run = some run ∧ run.awaits (.due order) = true := by
    simpa [Task.awaits, Option.any_eq_true] using hawaits
  obtain ⟨timer, htimer, horder⟩ := exists_timer_of_awaits run hawaits
  have htimers : task.timers = run.timers := by rw [Task.timers, hrun]; rfl
  have hnumbers := (hnumbered.tasks task hmem).timers timer (htimers ▸ htimer) order horder
  exact hnumbers.2 rfl

/-- The system is numbered after a call. -/
theorem call (hnumbered : system.IsNumbered own) (call : Call) :
    (system.call call).IsNumbered own := by
  refine ⟨fun task hmem => ?_, hnumbered.own_lt, hnumbered.result_lt, hnumbered.putOff⟩
  obtain ⟨before, hbefore, rfl⟩ := List.mem_map.mp hmem
  exact (hnumbered.tasks before hbefore).notify call

/-- A stretch of execution takes new numbers only. -/
theorem absorb (hnumbered : system.IsNumbered own) {progress : Progress Outcome (Memory tree)}
    {held : List Timer} {party : Party}
    (hnumbers : progress.Numbers Outcome.timers held (system.world.beginTurn party))
    (hputOff : .front ∉ progress.world.putOff) : (system.absorb progress).IsNumbered own := by
  have hgrows := hnumbers.grows
  refine ⟨fun task hmem => ?_,
    fun order hown => Nat.lt_of_lt_of_le (hnumbered.own_lt order hown) hgrows.timers_le,
    fun ended hended => ?_, hputOff⟩
  · rcases List.mem_append.mp hmem with hold | hnew
    · exact (hnumbered.tasks task hold).mono hgrows.tasks_le hgrows.timers_le
    · obtain ⟨spawn, hspawn, rfl⟩ := List.mem_map.mp hnew
      have hstarted := hnumbers.spawned spawn hspawn
      exact Task.isNumbered_fresh hstarted.task_lt hstarted.path_ne_nil
  · have hresults : (system.absorb progress).world.results = system.world.results :=
      hgrows.results_eq
    rw [hresults] at hended
    exact Nat.lt_of_lt_of_le (hnumbered.result_lt ended hended) hgrows.tasks_le

/-- A suspended run waits for timers that have been given their numbers. -/
theorem park (hnumbered : system.IsNumbered own) (id : Nat) (run : Run) (again : Bool)
    (htimers : Timer.AreNumbered system.world.timersStarted own run.timers) :
    (system.park id run again).IsNumbered own := by
  refine ⟨fun task hmem => ?_, hnumbered.own_lt, hnumbered.result_lt, hnumbered.putOff⟩
  obtain ⟨before, hbefore, rfl⟩ := List.mem_map.mp hmem
  have hnumberedBefore := hnumbered.tasks before hbefore
  split
  · exact ⟨hnumberedBefore.id_lt, hnumberedBefore.path_ne_nil, htimers⟩
  · exact hnumberedBefore

/-- The system is numbered after a task has been concluded. -/
theorem conclude (hnumbered : system.IsNumbered own) {id : Nat}
    (hid : id < system.world.tasksStarted) (result : Option Status) :
    (system.conclude id result).IsNumbered own := by
  refine IsNumbered.call ?_ (.ended id)
  refine ⟨fun task hmem => hnumbered.tasks task (List.mem_filter.mp hmem).1, hnumbered.own_lt,
    fun ended hended => ?_, hnumbered.putOff⟩
  rcases List.mem_append.mp hended with hended | hended
  · exact hnumbered.result_lt ended hended
  · rw [List.mem_singleton.mp hended]
    exact hid

/-- What a turn waits for afterwards has been given its number, and it is not the foreground's. -/
theorem areNumbered (hnumbered : system.IsNumbered own)
    {progress : Progress Outcome (Memory tree)} {held : List Timer} {party : Party}
    (hnumbers : progress.Numbers Outcome.timers held (system.world.beginTurn party))
    (hheld : Timer.AreNumbered system.world.timersStarted own held) {run : Run}
    (hresult : progress.result = .waiting run) :
    Timer.AreNumbered progress.world.timersStarted own run.timers := by
  intro timer htimer order horder
  have hwaits : timer ∈ Outcome.timers progress.result := by rw [hresult]; exact htimer
  rcases hnumbers.timers timer hwaits with hold | ⟨started, hstarted, hle, hlt⟩
  · have hbefore := hheld timer hold order horder
    exact ⟨Nat.lt_of_lt_of_le hbefore.1 hnumbers.grows.timers_le, hbefore.2⟩
  · obtain rfl : started = order := Option.some.inj (hstarted.symm.trans horder)
    refine ⟨hlt, fun hown => ?_⟩
    exact Nat.lt_irrefl _ (Nat.lt_of_lt_of_le (hnumbered.own_lt started hown) hle)

/-- The system is numbered after the turn of a task. -/
theorem afterTurn (hnumbered : system.IsNumbered own) {task : Task}
    (htask : system.task? task.id = some task) : (system.afterTurn task).IsNumbered own := by
  have hbefore := hnumbered.tasks task (List.mem_of_find?_eq_some htask)
  have hnumbers : (system.turnOfTask task).progress.Numbers Outcome.timers task.timers
      (system.world.beginTurn (.task task.id)) := numbers_advanceAt task.path task.run _ _
  have hputOff : .front ∉ (system.turnOfTask task).progress.world.putOff := by
    intro hfront
    rcases hnumbers.grows.putOff .front hfront with hold | hpresent | ⟨crowd, index, hmember⟩
    · exact hnumbered.putOff hold
    · cases hpresent
    · cases hmember
  have habsorbed := hnumbered.absorb hnumbers hputOff
  have hid : task.id < (system.absorb (system.turnOfTask task).progress).world.tasksStarted :=
    Nat.lt_of_lt_of_le hbefore.id_lt hnumbers.grows.tasks_le
  rw [System.afterTurn]
  split
  · next run hresult =>
    exact habsorbed.park _ run _ (hnumbered.areNumbered hnumbers hbefore.timers hresult)
  · exact habsorbed.conclude hid _
  · exact habsorbed.conclude hid _

/-- A turn of the foreground that puts nothing off takes new numbers only. -/
theorem runFront (hnumbered : system.IsNumbered own)
    (hputOff : .front ∉ system.frontTurn.world.putOff) : system.runFront.2.1.IsNumbered own := by
  have habsorbed := hnumbered.absorb (numbers_advance tree system.front system.memory
    (system.world.beginTurn .front)) hputOff
  rw [runFront_eq]
  exact { habsorbed with }

end IsNumbered

/-- Whatever happens while time passes, numbers are not given away twice, and nothing runs but trees
below the root. -/
theorem endures_numbered (own : Option Nat) :
    Endures (fun system : System tree => system.IsNumbered own) (fun turn => turn.path ≠ [])
      (fun _ => False) where
  call := fun _ call hnumbered => hnumbered.call call
  callFront := fun _ hnumbered => { hnumbered with }
  ready := fun _ _ hnumbered => { hnumbered with }
  served := fun _ hnumbered => { hnumbered with putOff := List.not_mem_nil }
  clock := fun _ _ _ hnumbered => { hnumbered with result_lt := nofun }
  turn := by
    intro system task htask hnumbered
    have hbelow := (hnumbered.tasks task (List.mem_of_find?_eq_some htask)).path_ne_nil
    exact .inl ⟨hbelow, hnumbered.afterTurn htask⟩

end System

end BehaviorTree
