import BehaviorTree.Proofs.Schedule.Calling
import BehaviorTree.Proofs.Schedule.Numbering
import BehaviorTree.Proofs.Tree.Race

/-!
# Waiting for a task in the foreground

An execution that waits in the foreground for a task, or for its own timer, changes nothing for the
tasks: they run as they would run if nobody waited (`System.round_watched`). The execution is called
when the task has ended (`System.afterRound?_watched_joined`) or when the time of its timer has come
(`System.afterRound?_watched_due`).
-/

namespace BehaviorTree

open Timeout

variable {κ : Type} [Application κ] {tree : Tree κ}

/-! ## What a race awaits -/

namespace Timeout

variable {task due order : Nat}

/-- A race awaits the call of its timer. -/
theorem racing_awaits_due (called : Nat) :
    (racing task due order).awaits (.due called) = decide (order = called) := by
  simp [racing, Run.awaits, Pause.awaits, Pause.timer]

/-- A race awaits the call for the end of its task. -/
theorem racing_awaits_ended (id : Nat) :
    (racing task due order).awaits (.ended id) = decide (task = id) := by
  simp [racing, Run.awaits, Pause.awaits]

/-- A race awaits no call for a child of a crowd. -/
theorem racing_awaits_turn (crowd index : Nat) :
    (racing task due order).awaits (.turn crowd index) = false := by
  simp [racing, Run.awaits, Pause.awaits]

/-- A race stays as it is when it is notified of a call. -/
theorem notify_racing (call : Call) :
    (racing task due order).notify call = racing task due order := by
  rw [racing, Run.notify]

end Timeout

namespace System

/-- Nobody waits in the foreground, and one timer is nobody's. -/
structure IsUnattended (system : System tree) (order : Nat) : Prop where
  /-- Numbers are in order, and nobody waits for the timer. -/
  numbered : system.IsNumbered (some order)
  /-- Nothing waits in the foreground. -/
  front_eq : system.front = none
  /-- The foreground has not been called. -/
  called_eq : system.called = false

/-- The same system with an execution that waits in the foreground, and may have been called. -/
def attended (run : Run) (called : Bool) (system : System tree) : System tree :=
  { system with front := some run, called }

/-- The same system with a race in the foreground, which is called when its task has ended. -/
def watched (task due order : Nat) (system : System tree) : System tree :=
  system.attended (racing task due order) (system.world.result? task).isSome

variable {system : System tree} {task due order : Nat} {called : Bool}

/-- Tasks run on unattended, and nothing runs but trees below the root. -/
theorem endures_unattended (order : Nat) :
    Endures (fun system : System tree => system.IsUnattended order) (fun turn => turn.path ≠ [])
      (fun _ => False) where
  call := by
    intro system call ⟨hnumbered, hfront, hcalled⟩
    refine ⟨hnumbered.call call, endures_vacant.call _ call hfront, ?_⟩
    simp [System.call, hfront, hcalled]
  callFront := by
    intro system ⟨hnumbered, hfront, hcalled⟩
    refine ⟨{ hnumbered with }, hfront, ?_⟩
    simp [System.callParty, hfront, hcalled]
  ready := fun _ _ ⟨hnumbered, hfront, hcalled⟩ => ⟨{ hnumbered with }, hfront, hcalled⟩
  served := fun _ ⟨hnumbered, hfront, hcalled⟩ =>
    ⟨{ hnumbered with putOff := List.not_mem_nil }, hfront, hcalled⟩
  clock := fun _ _ _ ⟨hnumbered, hfront, hcalled⟩ =>
    ⟨{ hnumbered with result_lt := nofun }, hfront, hcalled⟩
  turn := by
    intro system task htask ⟨hnumbered, hfront, hcalled⟩
    have hbelow := (hnumbered.tasks task (List.mem_of_find?_eq_some htask)).path_ne_nil
    refine .inl ⟨hbelow, ?_⟩
    refine ⟨hnumbered.afterTurn htask, ?_, ?_⟩
    · rw [afterTurn]
      split
      · exact hfront
      · simp [conclude, System.call, absorb, hfront]
      · simp [conclude, System.call, absorb, hfront]
    · rw [afterTurn]
      split
      · exact hcalled
      · simp [conclude, System.call, absorb, hfront, hcalled]
      · simp [conclude, System.call, absorb, hfront, hcalled]

/-- Nobody waits in the foreground after a round if nobody did before. -/
theorem IsUnattended.round (hunattended : system.IsUnattended order) :
    system.round.1.IsUnattended order :=
  ((endures_unattended order).round hunattended).of_never

/-! ## Calls -/

/-- A call changes the tasks as if nobody waited, and calls the race if it is for it. -/
theorem call_attended (system : System tree) (call : Call) :
    (system.attended (racing task due order) called).call call =
      (system.call call).attended (racing task due order)
        (called || (racing task due order).awaits call) := by
  simp only [attended, System.call, Option.map_some, Option.any_some, notify_racing]

/-- Calls change the tasks as if nobody waited, and call the race if one of them is for it. -/
theorem callAll_attended (system : System tree) (calls : List Call) :
    (system.attended (racing task due order) called).callAll calls =
      (system.callAll calls).attended (racing task due order)
        (called || calls.any (racing task due order).awaits) := by
  induction calls generalizing system called with
  | nil => simp [callAll]
  | cons call calls ih =>
    rw [callAll, List.foldl_cons, call_attended, ← callAll, ih, List.any_cons, Bool.or_assoc]
    rfl

/-- Calling a party other than the foreground does so as if nobody waited. -/
theorem callParty_attended (system : System tree) {party : Party} (hparty : party ≠ .front) :
    (system.attended (racing task due order) called).callParty party =
      (system.callParty party).attended (racing task due order) called := by
  cases party with
  | front => exact absurd rfl hparty
  | task id =>
    have htasks : (system.attended (racing task due order) called).tasks = system.tasks := rfl
    rw [callParty, callParty, htasks]
    split <;> rfl
  | member crowd index =>
    rw [callParty, callParty, call_attended, racing_awaits_turn, Bool.or_false]

/-- Calling those who have put a wait off does so as if nobody waited. -/
theorem resume_attended (hputOff : .front ∉ system.world.putOff) :
    (system.attended (racing task due order) called).resume =
      system.resume.attended (racing task due order) called := by
  have hparties : ∀ (parties : List Party) (system : System tree), .front ∉ parties →
      parties.foldl callParty (system.attended (racing task due order) called) =
        (parties.foldl callParty system).attended (racing task due order) called := by
    intro parties
    induction parties with
    | nil => exact fun _ _ => rfl
    | cons party parties ih =>
      intro system hfront
      rw [List.mem_cons, not_or] at hfront
      rw [List.foldl_cons, callParty_attended system (Ne.symm hfront.1), ih _ hfront.2]
      rfl
  exact hparties _ { system with world := { system.world with putOff := [] } }
    fun hmem => hputOff (List.mem_reverse.mp hmem)

/-! ## Rounds -/

/-- Concluding a task does so as if nobody waited, and calls the race if it is for that task. -/
theorem conclude_attended (system : System tree) (id : Nat) (result : Option Status) :
    (system.attended (racing task due order) called).conclude id result =
      (system.conclude id result).attended (racing task due order)
        (called || decide (task = id)) := by
  let noted : System tree :=
    { system with
      tasks := system.tasks.filter fun task => task.id != id
      world := { system.world with results := system.world.results ++ [(id, result)] } }
  have hcall := @call_attended κ _ tree task due order called noted (.ended id)
  rw [racing_awaits_ended] at hcall
  exact hcall

/-- There is a result of a task if there was one before or the task has just been concluded. -/
theorem result?_conclude (id : Nat) (result : Option Status) :
    ((system.conclude id result).world.result? task).isSome =
      ((system.world.result? task).isSome || decide (task = id)) := by
  have hresults : (system.conclude id result).world.results =
      system.world.results ++ [(id, result)] := rfl
  rw [World.result?, World.result?, hresults, List.lookup_append, Option.isSome_or]
  by_cases hid : task = id
  · simp [hid]
  · have hne : (task == id) = false := by simpa using hid
    simp [List.lookup_cons, hne, hid]

/-- The turn of a task is the same whether it is watched or not. -/
theorem afterTurn_watched (system : System tree) (other : Task) :
    (system.watched task due order).afterTurn other =
      (system.afterTurn other).watched task due order := by
  have hturn : (system.watched task due order).turnOfTask other = system.turnOfTask other := rfl
  have hnumbers : (system.turnOfTask other).progress.Numbers Outcome.timers (timersOf other.run)
      (system.world.beginTurn (.task other.id)) := numbers_advanceAt other.path other.run _ _
  have hresults : (system.turnOfTask other).progress.world.result? task =
      system.world.result? task := by
    rw [World.result?, hnumbers.grows.results_eq]
    rfl
  rw [afterTurn, afterTurn, hturn]
  generalize (system.turnOfTask other).progress = progress at hresults
  have habsorbed : (system.watched task due order).absorb progress =
      (system.absorb progress).watched task due order := by
    rw [watched, watched, absorb, absorb, hresults]
    rfl
  have hconcluded : ∀ result,
      ((system.absorb progress).watched task due order).conclude other.id result =
        ((system.absorb progress).conclude other.id result).watched task due order := by
    intro result
    rw [watched, watched, conclude_attended, result?_conclude]
  rw [habsorbed]
  split
  · rfl
  · exact hconcluded _
  · exact hconcluded _

/-- The tasks are the same whether the race is watched or not. -/
theorem task?_watched (system : System tree) (id : Nat) :
    (system.watched task due order).task? id = system.task? id := rfl

/-- Running a task does the same whether the race is watched or not. -/
theorem runTask_watched (system : System tree) (id : Nat) :
    (system.watched task due order).runTask id =
      ((system.runTask id).1.watched task due order, (system.runTask id).2) := by
  cases hfound : system.task? id with
  | none => rw [runTask_of_none hfound, runTask_of_none ((task?_watched system id).trans hfound)]
  | some other =>
    rw [runTask_of_some hfound, runTask_of_some ((task?_watched system id).trans hfound),
      afterTurn_watched]
    rfl

/-- Running several tasks does the same whether the race is watched or not. -/
theorem runTasks_watched (count : Nat) (system : System tree) :
    (system.watched task due order).runTasks count =
      ((system.runTasks count).1.watched task due order, (system.runTasks count).2) := by
  induction count generalizing system with
  | zero => rfl
  | succ count ih =>
    have hready : (system.watched task due order).ready = system.ready := rfl
    rw [runTasks, runTasks, hready]
    split
    · rfl
    · next id rest _ =>
      have hrest : { system.watched task due order with ready := rest } =
          watched task due order { system with ready := rest } := rfl
      dsimp only
      rw [hrest, runTask_watched, ih]

/-- Calling those who have put a wait off leaves nobody who has put one off. -/
theorem world_resume (system : System tree) :
    system.resume.world = { system.world with putOff := [] } := by
  have hparties : ∀ (parties : List Party) (system : System tree),
      (parties.foldl callParty system).world = system.world := by
    intro parties
    induction parties with
    | nil => exact fun _ => rfl
    | cons party parties ih =>
      intro system
      rw [List.foldl_cons, ih]
      cases party with
      | front => rfl
      | task id =>
        rw [callParty]
        split <;> rfl
      | member crowd index => rfl
  exact hparties _ _

/-- A round goes on as it would if nobody waited for the task. -/
theorem round_watched (hnumbered : system.IsNumbered (some order)) :
    (system.watched task due order).round =
      (system.round.1.watched task due order, system.round.2) := by
  have hputOff : .front ∉ (system.runTasks roundLength).1.world.putOff :=
    ((endures_numbered (some order)).runTasks hnumbered roundLength).of_never.putOff
  have hresult : (system.runTasks roundLength).1.resume.world.result? task =
      (system.runTasks roundLength).1.world.result? task := by
    rw [world_resume]
    rfl
  rw [round, runTasks_watched, round]
  dsimp only
  rw [watched, resume_attended hputOff, watched, hresult]

/-! ## The clock -/

/-- The timer of the race comes before those of the tasks. -/
theorem timers_attended (hfront : system.front = none) :
    (system.attended (racing task due order) called).timers =
      ⟨due, some order⟩ :: system.timers := by
  rw [timers, timers, hfront]
  rfl

/-- No task waits for the timer of the race. -/
theorem timers_ne (hnumbered : system.IsNumbered (some order)) (hfront : system.front = none) :
    ∀ timer ∈ system.timers, timer.order ≠ some order := by
  intro timer hmem horder
  rw [timers, hfront] at hmem
  obtain ⟨other, hother, htimer⟩ := List.mem_flatMap.mp hmem
  exact ((hnumbered.tasks other hother).timers timer htimer order horder).2 rfl

/-- No task takes notice of the call of the timer of the race. -/
theorem notify_own (hnumbered : system.IsNumbered (some order)) {other : Task}
    (hmem : other ∈ system.tasks) : other.notify (.due order) = other := by
  have hawaits := hnumbered.awaits_eq_false hmem
  obtain ⟨id, path, run⟩ := other
  cases run with
  | none => rfl
  | some run => rw [Task.notify, Option.map_some, notify_eq_self run hawaits]

/-- The call of a timer that no task waits for changes nothing. -/
theorem call_own (hnumbered : system.IsNumbered (some order)) (hfront : system.front = none) :
    system.call (.due order) = system := by
  have hnone : system.tasks.filter (·.awaits (.due order)) = [] :=
    List.filter_eq_nil_iff.mpr fun other hmem => by simp [hnumbered.awaits_eq_false hmem]
  have hsame : system.tasks.map (·.notify (.due order)) = system.tasks := by
    calc
      system.tasks.map (·.notify (.due order)) = system.tasks.map id :=
        List.map_congr_left fun other hmem => notify_own hnumbered hmem
      _ = system.tasks := List.map_id _
  obtain ⟨memory, world, front, called, tasks, ready⟩ := system
  obtain rfl : front = none := hfront
  rw [System.call]
  dsimp only at hnone hsame ⊢
  rw [hnone, hsame]
  simp

/-- Without the calls of such a timer the others do the same. -/
theorem callAll_filter_own (hnumbered : system.IsNumbered (some order))
    (hfront : system.front = none) (calls : List Nat) :
    system.callAll (calls.map .due) = system.callAll ((calls.filter (· != order)).map .due) := by
  induction calls generalizing system with
  | nil => rfl
  | cons first calls ih =>
    by_cases hown : first = order
    · subst hown
      rw [List.filter_cons_of_neg (by simp), List.map_cons, callAll, List.foldl_cons, ← callAll,
        call_own hnumbered hfront]
      exact ih hnumbered hfront
    · rw [List.filter_cons_of_pos (by simpa using hown), List.map_cons, List.map_cons, callAll,
        List.foldl_cons, ← callAll]
      exact ih (hnumbered.call _) (endures_vacant.call _ _ hfront)

/-- The race is among those whose timers call exactly if its limit has come. -/
theorem any_awaits_calling (hnumbered : system.IsNumbered (some order))
    (hfront : system.front = none) (now : Nat) :
    ((Timer.calling now (⟨due, some order⟩ :: system.timers)).map Call.due).any
        (racing task due order).awaits = decide (due ≤ now) := by
  by_cases hdue : due ≤ now
  · have hcalled : .due order ∈
        (Timer.calling now (⟨due, some order⟩ :: system.timers)).map Call.due :=
      List.mem_map_of_mem (Timer.mem_calling List.mem_cons_self rfl hdue)
    rw [decide_eq_true hdue, List.any_eq_true]
    exact ⟨_, hcalled, by rw [racing_awaits_due, decide_eq_true rfl]⟩
  · rw [decide_eq_false hdue, Timer.calling_cons_of_lt (Nat.lt_of_not_le hdue), List.any_eq_false]
    intro call hcall
    obtain ⟨called, hcalled, rfl⟩ := List.mem_map.mp hcall
    obtain ⟨timer, htimer, horder, -⟩ := Timer.exists_of_mem_calling hcalled
    rw [racing_awaits_due, decide_eq_true_iff]
    rintro rfl
    exact timers_ne hnumbered hfront timer htimer horder

/-- When the clock moves, the race is called if its time has come, and the tasks are called as they
would be if nobody waited. -/
theorem moveClock_attended (hnumbered : system.IsNumbered (some order))
    (hfront : system.front = none) (time : Nat) :
    (system.attended (racing task due order) called).moveClock time =
      (system.moveClock time).attended (racing task due order)
        (called || decide (due ≤ max system.world.now time)) := by
  let now := max system.world.now time
  let moved : System tree := { system with world := { system.world with now, results := [] } }
  let calls := Timer.calling now (⟨due, some order⟩ :: system.timers)
  have hmoved : moved.IsNumbered (some order) := { hnumbered with result_lt := nofun }
  have hcalls : moved.callAll (calls.map .due) =
      moved.callAll ((Timer.calling now system.timers).map .due) := by
    rcases Nat.lt_or_ge now due with hlater | hdue
    · rw [show calls = _ from Timer.calling_cons_of_lt hlater]
    · rw [callAll_filter_own hmoved hfront,
        Timer.filter_calling hdue (timers_ne hnumbered hfront)]
  calc
    (system.attended (racing task due order) called).moveClock time
      = (moved.attended (racing task due order) called).callAll (calls.map .due) := by
        rw [moveClock, timers_attended hfront]
        rfl
    _ = (moved.callAll (calls.map .due)).attended (racing task due order)
          (called || (calls.map Call.due).any (racing task due order).awaits) :=
        callAll_attended moved _
    _ = (system.moveClock time).attended (racing task due order)
          (called || decide (due ≤ now)) := by
        rw [hcalls, any_awaits_calling hnumbered hfront]
        rfl

/-- Moving the clock changes the time and forgets the results. -/
theorem world_moveClock (system : System tree) (time : Nat) :
    (system.moveClock time).world =
      { system.world with now := max system.world.now time, results := [] } := by
  have hcalls : ∀ (calls : List Call) (system : System tree),
      (system.callAll calls).world = system.world := by
    intro calls
    induction calls with
    | nil => exact fun _ => rfl
    | cons call calls ih => exact fun system => ih (system.call call)
  exact hcalls _ _

/-- The next timer is due when that of the race or of the tasks is, whichever comes first. -/
theorem nextDue?_attended (hfront : system.front = none) :
    (system.attended (racing task due order) called).nextDue? =
      some (system.nextDue?.elim due (min due)) := by
  rw [nextDue?, timers_attended hfront, List.map_cons, List.min?_cons]
  rfl

/-! ## From round to round -/

/-- A system in which someone waits in the foreground is idle if neither that nor a task is
called. -/
theorem isIdle_attended (system : System tree) (run : Run) (called : Bool) :
    (system.attended run called).isIdle = (!called && system.ready.isEmpty) := rfl

/-- When the task has ended, whoever waits for it is called. -/
theorem afterRound?_watched_joined (hunattended : system.IsUnattended order)
    {result : Option Status} (hresult : system.round.1.world.result? task = some result) :
    (system.watched task due order).afterRound? =
      some (system.round.1.attended (racing task due order) true) := by
  rw [afterRound?, round_watched hunattended.numbered, watched, hresult]
  rfl

/-- While neither the task has ended nor the time has come, everything goes on as it would if nobody
waited. -/
theorem afterRound?_watched_racing (hunattended : system.IsUnattended order)
    (hresult : system.round.1.world.result? task = none) {next : System tree}
    (hnext : system.afterRound? = some next) (hnow : next.world.now < due) :
    (system.watched task due order).afterRound? = some (next.watched task due order) := by
  have hrested := hunattended.round
  rw [afterRound?] at hnext ⊢
  rw [round_watched hunattended.numbered]
  dsimp only at hnext ⊢
  generalize system.round.1 = rested at hresult hnext hrested ⊢
  have hsame : (rested.watched task due order).isIdle = rested.isIdle := by
    rw [watched, hresult, isIdle_attended, isIdle, hrested.called_eq]
    rfl
  rw [hsame]
  split at hnext
  · next hidle =>
    obtain ⟨time, htime, rfl⟩ := Option.map_eq_some_iff.mp hnext
    rw [world_moveClock] at hnow
    have hlt : max rested.world.now time < due := hnow
    have hmin : min due time = time := Nat.min_eq_right (by omega)
    have hnone : (rested.moveClock time).world.result? task = none := by
      rw [world_moveClock]
      rfl
    rw [if_pos hidle, watched, nextDue?_attended hrested.front_eq, htime, Option.elim_some, hmin,
      Option.map_some, moveClock_attended hrested.numbered hrested.front_eq, hresult, watched,
      hnone, decide_eq_false (Nat.not_le.mpr hlt)]
    rfl
  · next hidle =>
    cases hnext
    rw [if_neg hidle]

/-- When nothing else happens before its time, the race is called then. -/
theorem afterRound?_watched_due (hunattended : system.IsUnattended order)
    (hresult : system.round.1.world.result? task = none) (hidle : system.round.1.isIdle)
    (hlater : ∀ time, system.round.1.nextDue? = some time → due ≤ time) :
    (system.watched task due order).afterRound? =
      some ((system.round.1.moveClock due).attended (racing task due order) true) := by
  have hrested := hunattended.round
  rw [afterRound?, round_watched hunattended.numbered]
  dsimp only
  generalize system.round.1 = rested at hresult hidle hlater hrested ⊢
  have hsame : (rested.watched task due order).isIdle = true := by
    rw [watched, hresult, isIdle_attended, ← hidle, isIdle, hrested.called_eq]
    rfl
  have hmin : rested.nextDue?.elim due (min due) = due := by
    cases hnext : rested.nextDue? with
    | none => rfl
    | some time => exact Nat.min_eq_left (hlater time hnext)
  rw [if_pos hsame, watched, nextDue?_attended hrested.front_eq, hmin, Option.map_some,
    moveClock_attended hrested.numbered hrested.front_eq, decide_eq_true (Nat.le_max_right _ _),
    Bool.or_true]

end System

end BehaviorTree
