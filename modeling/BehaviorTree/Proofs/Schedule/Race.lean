import BehaviorTree.Proofs.Schedule.Detached
import BehaviorTree.Proofs.Schedule.RoundBound
import BehaviorTree.Rehearsal.Cast

/-!
# A timeout races its child against its limit

Up to the limit the child of a timeout does what it would do if nobody waited for it. If it ends
before, the timeout answers for it then; if it would go on longer, the timeout fails exactly when
the limit comes, having asked the child to abort once; and a limit that is not positive comes at
once (`System.timeout_race`). A child that has lost goes on as a task of its own.
-/

namespace BehaviorTree

open Journal Timeout

variable {κ : Type} [Application κ]

namespace System

section

variable {tree : Tree κ}

/-! ## Executions that are given enough rounds -/

/-- An execution responds like this whenever it is given enough rounds, and if the rounds that it is
given are not enough, then it says so. -/
structure Yields (system : System tree) (response : Except Fault Status × System tree × Journal) :
    Prop where
  /-- Given enough rounds, the execution responds like this. -/
  within : ∃ rounds, ∀ patience : Patience, (∀ count, rounds ≤ patience count) →
    system.executeWithin patience = response
  /-- The usual execution responds like this, unless it ends for lack of rounds. -/
  execute : system.execute.1 ≠ .error .endless → system.execute = response

/-- It is enough to know how the foreground goes on after its first turn. -/
theorem yields_of_complete {system : System tree} {status : Status} {later : System tree}
    {journal : Journal} (rounds : Nat)
    (hcomplete : ∀ more, complete (rounds + more) system.refreshed.runFront.1
      system.refreshed.runFront.2.1 = (.ok status, later, journal)) :
    system.Yields (.ok status, later, system.refreshed.runFront.2.2 ++ journal) where
  within := by
    refine ⟨rounds, fun patience hpatience => ?_⟩
    obtain ⟨more, hmore⟩ :=
      Nat.exists_eq_add_of_le (hpatience system.refreshed.runFront.2.1.tasks.length)
    rw [executeWithin_eq]
    dsimp only
    rw [hmore, hcomplete]
  execute := by
    intro hended
    let first := system.refreshed.runFront
    have hlonger : complete (rounds + first.2.1.patience) first.1 first.2.1 =
        complete first.2.1.patience first.1 first.2.1 :=
      complete_stable (Nat.le_add_left _ _) _ _ hended
    rw [execute]
    dsimp only
    rw [← hlonger, hcomplete]

/-- The system as the first turn of an execution leaves it, with nobody waiting in the
foreground. -/
def begun (system : System tree) : System tree :=
  { system.refreshed.runFront.2.1 with front := none, called := false }

/-- The system after a turn of the foreground in which a wait has ended, and the execution too. -/
def answered (system : System tree) (memory : Memory tree) : System tree :=
  { system with
    memory, world := (system.world.beginTurn .front).endWait, front := none, called := false }

/-- An execution of the root answers with a status after some time and asks the first child to abort
so many times. `later` is the system afterwards. -/
structure Answers (system : System tree) (status : Status) (duration count : Nat)
    (later : System tree) : Prop where
  /-- The execution answers, and the first child is asked to abort so many times. -/
  response : ∃ journal, aborts [0] journal = count ∧ system.Yields (.ok status, later, journal)
  /-- The time afterwards is later by the duration. -/
  now_eq : later.world.now = system.world.now + duration

/-- Tasks below the root do not ask a child of the root to abort. -/
theorem aborts_round {system : System tree} {order : Nat}
    (hunattended : system.IsUnattended order) : aborts [0] system.round.2 = 0 := by
  have hquiet := ((endures_unattended order).round hunattended).quiet_of_never
  rw [journal_round]
  generalize system.turnsOfRound = turns at hquiet
  induction turns with
  | nil => rfl
  | cons turn turns ih =>
    have hturn : aborts [0] turn.progress.journal = 0 :=
      aborts_advanceAt (hquiet turn List.mem_cons_self) 0 turn.run turn.memory turn.world
    have hlater := ih fun turn hmem => hquiet turn (List.mem_cons_of_mem _ hmem)
    rw [journalOf_cons, aborts_append, hturn, hlater]

end

variable {name : String} {limit : Int} {child : Tree κ}
  {system : System (timeoutOf name limit child)} {task due order : Nat}

/-! ## The turns of the foreground -/

/-- The child has just been started as a task, and nobody waits for it. -/
def started (system : System (timeoutOf name limit child)) : System (timeoutOf name limit child) :=
  { system with
    world := { system.world.beginTurn .front with
      tasksStarted := system.world.tasksStarted + 1
      timersStarted := system.world.timersStarted + 1 }
    front := none
    called := false
    tasks := system.tasks ++ [⟨system.world.tasksStarted, [0], none⟩]
    ready := system.ready ++ [system.world.tasksStarted] }

/-- The first turn of an execution with a positive limit starts the task of the child and the
race. -/
theorem runFront_begins (hfront : system.front = none) (hnumbered : system.IsNumbered none)
    (hlimit : 0 < limit) :
    system.runFront =
      let run := racing system.world.tasksStarted (system.world.now + limit.toNat)
        system.world.timersStarted
      (.waiting run, system.started.attended run false,
        [eventAt system.world.now (.entered name)]) := by
  have hwaits := system.world.waitsLeft_beginTurn .front
  rw [runFront_eq, frontTurn, hfront,
    advance_begins system.memory hlimit hwaits hnumbered.result?_eq_none]
  rfl

/-- The first turn of an execution with a limit that is not positive is also the last one. -/
theorem runFront_begins_expired (hfront : system.front = none) (hlimit : limit ≤ 0) :
    ∃ journal, aborts [0] journal = 1 ∧
      system.runFront =
        (.answered .failure,
          { system with
            memory := childAborted system.world.now system.memory
            world := World.endWait { system.world.beginTurn .front with
              tasksStarted := system.world.tasksStarted + 1 }
            front := none
            called := false
            tasks := system.tasks ++ [⟨system.world.tasksStarted, [0], none⟩]
            ready := system.ready ++ [system.world.tasksStarted] },
          journal) := by
  have hwaits := system.world.waitsLeft_beginTurn .front
  obtain ⟨journal, haborts, hturn⟩ := advance_begins_expired system.memory hlimit hwaits
  refine ⟨journal, haborts, ?_⟩
  rw [runFront_eq, frontTurn, hfront, hturn]
  rfl

/-- A turn of the foreground in which the race is decided. -/
theorem runFront_attended {run : Run} {called : Bool} {status : Status}
    {memory : Memory (timeoutOf name limit child)} {journal : Journal}
    (hturn : advance (timeoutOf name limit child) (some run) system.memory
        (system.world.beginTurn .front) =
      { result := .answered status, memory, world := (system.world.beginTurn .front).endWait,
        journal }) :
    (system.attended run called).runFront =
      (.answered status, system.answered memory, journal) := by
  have hfront : (system.attended run called).frontTurn =
      advance (timeoutOf name limit child) (some run) system.memory
        (system.world.beginTurn .front) := rfl
  rw [runFront_eq, hfront, hturn]
  simp only [attended, absorb, answered, Outcome.run?, List.map_nil, List.append_nil,
    Option.isSome_none, Bool.false_and]

/-- A turn before the limit that finds a result of the child answers with it. -/
theorem runFront_joined {called : Bool} {result : Option Status} (hdue : system.world.now < due)
    (hresult : system.world.result? task = some result) :
    ∃ journal, aborts [0] journal = 0 ∧
      (system.attended (racing task due order) called).runFront =
        (.answered (result.getD .failure), system.answered system.memory, journal) := by
  have hwaits := system.world.waitsLeft_beginTurn .front
  obtain ⟨journal, haborts, hturn⟩ :=
    @advance_joined κ _ name limit child system.memory (system.world.beginTurn .front) task due
      order result hwaits hdue hresult
  exact ⟨journal, haborts, runFront_attended hturn⟩

/-- A turn that comes when the limit has passed answers failure and asks the child to abort once. -/
theorem runFront_expired {called : Bool} (hdue : due ≤ system.world.now) :
    ∃ journal, aborts [0] journal = 1 ∧
      (system.attended (racing task due order) called).runFront =
        (.answered .failure, system.answered (childAborted system.world.now system.memory),
          journal) := by
  have hwaits := system.world.waitsLeft_beginTurn .front
  obtain ⟨journal, haborts, hturn⟩ :=
    @advance_expired κ _ name limit child system.memory (system.world.beginTurn .front) task due
      order hwaits hdue
  exact ⟨journal, haborts, runFront_attended hturn⟩

/-! ## Until the race is decided -/

/-- The foreground has not been called while the race is undecided. -/
theorem complete_racing (hunattended : system.IsUnattended order)
    (hresult : system.round.1.world.result? task = none)
    {next : System (timeoutOf name limit child)} (hnext : system.afterRound? = some next)
    (hnow : next.world.now < due) (fuel : Nat) :
    complete (fuel + 1) (.waiting (racing task due order)) (system.watched task due order) =
      let rest := complete fuel (.waiting (racing task due order)) (next.watched task due order)
      (rest.1, rest.2.1, system.round.2 ++ rest.2.2) := by
  have hcalled : (next.watched task due order).called = false := by
    rw [watched, attended, result?_afterRound? hresult hnext]
    rfl
  rw [complete_waiting, afterRound?_watched_racing hunattended hresult hnext hnow]
  dsimp only
  rw [hcalled, round_watched hunattended.numbered]
  rfl

/-- If the task ends before the limit, the timeout answers for it at that moment. -/
theorem complete_joined {result : Option Status} {last : System (timeoutOf name limit child)}
    (hfinishes : Finishes task system result last) (hunattended : system.IsUnattended order)
    (hdue : last.world.now < due) :
    ∃ rounds journal, aborts [0] journal = 0 ∧ ∀ more,
      complete (rounds + more) (.waiting (racing task due order))
          (system.watched task due order) =
        (.ok (result.getD .failure), last.answered last.memory, journal) := by
  induction hfinishes with
  | @now system result hresult =>
    obtain ⟨journal, haborts, hturn⟩ := runFront_joined hdue hresult
    refine ⟨1, system.round.2 ++ (journal ++ []), ?_, fun more => ?_⟩
    · rw [aborts_append, aborts_append, aborts_round hunattended, haborts, aborts_nil]
    · rw [Nat.add_comm, complete_waiting, afterRound?_watched_joined hunattended hresult]
      dsimp only
      rw [if_pos (by rfl), hturn, complete_answered, round_watched hunattended.numbered]
  | @later system next last result hresult hnext hrest ih =>
    have hnow : next.world.now < due := Nat.lt_of_le_of_lt hrest.le_now hdue
    have hnextUnattended : next.IsUnattended order :=
      (endures_unattended order).afterRound? hunattended.round hnext
    obtain ⟨rounds, journal, haborts, hcomplete⟩ := ih hnextUnattended hdue
    refine ⟨rounds + 1, system.round.2 ++ journal, ?_, fun more => ?_⟩
    · rw [aborts_append, aborts_round hunattended, haborts]
    · rw [Nat.add_right_comm, complete_racing hunattended hresult hnext hnow, hcomplete]

/-- If the task has not ended when the limit comes, the timeout fails at that moment. -/
theorem complete_expired {last : System (timeoutOf name limit child)}
    (houtlasts : Outlasts task due system last) (hunattended : system.IsUnattended order)
    (hnow : system.world.now < due) :
    last.world.now = due ∧ ∃ rounds journal, aborts [0] journal = 1 ∧ ∀ more,
      complete (rounds + more) (.waiting (racing task due order))
          (system.watched task due order) =
        (.ok .failure, last.answered (childAborted last.world.now last.memory), journal) := by
  induction houtlasts with
  | @now system hresult hidle hlater =>
    have hlast : (system.round.1.moveClock due).world.now = due := by
      rw [world_moveClock]
      exact Nat.max_eq_right (by rw [now_round]; omega)
    obtain ⟨journal, haborts, hturn⟩ := runFront_expired (Nat.le_of_eq hlast.symm)
    refine ⟨hlast, 1, system.round.2 ++ (journal ++ []), ?_, fun more => ?_⟩
    · rw [aborts_append, aborts_append, aborts_round hunattended, haborts, aborts_nil]
    · rw [Nat.add_comm, complete_waiting,
        afterRound?_watched_due hunattended hresult hidle hlater]
      dsimp only
      rw [if_pos (by rfl), hturn, complete_answered, round_watched hunattended.numbered]
  | @later system next last hresult hnext hearly hrest ih =>
    have hnextUnattended : next.IsUnattended order :=
      (endures_unattended order).afterRound? hunattended.round hnext
    obtain ⟨hlast, rounds, journal, haborts, hcomplete⟩ := ih hnextUnattended hearly
    refine ⟨hlast, rounds + 1, system.round.2 ++ journal, ?_, fun more => ?_⟩
    · rw [aborts_append, aborts_round hunattended, haborts]
    · rw [Nat.add_right_comm, complete_racing hunattended hresult hnext hearly, hcomplete]

/-! ## Between operations -/

/-- Numbers are in order, and nothing waits in the foreground but a race. -/
structure IsPoised (system : System (timeoutOf name limit child)) : Prop where
  /-- Numbers are in order. -/
  numbered : system.IsNumbered none
  /-- If an execution waits in the foreground, it is a race. -/
  isRace_front : ∀ run, system.front = some run → IsRace run

/-- Nothing has been started yet. -/
theorem isPoised_of_empty (hfront : system.front = none) (htasks : system.tasks = [])
    (hresults : system.world.results = []) (hputOff : system.world.putOff = []) :
    system.IsPoised := by
  refine ⟨⟨?_, fun order hown => ?_, ?_, ?_⟩, fun run hrun => ?_⟩
  · rw [htasks]
    exact List.forall_mem_nil _
  · cases hown
  · rw [hresults]
    exact List.forall_mem_nil _
  · rw [hputOff]
    exact List.not_mem_nil
  · rw [hfront] at hrun
    cases hrun

/-- A turn of the foreground leaves the numbers in order and nothing but a race waiting. -/
theorem IsPoised.runFront (hpoised : system.IsPoised) : system.runFront.2.1.IsPoised := by
  have hwaits := system.world.waitsLeft_beginTurn .front
  have hfresh : (system.world.beginTurn .front).result? system.world.tasksStarted = none :=
    hpoised.numbered.result?_eq_none
  obtain ⟨hraces, hputOff⟩ := isRace_advance system.memory hpoised.isRace_front hwaits hfresh
  refine ⟨hpoised.numbered.runFront ?_, fun run hrun => ?_⟩
  · have hturn : system.frontTurn.world.putOff = system.world.putOff := hputOff
    rw [hturn]
    exact hpoised.numbered.putOff
  · rw [runFront_eq] at hrun
    exact hraces run (Outcome.eq_waiting_of_run? hrun)

/-- A call leaves the numbers in order and nothing but a race waiting. -/
theorem IsPoised.call (hpoised : system.IsPoised) (call : Call) :
    (system.call call).IsPoised := by
  refine ⟨hpoised.numbered.call call, fun run hrun => ?_⟩
  obtain ⟨held, hheld, rfl⟩ := Option.map_eq_some_iff.mp hrun
  obtain ⟨task, due, order, rfl⟩ := hpoised.isRace_front held hheld
  exact ⟨task, due, order, notify_racing call⟩

/-- Numbers stay in order, and nothing but a race ever waits in the foreground. -/
theorem persists_poised :
    Persists (fun system : System (timeoutOf name limit child) => system.IsPoised)
      (fun _ => True) (fun _ => False) where
  call := fun _ call hpoised => hpoised.call call
  callFront := fun _ hpoised => ⟨{ hpoised.numbered with }, hpoised.isRace_front⟩
  ready := fun _ _ hpoised => ⟨{ hpoised.numbered with }, hpoised.isRace_front⟩
  served := fun _ hpoised =>
    ⟨{ hpoised.numbered with putOff := List.not_mem_nil }, hpoised.isRace_front⟩
  clock := fun _ _ _ hpoised =>
    ⟨{ hpoised.numbered with result_lt := List.forall_mem_nil _ }, hpoised.isRace_front⟩
  turn := by
    intro system task htask hpoised
    refine .inl ⟨trivial, hpoised.numbered.afterTurn htask, ?_⟩
    have hcalled : ∀ run, system.front.map (·.notify (.ended task.id)) = some run → IsRace run :=
      (hpoised.call (.ended task.id)).isRace_front
    rw [afterTurn]
    split
    · exact hpoised.isRace_front
    · exact hcalled
    · exact hcalled
  frontTurn := fun _ hpoised => .inl ⟨trivial, hpoised.runFront⟩
  givenUp := by
    intro system hpoised
    refine ⟨{ hpoised.numbered with }, fun run hrun => ?_⟩
    cases hrun
  refreshed := by
    intro system hpoised
    rw [refreshed]
    split
    · exact isPoised_of_empty rfl rfl rfl rfl
    · exact hpoised
  abort := fun _ hpoised => ⟨{ hpoised.numbered with }, hpoised.isRace_front⟩
  reset := fun _ hpoised => ⟨{ hpoised.numbered with }, hpoised.isRace_front⟩

/-- A system whose nodes have never run is poised, and stays so whatever is done with it. -/
theorem isPoised_nextAll (start : Start) (operations : List Operation) :
    ((start.system (timeoutOf name limit child)).nextAll operations).IsPoised := by
  have hstart : (start.system (timeoutOf name limit child)).IsPoised := by
    cases start <;> exact isPoised_of_empty rfl rfl rfl rfl
  exact (persists_poised.nextAll hstart operations).of_never

/-- When the child has just been started, the timer of the race is nobody else's. -/
theorem IsNumbered.started (hnumbered : system.IsNumbered none) :
    system.started.IsUnattended system.world.timersStarted := by
  refine ⟨⟨fun task hmem => ?_, fun order hown => ?_, fun ended hended => ?_, hnumbered.putOff⟩,
    rfl, rfl⟩
  · rcases List.mem_append.mp hmem with hold | hnew
    · have hbefore := hnumbered.tasks task hold
      refine ⟨Nat.lt_succ_of_lt hbefore.id_lt, hbefore.path_ne_nil, ?_⟩
      intro timer htimer order horder
      have hlt := (hbefore.timers timer htimer order horder).1
      exact ⟨Nat.lt_succ_of_lt hlt, fun hown => Nat.ne_of_gt hlt (Option.some.inj hown)⟩
    · rw [List.mem_singleton.mp hnew]
      exact Task.isNumbered_fresh (Nat.lt_succ_self _) (List.cons_ne_nil _ _)
  · cases hown
    exact Nat.lt_succ_self _
  · exact Nat.lt_succ_of_lt (hnumbered.result_lt ended hended)

/-! ## The race -/

/-- A refreshed system has its numbers in order. -/
theorem IsPoised.refreshed (hpoised : system.IsPoised) : system.refreshed.IsPoised :=
  persists_poised.refreshed system hpoised

/-- The first turn of an execution begins the race. The child is the next task, and the timer the
next one. -/
structure BeginsRace (system : System (timeoutOf name limit child)) : Prop where
  /-- The first turn begins the race and answers nothing. -/
  runFront_eq : system.refreshed.runFront =
    let first := system.refreshed.world
    let due := system.world.now + limit.toNat
    (.waiting (racing first.tasksStarted due first.timersStarted),
      system.begun.watched first.tasksStarted due first.timersStarted,
      [eventAt system.world.now (.entered name)])
  /-- Nobody waits in the foreground yet, and nobody waits for the timer. -/
  unattended : system.begun.IsUnattended system.refreshed.world.timersStarted
  /-- The first turn takes no time. -/
  now_eq : system.begun.world.now = system.world.now
  /-- The child's task is under way. -/
  underWay : system.begun.IsUnderWay system.refreshed.world.tasksStarted [0]

/-- An execution of a timeout with a positive limit begins the race. -/
theorem IsPoised.beginsRace (hpoised : system.IsPoised) (hfront : system.front = none)
    (hlimit : 0 < limit) : system.BeginsRace := by
  have hnumbered := hpoised.refreshed.numbered
  have hfirst := runFront_begins (front_refreshed hfront) hnumbered hlimit
  rw [now_refreshed] at hfirst
  have hbegun : system.begun = system.refreshed.started := by
    rw [begun, hfirst]
    rfl
  refine ⟨hfirst.trans ?_, hbegun ▸ hnumbered.started, ?_, ?_⟩
  · have hnone : system.refreshed.started.world.result? system.refreshed.world.tasksStarted =
        none := hnumbered.result?_eq_none
    dsimp only
    rw [hbegun, watched, hnone]
    rfl
  · rw [hbegun]
    exact now_refreshed system
  · have hnone := hnumbered.task?_eq_none
    rw [task?] at hnone
    refine ⟨none, ?_⟩
    rw [hbegun, task?, started, List.find?_append, hnone]
    simp

/-- The execution goes on as the race does. -/
theorem BeginsRace.yields (hbegins : system.BeginsRace) {status : Status} {count : Nat}
    {later : System (timeoutOf name limit child)}
    (hraces : ∃ rounds journal, aborts [0] journal = count ∧ ∀ more,
      let first := system.refreshed.world
      let due := system.world.now + limit.toNat
      complete (rounds + more) (.waiting (racing first.tasksStarted due first.timersStarted))
          (system.begun.watched first.tasksStarted due first.timersStarted) =
        (.ok status, later, journal)) :
    ∃ journal, aborts [0] journal = count ∧ system.Yields (.ok status, later, journal) := by
  obtain ⟨rounds, journal, haborts, hcomplete⟩ := hraces
  refine ⟨[eventAt system.world.now (.entered name)] ++ journal, ?_, ?_⟩
  · rw [aborts_append, haborts]
    exact Nat.zero_add count
  · have hyields := @yields_of_complete κ _ _ system status later journal rounds
    rw [hbegins.runFront_eq] at hyields
    exact hyields hcomplete

/-- A child that ends before the limit decides the race. -/
theorem BeginsRace.answers_joined (hbegins : system.BeginsRace) {elapsed : Nat}
    {result : Option Status} {last : System (timeoutOf name limit child)}
    (hfinishes : system.begun.FinishesAfter system.refreshed.world.tasksStarted elapsed result last)
    (hearly : elapsed < limit) :
    system.Answers (result.getD .failure) elapsed 0 (last.answered last.memory) := by
  obtain ⟨hfinishes, hlast⟩ := hfinishes
  rw [hbegins.now_eq] at hlast
  have hdue : last.world.now < system.world.now + limit.toNat := by omega
  exact ⟨hbegins.yields (complete_joined hfinishes hbegins.unattended hdue), hlast⟩

/-- The limit decides the race if the child has not ended before it. -/
theorem BeginsRace.answers_expired (hbegins : system.BeginsRace) (hlimit : 0 < limit)
    {last : System (timeoutOf name limit child)}
    (houtlasts : Outlasts system.refreshed.world.tasksStarted (system.world.now + limit.toNat)
      system.begun last) :
    let later := last.answered (childAborted last.world.now last.memory)
    system.Answers .failure limit.toNat 1 later ∧
      later.GoesOn system.refreshed.world.tasksStarted [0] := by
  have hnow : system.begun.world.now < system.world.now + limit.toNat := by
    rw [hbegins.now_eq]
    omega
  obtain ⟨hlast, hraces⟩ := complete_expired houtlasts hbegins.unattended hnow
  have hunderWay := hbegins.underWay.outlasts houtlasts
  exact ⟨⟨hbegins.yields hraces, hlast⟩, IsUnderWay.goesOn hunderWay⟩

/-- A limit that is not positive comes before the child begins. -/
theorem IsPoised.answers_at_once (hpoised : system.IsPoised) (hfront : system.front = none)
    (hlimit : limit ≤ 0) :
    let task := system.refreshed.world.tasksStarted
    system.Answers .failure 0 1 system.begun ∧
      system.begun.task? task = some ⟨task, [0], none⟩ ∧ task ∈ system.begun.ready := by
  intro task
  obtain ⟨journal, haborts, hfirst⟩ := runFront_begins_expired (front_refreshed hfront) hlimit
  have hbegun : system.begun = system.refreshed.runFront.2.1 := by
    rw [begun, hfirst]
  refine ⟨⟨⟨journal ++ [], ?_, ?_⟩, ?_⟩, ?_, ?_⟩
  · rw [aborts_append, haborts, aborts_nil]
  · have hyields := @yields_of_complete κ _ _ system .failure system.begun [] 0
    rw [hbegun, hfirst] at hyields ⊢
    exact hyields fun more => complete_answered _ _ _
  · rw [hbegun, hfirst]
    exact now_refreshed system
  · have hnone := hpoised.refreshed.numbered.task?_eq_none
    rw [task?] at hnone
    rw [hbegun, hfirst, task?]
    dsimp only
    rw [List.find?_append, hnone]
    simp [task]
  · rw [hbegun, hfirst]
    exact List.mem_append_right _ (List.mem_singleton.mpr rfl)

/-- A timeout races its child against its limit, whatever has been done with it before. The child
gets the number `task`, and `begun` is the system in which it has been started and nobody waits for
it. If it would end before the limit, the timeout answers for it at that moment, with failure if it
crashed, and does not ask it to abort. If it would end later or never, the timeout fails when the
limit comes, after asking the child to abort once, and everything else is as if nobody had waited.
If the limit is not positive, the timeout fails at once, after asking the child to abort once, and
the child begins before the clock moves. When the limit wins, the child goes on as a task that
nobody waits for. -/
theorem timeout_race (name : String) (limit : Int) (child : Tree κ) (start : Start)
    (operations : List Operation) :
    let system := (start.system (timeoutOf name limit child)).nextAll operations
    let task := system.refreshed.world.tasksStarted
    (0 < limit → ∀ elapsed result last, system.begun.FinishesAfter task elapsed result last →
      elapsed < limit →
        system.Answers (result.getD .failure) elapsed 0 (last.answered last.memory)) ∧
    (0 < limit → (∃ elapsed result last, system.begun.FinishesAfter task elapsed result last ∧
        limit < elapsed) ∨ system.begun.NeverFinishes task →
      ∃ last, Outlasts task (system.world.now + limit.toNat) system.begun last ∧
        system.Answers .failure limit.toNat 1
          (last.answered (childAborted last.world.now last.memory)) ∧
        (last.answered (childAborted last.world.now last.memory)).GoesOn task [0]) ∧
    (limit ≤ 0 →
      system.Answers .failure 0 1 system.begun ∧ system.begun.GoesOn task [0] ∧
        ∃ fuel, ∃ turn ∈ turnsOfSettling fuel system.begun,
          turn.task = some task ∧ turn.path = [0] ∧ turn.run = none) := by
  intro system task
  have hpoised : system.IsPoised := isPoised_nextAll start operations
  have hfront : system.front = none := by
    refine front_nextAll ?_ operations
    cases start <;> rfl
  refine ⟨fun hlimit elapsed result last hfinishes hearly => ?_, fun hlimit hlate => ?_,
    fun hlimit => ?_⟩
  · exact (hpoised.beginsRace hfront hlimit).answers_joined hfinishes hearly
  · have hbegins := hpoised.beginsRace hfront hlimit
    have hnow : system.begun.world.now < system.world.now + limit.toNat := by
      rw [hbegins.now_eq]
      omega
    obtain ⟨last, houtlasts⟩ : ∃ last, Outlasts task (system.world.now + limit.toNat)
        system.begun last := by
      rcases hlate with ⟨elapsed, result, last, ⟨hfinishes, hlast⟩, hlate⟩ | hnever
      · rw [hbegins.now_eq] at hlast
        exact hfinishes.outlasts hnow (by omega)
      · exact hnever _ hnow
    exact ⟨last, houtlasts, hbegins.answers_expired hlimit houtlasts⟩
  · obtain ⟨hanswers, htask, hready⟩ := hpoised.answers_at_once hfront hlimit
    exact ⟨hanswers, IsUnderWay.goesOn ⟨none, htask⟩, exists_first_turn htask hready⟩

/-- A child that takes 30 milliseconds, succeeds when it is executed first and crashes later. -/
def slowChild : Tree Performer := ⟨"Work", .custom (.scripted "S@30,P@30" ""), []⟩

/-- The timeout of that child after some operations. -/
def slowRace (limit : Int) (operations : List Operation) :
    System (timeoutOf "Limit" limit slowChild) :=
  ((Start.begun {}).system (timeoutOf "Limit" limit slowChild)).nextAll operations

/-- A child that takes 30 milliseconds wins against a limit of 50, also if it crashes, and loses
against a limit of 20 and against one that is not positive. -/
theorem timeout_race_slowChild :
    (∃ later, (slowRace 50 []).Answers .success 30 0 later) ∧
      (∃ later, (slowRace 50 [.execute]).Answers .failure 30 0 later) ∧
      (∃ later, (slowRace 20 []).Answers .failure 20 1 later ∧ later.GoesOn 0 [0]) ∧
      (slowRace 0 []).Answers .failure 0 1 (slowRace 0 []).begun := by
  -- the child sleeps in the first round and ends in the second
  have hfinishes : ∀ {tree : Tree Performer} (system : System tree) (task : Nat)
      (result : Option Status), system.round.1.world.result? task = none →
        (system.afterRound?.map fun next =>
            (next.round.1.world.result? task, next.round.1.world.now)) =
          some (some result, system.world.now + 30) →
        ∃ last, system.FinishesAfter task 30 result last := by
    intro tree system task result hnone hsecond
    obtain ⟨next, hnext, hends⟩ := Option.map_eq_some_iff.mp hsecond
    obtain ⟨hresult, hnow⟩ := Prod.mk.inj hends
    exact ⟨next.round.1, .later hnone hnext (.now hresult), hnow⟩
  have hjoined : ∀ (limit : Int) (operations : List Operation) (result : Option Status) last,
      let system := slowRace limit operations
      30 < limit →
        system.begun.FinishesAfter system.refreshed.world.tasksStarted 30 result last →
          system.Answers (result.getD .failure) 30 0 (last.answered last.memory) := by
    intro limit operations result last system hlimit hends
    have hpositive : 0 < limit := by omega
    exact (timeout_race "Limit" limit slowChild (.begun {}) operations).1 hpositive 30 result
      last hends hlimit
  refine ⟨?_, ?_, ?_, ?_⟩
  · obtain ⟨last, hends⟩ := hfinishes (slowRace 50 []).begun
      (slowRace 50 []).refreshed.world.tasksStarted (some .success)
      (by decide +kernel) (by decide +kernel)
    exact ⟨_, hjoined 50 [] _ last (by decide) hends⟩
  · obtain ⟨last, hends⟩ := hfinishes (slowRace 50 [.execute]).begun
      (slowRace 50 [.execute]).refreshed.world.tasksStarted none
      (by decide +kernel) (by decide +kernel)
    exact ⟨_, hjoined 50 [.execute] _ last (by decide) hends⟩
  · obtain ⟨last, hends⟩ := hfinishes (slowRace 20 []).begun 0 (some .success)
      (by decide +kernel) (by decide +kernel)
    obtain ⟨_, -, hanswers, hgoesOn⟩ := (timeout_race "Limit" 20 slowChild (.begun {}) []).2.1
      (by decide) (.inl ⟨30, _, last, hends, by decide⟩)
    exact ⟨_, hanswers, hgoesOn⟩
  · exact ((timeout_race "Limit" 0 slowChild (.begun {}) []).2.2 (by decide)).1

end System

end BehaviorTree
