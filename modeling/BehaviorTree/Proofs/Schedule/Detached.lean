import BehaviorTree.Proofs.Schedule.MemoryInvariant
import BehaviorTree.Proofs.Schedule.ForegroundWait

/-!
# Tasks that nobody waits for

A task that is left to itself goes on from round to round, and from time to time, until it ends by
itself (`System.Finishes`) or for ever (`System.NeverFinishes`). Either is the case unless there is
so much to do at once that the clock stops (`System.finishes_or_neverFinishes`). Nothing that is
done with the tree puts an end to the task, and it is called and has its turns as before
(`System.IsUnderWay.goesOn`).
-/

namespace BehaviorTree

variable {κ : Type} [Application κ] {tree : Tree κ}

namespace System

/-! ## How long a task takes if nobody stops it -/

/-- A task ends with a result, without a status if it crashed, while nobody asks for anything from
outside; and `last` is the system after the round in which it ends. -/
inductive Finishes (task : Nat) : System tree → Option Status → System tree → Prop
  | now {system : System tree} {result : Option Status}
      (hresult : system.round.1.world.result? task = some result) :
      Finishes task system result system.round.1
  | later {system next last : System tree} {result : Option Status}
      (hresult : system.round.1.world.result? task = none)
      (hnext : system.afterRound? = some next) (hrest : Finishes task next result last) :
      Finishes task system result last

/-- A task has not ended when a time comes, and `last` is the system then. -/
inductive Outlasts (task time : Nat) : System tree → System tree → Prop
  | now {system : System tree} (hresult : system.round.1.world.result? task = none)
      (hidle : system.round.1.isIdle)
      (hlater : ∀ next, system.round.1.nextDue? = some next → time ≤ next) :
      Outlasts task time system (system.round.1.moveClock time)
  | later {system next last : System tree} (hresult : system.round.1.world.result? task = none)
      (hnext : system.afterRound? = some next) (hearly : next.world.now < time)
      (hrest : Outlasts task time next last) : Outlasts task time system last

/-- A task ends after some time. -/
def FinishesAfter (system : System tree) (task elapsed : Nat) (result : Option Status)
    (last : System tree) : Prop :=
  Finishes task system result last ∧ last.world.now = system.world.now + elapsed

/-- A task has not ended whatever time comes. -/
def NeverFinishes (system : System tree) (task : Nat) : Prop :=
  ∀ time, system.world.now < time → ∃ last, Outlasts task time system last

variable {system last : System tree} {task time : Nat} {result : Option Status}

/-- No time passes within a round. -/
theorem lasts_now (now : Nat) :
    Lasts (fun system : System tree => system.world.now = now) (fun _ => True)
      (fun _ => False) where
  call := fun _ _ hnow => hnow
  callFront := fun _ hnow => hnow
  ready := fun _ _ hnow => hnow
  served := fun _ hnow => hnow
  turn := by
    intro system task _ hnow
    have hgrows := (numbers_advanceAt task.path task.run system.memory
      (system.world.beginTurn (.task task.id))).grows
    refine .inl ⟨trivial, ?_⟩
    rw [afterTurn]
    split <;> exact hgrows.now_eq.trans hnow

/-- A round takes no time. -/
theorem now_round (system : System tree) : system.round.1.world.now = system.world.now :=
  ((lasts_now system.world.now).round rfl).of_never

/-- A system is refreshed in no time. -/
theorem now_refreshed (system : System tree) : system.refreshed.world.now = system.world.now := by
  rw [refreshed]
  split <;> rfl

/-- Time does not go backwards from round to round. -/
theorem le_now_afterRound? {next : System tree} (hnext : system.afterRound? = some next) :
    system.world.now ≤ next.world.now := by
  rw [← now_round system]
  rw [afterRound?] at hnext
  split at hnext
  · obtain ⟨time, -, rfl⟩ := Option.map_eq_some_iff.mp hnext
    rw [world_moveClock]
    exact Nat.le_max_left _ _
  · cases hnext
    exact Nat.le_refl _

/-- Time does not go backwards until a task ends. -/
theorem Finishes.le_now (hfinishes : Finishes task system result last) :
    system.world.now ≤ last.world.now := by
  induction hfinishes with
  | now => exact Nat.le_of_eq (now_round _).symm
  | later _ hnext _ ih => exact Nat.le_trans (le_now_afterRound? hnext) ih

/-- When the clock moves, no result is noted any more. -/
theorem result?_afterRound? {next : System tree}
    (hresult : system.round.1.world.result? task = none)
    (hnext : system.afterRound? = some next) : next.world.result? task = none := by
  rw [afterRound?] at hnext
  split at hnext
  · obtain ⟨time, -, rfl⟩ := Option.map_eq_some_iff.mp hnext
    rw [world_moveClock]
    rfl
  · cases hnext
    exact hresult

/-- If the clock moves from before a time to that time or beyond, then the time comes. -/
theorem outlasts_of_moved {next : System tree} (hresult : system.round.1.world.result? task = none)
    (hnext : system.afterRound? = some next) (hearly : system.world.now < time)
    (hlate : time ≤ next.world.now) :
    Outlasts task time system (system.round.1.moveClock time) := by
  have hnow := now_round system
  rw [afterRound?] at hnext
  split at hnext
  · next hidle =>
    obtain ⟨due, hdue, rfl⟩ := Option.map_eq_some_iff.mp hnext
    rw [world_moveClock] at hlate
    have hmoved : time ≤ max system.round.1.world.now due := hlate
    refine .now hresult hidle fun other hother => ?_
    obtain rfl : due = other := Option.some.inj (hdue.symm.trans hother)
    omega
  · cases hnext
    omega

/-- A task that ends after a time has outlasted it. -/
theorem Finishes.outlasts (hfinishes : Finishes task system result last)
    (hearly : system.world.now < time) (hlate : time < last.world.now) :
    ∃ last, Outlasts task time system last := by
  induction hfinishes with
  | now hresult =>
    rw [now_round] at hlate
    omega
  | @later system next last result hresult hnext hrest ih =>
    by_cases hnextEarly : next.world.now < time
    · obtain ⟨last, houtlasts⟩ := ih hnextEarly hlate
      exact ⟨last, .later hresult hnext hnextEarly houtlasts⟩
    · exact ⟨_, outlasts_of_moved hresult hnext hearly (Nat.le_of_not_lt hnextEarly)⟩

/-- The system after so many rounds, if there is something to do until then. -/
def afterRounds? : Nat → System tree → Option (System tree)
  | 0, system => some system
  | count + 1, system => system.afterRound?.bind (afterRounds? count)

/-- There is always something to do before a certain time, so that the clock never comes to it. -/
def Stalls (system : System tree) : Prop :=
  ∃ time, ∀ count, ∃ later, afterRounds? count system = some later ∧ later.world.now < time

/-- A task that has not ended after so many rounds outlasts every time that the clock comes to in
them. -/
theorem exists_outlasts_of_rounds {count : Nat}
    (hendless : ∀ result last, ¬ Finishes task system result last)
    (hcomes : ∀ later, afterRounds? count system = some later → time ≤ later.world.now)
    (hearly : system.world.now < time) : ∃ last, Outlasts task time system last := by
  induction count generalizing system with
  | zero => exact absurd (hcomes system rfl) (Nat.not_le.mpr hearly)
  | succ count ih =>
    have hresult : system.round.1.world.result? task = none := by
      cases hnoted : system.round.1.world.result? task with
      | none => rfl
      | some result => exact absurd (.now hnoted) (hendless result _)
    cases hnext : system.afterRound? with
    | none =>
      -- nothing happens any more, and the time comes all the same
      rw [afterRound?] at hnext
      split at hnext
      · next hidle =>
        have hnothing : system.round.1.nextDue? = none := Option.map_eq_none_iff.mp hnext
        refine ⟨_, .now hresult hidle fun next hdue => ?_⟩
        rw [hnothing] at hdue
        cases hdue
      · cases hnext
    | some next =>
      by_cases hnextEarly : next.world.now < time
      · have hrest : ∀ result last, ¬ Finishes task next result last :=
          fun result last hfinishes => hendless result last (.later hresult hnext hfinishes)
        have hlaterComes : ∀ later, afterRounds? count next = some later →
            time ≤ later.world.now := by
          intro later hlater
          refine hcomes later ?_
          rw [afterRounds?, hnext]
          exact hlater
        obtain ⟨last, houtlasts⟩ := ih hrest hlaterComes hnextEarly
        exact ⟨last, .later hresult hnext hnextEarly houtlasts⟩
      · exact ⟨_, outlasts_of_moved hresult hnext hearly (Nat.le_of_not_lt hnextEarly)⟩

/-- A task ends or never ends, unless the clock does not come to some time at all. -/
theorem finishes_or_neverFinishes (htimely : ¬ system.Stalls) (task : Nat) :
    (∃ elapsed result last, system.FinishesAfter task elapsed result last) ∨
      system.NeverFinishes task := by
  by_cases hends : ∃ result last, Finishes task system result last
  · obtain ⟨result, last, hfinishes⟩ := hends
    obtain ⟨elapsed, helapsed⟩ := Nat.exists_eq_add_of_le hfinishes.le_now
    exact .inl ⟨elapsed, result, last, hfinishes, helapsed⟩
  · refine .inr fun time hearly => ?_
    have hendless : ∀ result last, ¬ Finishes task system result last :=
      fun result last hfinishes => hends ⟨result, last, hfinishes⟩
    obtain ⟨count, hcount⟩ : ∃ count, ∀ later, afterRounds? count system = some later →
        time ≤ later.world.now := by
      refine Classical.byContradiction fun hnever => htimely ⟨time, fun count => ?_⟩
      refine Classical.byContradiction fun hlate => hnever ⟨count, fun later hlater => ?_⟩
      exact Nat.le_of_not_lt fun hsoon => hlate ⟨later, hlater, hsoon⟩
    exact exists_outlasts_of_rounds hendless hcount hearly

/-! ## Tasks that are under way -/

/-- A task executes the tree at a position. -/
def IsUnderWay (system : System tree) (id : Nat) (path : Path) : Prop :=
  ∃ run, system.task? id = some ⟨id, path, run⟩

/-- The turns in which a task goes on. -/
def GoesOnIn (id : Nat) (path : Path) (turn : Turn tree) : Prop :=
  turn.task = some id → turn.path = path ∧ turn.progress.result.run?.isSome

/-- The turns in which a task ends. -/
def EndsIn (id : Nat) (path : Path) (turn : Turn tree) : Prop :=
  turn.task = some id ∧ turn.path = path ∧ turn.progress.result.run? = none

variable {id : Nat} {path : Path}

/-- Leaving out another task leaves the task with a number as it is. -/
theorem task?_of_filter_ne {later : System tree} {ended : Nat} (hne : id ≠ ended)
    (htasks : later.tasks = system.tasks.filter fun task => task.id != ended) :
    later.task? id = system.task? id := by
  rw [task?, htasks, List.find?_filter, task?]
  congr 1
  funext task
  by_cases hid : task.id = id
  · simp [hid, hne]
  · simp [hid]

namespace IsUnderWay

/-- A call leaves a task under way. -/
theorem call (hunderWay : system.IsUnderWay id path) (call : Call) :
    (system.call call).IsUnderWay id path := by
  obtain ⟨run, hfound⟩ := hunderWay
  have hid : ∀ task : Task, (task.notify call).id = task.id := fun _ => rfl
  refine ⟨run.map (·.notify call), ?_⟩
  rw [task?_of_map hid rfl, hfound]
  rfl

/-- What a turn has done leaves a task under way. -/
theorem absorb {ρ : Type} {progress : Progress ρ (Memory tree)}
    (hunderWay : system.IsUnderWay id path) : (system.absorb progress).IsUnderWay id path := by
  obtain ⟨run, hfound⟩ := hunderWay
  exact ⟨run, Obeys.task?_absorb hfound⟩

/-- Parking a task leaves each task under way. -/
theorem park (hunderWay : system.IsUnderWay id path) (other : Nat) (run : Run) (again : Bool) :
    (system.park other run again).IsUnderWay id path := by
  obtain ⟨held, hfound⟩ := hunderWay
  refine ⟨if id = other then some run else held, ?_⟩
  rw [task?_of_map (fun task => by split <;> rfl) rfl, hfound, Option.map_some]
  dsimp only
  split <;> rfl

/-- Concluding another task leaves a task under way. -/
theorem conclude (hunderWay : system.IsUnderWay id path) {other : Nat} (hne : id ≠ other)
    (result : Option Status) : (system.conclude other result).IsUnderWay id path := by
  refine IsUnderWay.call ?_ (.ended other)
  obtain ⟨held, hfound⟩ := hunderWay
  exact ⟨held, (task?_of_filter_ne hne rfl).trans hfound⟩

/-- After a turn of any task a task is still under way, unless it has ended in this turn. -/
theorem afterTurn (hunderWay : system.IsUnderWay id path) {task : Task}
    (htask : system.task? task.id = some task) :
    GoesOnIn id path (system.turnOfTask task) ∧ (system.afterTurn task).IsUnderWay id path ∨
      EndsIn id path (system.turnOfTask task) := by
  have habsorbed : (system.absorb (system.turnOfTask task).progress).IsUnderWay id path :=
    hunderWay.absorb
  by_cases hid : id = task.id
  · obtain ⟨held, hfound⟩ := hunderWay
    have hpath : task.path = path := by
      rw [← hid, hfound] at htask
      rw [← Option.some.inj htask]
    cases hrun : (system.turnOfTask task).progress.result.run? with
    | none => exact .inr ⟨congrArg some hid.symm, hpath, hrun⟩
    | some run =>
      refine .inl ⟨fun _ => ⟨hpath, by rw [hrun]; rfl⟩, ?_⟩
      rw [System.afterTurn, Outcome.eq_waiting_of_run? hrun]
      exact habsorbed.park _ run _
  · refine .inl ⟨fun hsame => absurd (Option.some.inj hsame).symm hid, ?_⟩
    rw [System.afterTurn]
    split
    · exact habsorbed.park _ _ _
    · exact habsorbed.conclude hid _
    · exact habsorbed.conclude hid _

end IsUnderWay

/-- A task stays under way until it ends by itself, whatever is done with the tree. -/
theorem persists_underWay (id : Nat) (path : Path) :
    Persists (fun system : System tree => system.IsUnderWay id path) (GoesOnIn id path)
      (EndsIn id path) where
  call := fun _ call hunderWay => hunderWay.call call
  callFront := fun _ hunderWay => hunderWay
  ready := fun _ _ hunderWay => hunderWay
  served := fun _ hunderWay => hunderWay
  clock := fun _ _ _ hunderWay => hunderWay
  turn := fun _ _ htask hunderWay => hunderWay.afterTurn htask
  frontTurn := by
    intro system hunderWay
    refine .inl ⟨nofun, ?_⟩
    rw [runFront_eq]
    exact hunderWay.absorb
  givenUp := fun _ hunderWay => hunderWay
  refreshed := by
    intro system hunderWay
    obtain ⟨run, hfound⟩ := hunderWay
    have htasks : system.tasks.isEmpty = false := by
      rw [List.isEmpty_eq_false_iff]
      exact List.ne_nil_of_mem (List.mem_of_find?_eq_some hfound)
    rw [System.refreshed, htasks]
    exact ⟨run, hfound⟩
  abort := fun _ hunderWay => hunderWay
  reset := fun _ hunderWay => hunderWay

/-- The result of a task stays noted within the instant. -/
theorem isSome_result?_afterTurn (hnoted : (system.world.result? id).isSome) (task : Task) :
    ((system.afterTurn task).world.result? id).isSome := by
  have hgrows := (numbers_advanceAt task.path task.run system.memory
    (system.world.beginTurn (.task task.id))).grows
  have habsorbed :
      ((system.absorb (system.turnOfTask task).progress).world.result? id).isSome := by
    have hresults : (system.absorb (system.turnOfTask task).progress).world.results =
        system.world.results := hgrows.results_eq
    rw [World.result?, hresults]
    exact hnoted
  rw [afterTurn]
  split
  · exact habsorbed
  · rw [result?_conclude, habsorbed, Bool.true_or]
  · rw [result?_conclude, habsorbed, Bool.true_or]

/-- Within an instant, a task is under way as long as no result is noted for it. -/
theorem lasts_underWay (id : Nat) (path : Path) :
    Lasts (fun system : System tree =>
      system.IsUnderWay id path ∨ (system.world.result? id).isSome) (fun _ => True)
      (fun _ => False) where
  call := fun _ call hkept => hkept.imp_left fun hunderWay => hunderWay.call call
  callFront := fun _ hkept => hkept
  ready := fun _ _ hkept => hkept
  served := fun _ hkept => hkept
  turn := by
    intro system task htask hkept
    refine .inl ⟨trivial, ?_⟩
    rcases hkept with hunderWay | hnoted
    · rcases hunderWay.afterTurn htask with ⟨-, hafter⟩ | ⟨hid, -, hrun⟩
      · exact .inl hafter
      · obtain rfl : task.id = id := Option.some.inj hid
        refine .inr ?_
        rw [afterTurn]
        split
        · next hwaiting =>
          rw [hwaiting] at hrun
          cases hrun
        · rw [result?_conclude, decide_eq_true rfl, Bool.or_true]
        · rw [result?_conclude, decide_eq_true rfl, Bool.or_true]
    · exact .inr (isSome_result?_afterTurn hnoted task)

/-- A task that has not ended when a time comes is under way then. -/
theorem IsUnderWay.outlasts (hunderWay : system.IsUnderWay task path)
    (houtlasts : Outlasts task time system last) : last.IsUnderWay task path := by
  have hround : ∀ {system : System tree}, system.IsUnderWay task path →
      system.round.1.world.result? task = none → system.round.1.IsUnderWay task path := by
    intro system hunderWay hresult
    rcases ((lasts_underWay task path).round (.inl hunderWay)).of_never with hafter | hnoted
    · exact hafter
    · rw [hresult] at hnoted
      cases hnoted
  induction houtlasts with
  | now hresult => exact (persists_underWay task path).moveClock (hround hunderWay hresult) time
  | later hresult hnext _ _ ih =>
    exact ih ((persists_underWay task path).afterRound? (hround hunderWay hresult) hnext)

/-! ## Tasks that have been called -/

/-- Enlisting adds to the end of those who are called, if it adds anything. -/
theorem exists_enlist_eq (index : Nat) (called : List Nat) :
    ∃ more, enlist index called = called ++ more := by
  rw [enlist]
  split
  · exact ⟨[], (List.append_nil _).symm⟩
  · exact ⟨[index], rfl⟩

/-- Enlisting several adds to the end of those who are called. -/
theorem exists_foldl_enlist_eq (woken called : List Nat) :
    ∃ more, woken.foldl (fun ready id => enlist id ready) called = called ++ more := by
  induction woken generalizing called with
  | nil => exact ⟨[], (List.append_nil _).symm⟩
  | cons id woken ih =>
    obtain ⟨first, hfirst⟩ := exists_enlist_eq id called
    obtain ⟨more, hmore⟩ := ih (enlist id called)
    refine ⟨first ++ more, ?_⟩
    rw [List.foldl_cons, hmore, hfirst, List.append_assoc]

/-- Each of several that are enlisted is called. -/
theorem mem_foldl_enlist {index : Nat} {woken : List Nat} (hmem : index ∈ woken)
    (called : List Nat) : index ∈ woken.foldl (fun ready id => enlist id ready) called := by
  induction woken generalizing called with
  | nil => cases hmem
  | cons id woken ih =>
    rw [List.foldl_cons]
    rcases List.mem_cons.mp hmem with rfl | hmem
    · obtain ⟨more, hmore⟩ := exists_foldl_enlist_eq woken (enlist index called)
      rw [hmore]
      refine List.mem_append_left _ ?_
      rw [enlist]
      split
      · next hcalled => simpa using hcalled
      · exact List.mem_append_right _ (List.mem_singleton.mpr rfl)
    · exact ih hmem _

/-- Whoever is called has to wait for those who were called before. -/
theorem exists_ready_call (system : System tree) (call : Call) :
    ∃ more, (system.call call).ready = system.ready ++ more :=
  exists_foldl_enlist_eq _ _

/-- The turn of a task calls others only after those who have been called. -/
theorem exists_ready_afterTurn (system : System tree) (task : Task) :
    ∃ more, (system.afterTurn task).ready = system.ready ++ more := by
  let progress := (system.turnOfTask task).progress
  have hconcluded : ∀ result, ∃ more,
      ((system.absorb progress).conclude task.id result).ready = system.ready ++ more := by
    intro result
    obtain ⟨more, hmore⟩ := exists_ready_call
      { system.absorb progress with
        tasks := (system.absorb progress).tasks.filter fun other => other.id != task.id
        world := { (system.absorb progress).world with
          results := (system.absorb progress).world.results ++ [(task.id, result)] } }
      (.ended task.id)
    exact ⟨progress.spawned.map (·.task) ++ more, hmore.trans (List.append_assoc ..)⟩
  rw [afterTurn]
  split
  · obtain ⟨more, hmore⟩ :=
      exists_enlist_eq task.id (system.ready ++ progress.spawned.map (·.task))
    rw [park]
    dsimp only
    split
    · exact ⟨progress.spawned.map (·.task) ++ more, hmore.trans (List.append_assoc ..)⟩
    · exact ⟨progress.spawned.map (·.task), rfl⟩
  · exact hconcluded _
  · exact hconcluded _

/-- Running a task calls others only after those who have been called. -/
theorem exists_ready_runTask (system : System tree) (id : Nat) :
    ∃ more, (system.runTask id).1.ready = system.ready ++ more := by
  cases hfound : system.task? id with
  | none =>
    rw [runTask_of_none hfound]
    exact ⟨[], (List.append_nil _).symm⟩
  | some task =>
    rw [runTask_of_some hfound]
    exact exists_ready_afterTurn system task

/-- Calling those who have put a wait off adds to the end of those who have been called. -/
theorem exists_ready_resume (system : System tree) :
    ∃ more, system.resume.ready = system.ready ++ more := by
  have hparties : ∀ (parties : List Party) (system : System tree),
      ∃ more, (parties.foldl callParty system).ready = system.ready ++ more := by
    intro parties
    induction parties with
    | nil => exact fun system => ⟨[], (List.append_nil _).symm⟩
    | cons party parties ih =>
      intro system
      have hfirst : ∃ first, (system.callParty party).ready = system.ready ++ first := by
        cases party with
        | front => exact ⟨[], (List.append_nil _).symm⟩
        | task id =>
          rw [callParty]
          split
          · exact exists_enlist_eq id system.ready
          · exact ⟨[], (List.append_nil _).symm⟩
        | member crowd index => exact exists_ready_call system _
      obtain ⟨first, hfirst⟩ := hfirst
      obtain ⟨more, hmore⟩ := ih (system.callParty party)
      exact ⟨first ++ more, by rw [List.foldl_cons, hmore, hfirst, List.append_assoc]⟩
  exact hparties _ _

/-- A task that has been called has its turn, or those who were called before it have theirs. -/
theorem IsUnderWay.runTasks (hunderWay : system.IsUnderWay id path) (count : Nat)
    {before behind : List Nat} (hready : system.ready = before ++ id :: behind) :
    (∃ turn ∈ system.turnsOfTasks count, turn.task = some id) ∨
      count ≤ before.length ∧ (system.runTasks count).1.IsUnderWay id path ∧
        ∃ others, (system.runTasks count).1.ready = before.drop count ++ id :: others := by
  induction count generalizing system before behind with
  | zero => exact .inr ⟨Nat.zero_le _, hunderWay, behind, hready⟩
  | succ count ih =>
    rw [turnsOfTasks, System.runTasks, hready]
    cases before with
    | nil =>
      obtain ⟨run, hfound⟩ := hunderWay
      let served : System tree := { system with ready := behind }
      have hturn : served.turnOf? id = some (served.turnOfTask ⟨id, path, run⟩) := by
        rw [turnOf?, show served.task? id = _ from hfound]
        rfl
      refine .inl ⟨served.turnOfTask ⟨id, path, run⟩, ?_, rfl⟩
      exact List.mem_append_left _ (by rw [hturn]; exact List.mem_singleton.mpr rfl)
    | cons first before =>
      let served : System tree := { system with ready := before ++ id :: behind }
      have hserved : served.IsUnderWay id path := hunderWay
      obtain ⟨more, hmore⟩ := exists_ready_runTask served first
      have hrest : (served.runTask first).1.ready = before ++ id :: (behind ++ more) := by
        rw [hmore]
        exact List.append_assoc ..
      rcases (persists_underWay id path).toLasts.runTask hserved first with
        ⟨-, hafter⟩ | ⟨_, turn, _, hturns, -, hends, -⟩
      · rcases ih hafter hrest with ⟨turn, hmem, hturn⟩ | ⟨hle, hlater, others, hothers⟩
        · exact .inl ⟨turn, List.mem_append_right _ hmem, hturn⟩
        · exact .inr ⟨Nat.succ_le_succ hle, hlater, others, hothers⟩
      · have hmem : turn ∈ (served.turnOf? first).toList := by
          rw [hturns]
          simp
        exact .inl ⟨turn, List.mem_append_left _ hmem, hends⟩

/-- A task that has been called has a turn before the clock moves. -/
theorem IsUnderWay.exists_turn (hunderWay : system.IsUnderWay id path)
    {before behind : List Nat} (hready : system.ready = before ++ id :: behind) :
    ∃ fuel, ∃ turn ∈ turnsOfSettling fuel system, turn.task = some id := by
  induction hlength : before.length using Nat.strongRecOn
    generalizing system before behind with
  | ind length ih =>
    have hbusy : system.ready.isEmpty = false := by
      rw [hready]
      simp
    rcases hunderWay.runTasks roundLength hready with ⟨turn, hmem, hturn⟩ |
      ⟨hle, hafter, others, hothers⟩
    · refine ⟨1, turn, ?_, hturn⟩
      rw [turnsOfSettling, hbusy]
      exact List.mem_append_left _ hmem
    · obtain ⟨more, hmore⟩ := exists_ready_resume (system.runTasks roundLength).1
      have hrest : system.round.1.ready =
          before.drop roundLength ++ id :: (others ++ more) := by
        rw [round, hmore, hothers]
        simp
      have hshorter : (before.drop roundLength).length < length := by
        rw [List.length_drop]
        have hpositive : 0 < roundLength := by decide
        omega
      obtain ⟨fuel, turn, hmem, hturn⟩ :=
        ih _ hshorter ((persists_underWay id path).resume hafter) hrest rfl
      refine ⟨fuel + 1, turn, ?_, hturn⟩
      rw [turnsOfSettling, hbusy]
      exact List.mem_append_right _ hmem

/-- A task that has not begun stays so while another one has a turn. -/
theorem task?_afterTurn_of_ne {task : Task} (hne : id ≠ task.id)
    (hfound : system.task? id = some ⟨id, path, none⟩) :
    (system.afterTurn task).task? id = some ⟨id, path, none⟩ := by
  have habsorbed : (system.absorb (system.turnOfTask task).progress).task? id =
      some ⟨id, path, none⟩ := Obeys.task?_absorb hfound
  have hconcluded : ∀ result, ((system.absorb (system.turnOfTask task).progress).conclude task.id
      result).task? id = some ⟨id, path, none⟩ := by
    intro result
    have hid : ∀ other : Task, (other.notify (.ended task.id)).id = other.id := fun _ => rfl
    rw [System.conclude, task?_of_map hid rfl, task?_of_filter_ne hne rfl, habsorbed]
    rfl
  rw [System.afterTurn]
  split
  · rw [task?_of_map (fun task => by split <;> rfl) rfl, habsorbed, Option.map_some, if_neg hne]
  · exact hconcluded _
  · exact hconcluded _

/-- A task that has not begun stays so until its first turn. -/
theorem lasts_fresh (id : Nat) (path : Path) :
    Lasts (fun system : System tree => system.task? id = some ⟨id, path, none⟩)
      (fun turn => turn.task ≠ some id)
      (fun turn => turn.task = some id ∧ turn.path = path ∧ turn.run = none) where
  call := by
    intro system call hfound
    have hid : ∀ task : Task, (task.notify call).id = task.id := fun _ => rfl
    rw [task?_of_map hid rfl, hfound]
    rfl
  callFront := fun _ hfound => hfound
  ready := fun _ _ hfound => hfound
  served := fun _ hfound => hfound
  turn := by
    intro system task htask hfound
    by_cases hid : id = task.id
    · rw [← hid, hfound] at htask
      obtain rfl := Option.some.inj htask
      exact .inr ⟨rfl, rfl, rfl⟩
    · exact .inl ⟨fun hsame => hid (Option.some.inj hsame).symm, task?_afterTurn_of_ne hid hfound⟩

/-- A task that has been called and has not begun begins before the clock moves. -/
theorem exists_first_turn (hfound : system.task? id = some ⟨id, path, none⟩)
    (hready : id ∈ system.ready) :
    ∃ fuel, ∃ turn ∈ turnsOfSettling fuel system,
      turn.task = some id ∧ turn.path = path ∧ turn.run = none := by
  obtain ⟨before, behind, hready⟩ := List.append_of_mem hready
  have hunderWay : system.IsUnderWay id path := ⟨none, hfound⟩
  obtain ⟨fuel, turn, hmem, hturn⟩ := hunderWay.exists_turn hready
  rcases (lasts_fresh id path).settleWith hfound fuel with ⟨hquiet, -⟩ |
    ⟨earlier, first, later, hturns, -, hfirst⟩
  · exact absurd hturn (hquiet turn hmem)
  · exact ⟨fuel, first, by rw [hturns]; simp, hfirst⟩

/-- A task that has been called stays so while calls are passed on. -/
theorem mem_ready_callAll_of_mem {index : Nat} (hready : index ∈ system.ready)
    (calls : List Call) : index ∈ (system.callAll calls).ready := by
  induction calls generalizing system with
  | nil => exact hready
  | cons call calls ih =>
    obtain ⟨more, hmore⟩ := exists_ready_call system call
    refine ih ?_
    rw [hmore]
    exact List.mem_append_left _ hready

/-- A task that waits for a timer is called when the timer calls. -/
theorem mem_ready_callAll {other : Task} (hmem : other ∈ system.tasks) {timer : Timer}
    (htimer : timer ∈ other.timers) {order : Nat} (horder : timer.order = some order)
    {calls : List Call} (hcalled : .due order ∈ calls) :
    other.id ∈ (system.callAll calls).ready := by
  induction calls generalizing system other with
  | nil => cases hcalled
  | cons call calls ih =>
    rcases List.mem_cons.mp hcalled with rfl | hcalled
    · have hawaits : other.awaits (.due order) = true := by
        obtain ⟨id, path, run⟩ := other
        cases run with
        | none => cases htimer
        | some run =>
          obtain ⟨started, hstarted, hawaits⟩ := awaits_of_mem_timers run htimer
          obtain rfl : started = order := Option.some.inj (hstarted.symm.trans horder)
          exact hawaits
      refine mem_ready_callAll_of_mem (mem_foldl_enlist ?_ _) calls
      exact List.mem_map_of_mem (List.mem_filter.mpr ⟨hmem, hawaits⟩)
    · have hnotified : other.notify call ∈ (system.call call).tasks := List.mem_map_of_mem hmem
      rw [← Task.timers_notify other call] at htimer
      have hlater := ih hnotified htimer hcalled
      exact hlater

/-- A task that waits for a timer is called when the time of the timer comes. -/
theorem mem_ready_moveClock {other : Task} (hmem : other ∈ system.tasks) {timer : Timer}
    (htimer : timer ∈ other.timers) (hdue : timer.due ≤ time) :
    other.id ∈ (system.moveClock time).ready := by
  have hstarted : ∃ order, timer.order = some order := by
    obtain ⟨id, path, run⟩ := other
    cases run with
    | none => cases htimer
    | some run =>
      obtain ⟨order, horder, -⟩ := awaits_of_mem_timers run htimer
      exact ⟨order, horder⟩
  obtain ⟨order, horder⟩ := hstarted
  have hwaits : timer ∈ system.timers :=
    List.mem_append_right _ (List.mem_flatMap.mpr ⟨other, hmem, htimer⟩)
  have hcalled : Call.due order ∈
      (Timer.calling (max system.world.now time) system.timers).map Call.due :=
    List.mem_map_of_mem (Timer.mem_calling hwaits horder (Nat.le_trans hdue (Nat.le_max_right _ _)))
  let moved : System tree :=
    { system with world := { system.world with now := max system.world.now time, results := [] } }
  have hmoved : other ∈ moved.tasks := hmem
  exact mem_ready_callAll hmoved htimer horder hcalled

/-! ## Tasks that go on -/

/-- A task goes on whatever is done with the tree. It stays under way until a turn of its own in
which it ends; it is called when the time of a timer comes that it waits for; and if it has been
called, it has a turn before the clock moves. -/
structure GoesOn (system : System tree) (id : Nat) (path : Path) : Prop where
  /-- The task is under way. -/
  underWay : system.IsUnderWay id path
  /-- After any operations it is under way, unless it has ended in a turn of its own. -/
  lasts : ∀ operations, Until (GoesOnIn id path) (EndsIn id path) (system.turnsAlong operations)
    ((system.nextAll operations).IsUnderWay id path)
  /-- It is called when the time of a timer comes that it waits for. -/
  called : ∀ operations task, (system.nextAll operations).task? id = some task →
    ∀ timer ∈ task.timers, ∀ time, timer.due ≤ time →
      id ∈ ((system.nextAll operations).moveClock time).ready
  /-- If it has been called, it has a turn before the clock moves. -/
  served : ∀ operations, (system.nextAll operations).IsUnderWay id path →
    id ∈ (system.nextAll operations).ready →
      ∃ fuel, ∃ turn ∈ turnsOfSettling fuel (system.nextAll operations), turn.task = some id

/-- A task that is under way goes on whatever is done with the tree. -/
theorem IsUnderWay.goesOn (hunderWay : system.IsUnderWay id path) : system.GoesOn id path where
  underWay := hunderWay
  lasts := (persists_underWay id path).nextAll hunderWay
  called := by
    intro operations task hfound timer htimer time hdue
    rw [← id_eq_of_task? hfound]
    exact mem_ready_moveClock (List.mem_of_find?_eq_some hfound) htimer hdue
  served := by
    intro operations hlater hready
    obtain ⟨before, behind, hready⟩ := List.append_of_mem hready
    exact hlater.exists_turn hready

end System

end BehaviorTree
