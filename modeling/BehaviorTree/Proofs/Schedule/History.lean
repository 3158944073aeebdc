import BehaviorTree.Proofs.Schedule.Detached
import BehaviorTree.Proofs.Schedule.Operation
import BehaviorTree.Proofs.Tree.Tick

/-!
# Whatever is done with a tree is a history of its root

While time passes, tasks change what is below the root and calls are passed on. To the root these
are quiet acts (`System.endures_quiet`). So an execution that is answered is a tick
(`System.exists_isTick_execute`), aborts and resets come between two ticks, and what is true of the
root of a tree in every history is true of a tree in use (`Start.exists_isHistory`).
-/

namespace BehaviorTree

variable {κ : Type} [Application κ] {tree : Tree κ}

/-! ## Quiet acts -/

namespace Stage

variable {stage : Stage tree} {acts more : List (Act tree)}

/-- Quiet acts may come before a tick. -/
theorem answers_append (hquiet : ∀ act ∈ acts, act.isQuiet) {status : Status}
    (hanswers : (stage.after acts).Answers more status) : stage.Answers (acts ++ more) status := by
  induction acts generalizing stage with
  | nil => exact hanswers
  | cons act acts ih =>
    obtain ⟨hact, hrest⟩ := List.forall_mem_cons.mp hquiet
    exact .meanwhile hact (ih hrest hanswers)

/-- The root does nothing itself in quiet acts. -/
theorem journal_of_quiet (hquiet : ∀ act ∈ acts, act.isQuiet) : stage.journal acts = [] := by
  induction acts generalizing stage with
  | nil => rfl
  | cons act acts ih =>
    obtain ⟨hact, hrest⟩ := List.forall_mem_cons.mp hquiet
    rw [journal, own_eq_nil (Act.isTurn_of_isQuiet hact), List.nil_append]
    exact ih hrest

/-- An execution that is under way still is after quiet acts. -/
theorem isSome_run_after (hquiet : ∀ act ∈ acts, act.isQuiet) :
    (stage.after acts).run.isSome = stage.run.isSome := by
  induction acts generalizing stage with
  | nil => rfl
  | cons act acts ih =>
    obtain ⟨hact, hrest⟩ := List.forall_mem_cons.mp hquiet
    refine (ih hrest).trans ?_
    obtain ⟨call, rfl⟩ | ⟨binding, below, rfl⟩ := Act.exists_of_isQuiet hact
    · exact Option.isSome_map
    · rfl

end Stage

/-- To the root it is a quiet act if something below it is advanced. -/
theorem exists_act_advanceAt {path : Path} (hpath : path ≠ []) (run : Option Run)
    (memory : Memory tree) (world : World) :
    ∃ act : Act tree, act.isQuiet ∧ ∀ front : Option Run,
      (⟨memory, front⟩ : Stage tree).act act =
        ⟨(advanceAt tree path run memory world).memory, front⟩ := by
  obtain ⟨name, kind, children⟩ := tree
  cases memory with
  | node cell below =>
    cases path with
    | nil => exact absurd rfl hpath
    | cons index path =>
      exact ⟨.around cell.binding (advanceAt.advanceIn children index path run below world).memory,
        rfl, fun front => rfl⟩

namespace System

/-- The root between its turns. -/
def stage (system : System tree) : Stage tree := ⟨system.memory, system.front⟩

/-- No task executes the root. -/
def SparesRoot (system : System tree) : Prop := ∀ task ∈ system.tasks, task.path ≠ []

/-- Since a certain moment only quiet acts have happened to the root. -/
structure IsQuietSince (before : Stage tree) (system : System tree) : Prop where
  /-- No task executes the root. -/
  sparesRoot : system.SparesRoot
  /-- Quiet acts have made the root what it is now. -/
  exists_acts : ∃ acts : List (Act tree), (∀ act ∈ acts, act.isQuiet) ∧
    before.after acts = system.stage

variable {system : System tree} {before : Stage tree}

/-- Only trees below the root are spawned. -/
theorem SparesRoot.absorb (hspares : system.SparesRoot)
    {progress : Progress Outcome (Memory tree)} {held : List Timer} {world : World}
    (hnumbers : progress.Numbers Outcome.timers held world) :
    (system.absorb progress).SparesRoot := by
  intro task hmem
  rcases List.mem_append.mp hmem with hold | hnew
  · exact hspares task hold
  · obtain ⟨spawn, hspawn, rfl⟩ := List.mem_map.mp hnew
    exact (hnumbers.spawned spawn hspawn).path_ne_nil

namespace IsQuietSince

/-- One more quiet act leaves everything quiet since then. -/
theorem act (hquiet : system.IsQuietSince before) {next : System tree} {act : Act tree}
    (hact : act.isQuiet) (hstage : system.stage.act act = next.stage)
    (hspares : next.SparesRoot) : next.IsQuietSince before := by
  obtain ⟨acts, hacts, hafter⟩ := hquiet.exists_acts
  refine ⟨hspares, acts ++ [act], List.forall_mem_append.mpr ⟨hacts, by simpa using hact⟩, ?_⟩
  rw [Stage.after, List.foldl_append, ← hstage, ← hafter]
  rfl

/-- A call is a quiet act. -/
theorem call (hquiet : system.IsQuietSince before) (call : Call) :
    (system.call call).IsQuietSince before := by
  have hnotified : system.stage.act (.notify call) = (system.call call).stage := rfl
  refine hquiet.act rfl hnotified fun task hmem => ?_
  obtain ⟨task, hbefore, rfl⟩ := List.mem_map.mp hmem
  exact hquiet.sparesRoot task hbefore

/-- The turn of a task is a quiet act. -/
theorem afterTurn (hquiet : system.IsQuietSince before) {task : Task}
    (htask : system.task? task.id = some task) : (system.afterTurn task).IsQuietSince before := by
  have hpath := hquiet.sparesRoot task (List.mem_of_find?_eq_some htask)
  obtain ⟨act, hact, hstage⟩ := exists_act_advanceAt hpath task.run system.memory
    (system.world.beginTurn (.task task.id))
  have habsorbed : (system.absorb (system.turnOfTask task).progress).IsQuietSince before := by
    exact hquiet.act hact (hstage system.front)
      (hquiet.sparesRoot.absorb (numbers_advanceAt task.path task.run _ _))
  have hconcluded : ∀ result,
      ((system.absorb (system.turnOfTask task).progress).conclude task.id result).IsQuietSince
        before := by
    intro result
    refine IsQuietSince.call ?_ (.ended task.id)
    exact ⟨fun inner hmem => habsorbed.sparesRoot inner (List.mem_filter.mp hmem).1,
      habsorbed.exists_acts⟩
  rw [System.afterTurn]
  split
  · refine ⟨fun inner hmem => ?_, habsorbed.exists_acts⟩
    obtain ⟨inner, hbefore, rfl⟩ := List.mem_map.mp hmem
    split <;> exact habsorbed.sparesRoot inner hbefore
  · exact hconcluded _
  · exact hconcluded _

end IsQuietSince

/-- As long as the foreground has no turn, only quiet acts happen to the root. -/
theorem endures_quiet (before : Stage tree) :
    Endures (fun system : System tree => system.IsQuietSince before) (fun _ => True)
      (fun _ => False) where
  call := fun _ call hquiet => hquiet.call call
  callFront := fun _ hquiet => ⟨hquiet.sparesRoot, hquiet.exists_acts⟩
  ready := fun _ _ hquiet => ⟨hquiet.sparesRoot, hquiet.exists_acts⟩
  served := fun _ hquiet => ⟨hquiet.sparesRoot, hquiet.exists_acts⟩
  clock := fun _ _ _ hquiet => ⟨hquiet.sparesRoot, hquiet.exists_acts⟩
  turn := fun _ _ htask hquiet => .inl ⟨trivial, hquiet.afterTurn htask⟩

/-! ## Executions -/

/-- The acts are a tick that ends with a system. What the root does in it is in the journal. -/
structure IsTick (before : Stage tree) (acts : List (Act tree)) (status : Status)
    (after : System tree) (journal : Journal) : Prop where
  /-- The root answers with the status in the last of these acts. -/
  answers : before.Answers acts status
  /-- The acts leave the root as it is in the system afterwards. -/
  after_eq : before.after acts = after.stage
  /-- What the root does in them is in the journal. -/
  journal : (before.journal acts).Sublist journal
  /-- No task executes the root afterwards. -/
  sparesRoot : after.SparesRoot

/-- The acts are a tick that begins at a time, or not before it if the clock is not held. -/
structure IsTimedTick (before : Stage tree) (now : Nat) (held : Bool) (acts : List (Act tree))
    (status : Status) (after : System tree) (journal : Journal) : Prop
    extends IsTick before acts status after journal where
  /-- The tick keeps the time at which it begins. -/
  keepsTime : before.KeepsTime now held acts after.world.now

/-- A foreground that has been called stays called until its turn. -/
theorem lasts_called :
    Lasts (fun system : System tree => system.called = true) (fun _ => True) (fun _ => False) where
  call := fun _ _ hcalled => Bool.or_eq_true_iff.mpr (.inl hcalled)
  callFront := fun _ hcalled => Bool.or_eq_true_iff.mpr (.inl hcalled)
  ready := fun _ _ hcalled => hcalled
  served := fun _ hcalled => hcalled
  turn := by
    intro system task _ hcalled
    refine .inl ⟨trivial, ?_⟩
    rw [afterTurn]
    split
    · exact hcalled
    · exact Bool.or_eq_true_iff.mpr (.inl hcalled)
    · exact Bool.or_eq_true_iff.mpr (.inl hcalled)

/-- A foreground that has been called has its turn before the clock moves. -/
theorem called_afterRound? (hcalled : system.called = true) {next : System tree}
    (hnext : system.afterRound? = some next) :
    next.called = true ∧ next.world.now = system.world.now := by
  have hstays : system.round.1.called = true := (lasts_called.round hcalled).of_never
  have hbusy : system.round.1.isIdle = false := by
    rw [isIdle, hstays]
    rfl
  rw [afterRound?, hbusy, if_neg Bool.false_ne_true] at hnext
  cases hnext
  exact ⟨hstays, now_round system⟩

/-- The turn of the foreground spares the root from tasks. -/
theorem SparesRoot.runFront (hspares : system.SparesRoot) : system.runFront.2.1.SparesRoot := by
  have habsorbed := hspares.absorb
    (numbers_advance tree system.front system.memory (system.world.beginTurn .front))
  rw [runFront_eq]
  exact habsorbed

/-- A turn of the foreground, after which the execution is completed. -/
theorem exists_isTimedTick_runFront (hspares : system.SparesRoot) {fuel : Nat} {status : Status}
    (hrest : ∀ run, system.runFront.2.1.front.isSome →
      let turned := system.runFront.2.1
      let completed := complete fuel (.waiting run) turned
      completed.1 = .ok status →
        ∃ acts, IsTimedTick turned.stage turned.world.now turned.called acts status completed.2.1
          completed.2.2)
    (held : Bool) :
    let completed := complete fuel system.runFront.1 system.runFront.2.1
    completed.1 = .ok status →
      ∃ acts, IsTimedTick system.stage system.world.now held acts status completed.2.1
        (system.runFront.2.2 ++ completed.2.2) := by
  have hspared := hspares.runFront
  let world := system.world.beginTurn .front
  have hresult : (system.stage.turn world).result = system.runFront.1 := by rw [runFront_eq]; rfl
  have hact : system.stage.act (.turn world) = system.runFront.2.1.stage := by
    rw [runFront_eq]
    rfl
  have hown : system.stage.own (.turn world) = system.runFront.2.2 := by rw [runFront_eq]; rfl
  have hfront : system.runFront.2.1.front = system.runFront.1.run? := by rw [runFront_eq]
  have hcalled : system.runFront.2.1.called =
      (system.runFront.1.run?.isSome && (system.stage.turn world).again) := by
    rw [runFront_eq]
    rfl
  have hnow : system.runFront.2.1.world.now = system.world.now := by
    rw [runFront_eq]
    exact (numbers_advance tree system.front system.memory world).grows.now_eq
  generalize system.runFront = turn at *
  obtain ⟨outcome, next, journal⟩ := turn
  dsimp only at *
  intro hok
  cases outcome with
  | failed fault => cases fuel <;> cases hok
  | answered answer =>
    rw [complete_answered] at hok ⊢
    cases hok
    refine ⟨[.turn world], ⟨.last world hresult, hact, ?_, hspared⟩, ?_⟩
    · rw [Stage.journal, hown]
      exact List.Sublist.refl _
    · rw [hnow]
      exact .last (Nat.le_refl _) fun _ => rfl
  | waiting run =>
    have hunderWay : next.front.isSome := by
      rw [hfront]
      rfl
    have hagain : next.called = (system.stage.turn world).again := hcalled
    obtain ⟨acts, ⟨hanswers, hafter, hjournal, hspares⟩, hkeeps⟩ := hrest run hunderWay hok
    refine ⟨.turn world :: acts, ⟨.wait world hresult (hact ▸ hanswers), ?_, ?_, hspares⟩, ?_⟩
    · rw [← hafter, ← hact]
      rfl
    · rw [Stage.journal, hown, hact]
      exact (List.Sublist.refl journal).append hjournal
    · rw [hnow, hagain, ← hact] at hkeeps
      exact .turn (Nat.le_refl _) (fun _ => rfl) hkeeps

/-- The rest of an execution that is under way. If the foreground has been called, no time passes up
to its next turn. -/
theorem exists_isTimedTick_complete (hspares : system.SparesRoot) (hunderWay : system.front.isSome)
    (fuel : Nat) (run : Run) {status : Status} :
    let completed := complete fuel (.waiting run) system
    completed.1 = .ok status →
      ∃ acts, IsTimedTick system.stage system.world.now system.called acts status completed.2.1
        completed.2.2 := by
  induction fuel generalizing system run with
  | zero => exact nofun
  | succ fuel ih =>
    rw [complete_waiting]
    dsimp only
    have hnow : system.IsQuietSince system.stage := ⟨hspares, [], nofun, rfl⟩
    have hround := ((endures_quiet system.stage).round hnow).of_never
    cases hnext : system.afterRound? with
    | none => exact nofun
    | some next =>
      intro hok
      obtain ⟨hspares, acts, hquiet, hafter⟩ :=
        (endures_quiet system.stage).afterRound? hround hnext
      have hunderWay : next.front.isSome := by
        have hstays : next.stage.run.isSome = system.stage.run.isSome :=
          hafter ▸ Stage.isSome_run_after hquiet
        exact hstays.trans hunderWay
      have hlater : ∃ more,
          let turn := if next.called then next.runFront else (.waiting run, next, [])
          let rest := complete fuel turn.1 turn.2.1
          IsTimedTick next.stage next.world.now next.called more status rest.2.1
            (turn.2.2 ++ rest.2.2) := by
        dsimp only at hok ⊢
        split at hok
        · next hcalled =>
          rw [if_pos hcalled]
          exact exists_isTimedTick_runFront hspares
            (fun run hunderWay => ih hspares.runFront hunderWay run) next.called hok
        · next hcalled =>
          rw [if_neg hcalled]
          exact ih hspares hunderWay run hok
      obtain ⟨more, ⟨hanswers, hend, hjournal, hspares⟩, hkeeps⟩ := hlater
      have hsince := hkeeps.since (le_now_afterRound? hnext) fun hcalled =>
        called_afterRound? hcalled hnext
      rw [← hafter] at hanswers hend hjournal hsince
      refine ⟨acts ++ more, ⟨Stage.answers_append hquiet hanswers, ?_, ?_, hspares⟩, ?_⟩
      · rw [Stage.after, List.foldl_append]
        exact hend
      · rw [Stage.journal_append, Stage.journal_of_quiet hquiet, List.nil_append]
        exact hjournal.trans (List.sublist_append_right _ _)
      · exact (Stage.keepsTime_append fun act hmem =>
          Act.isTurn_of_isQuiet (hquiet act hmem)).mpr hsince

/-- Refreshing a system spares the root from tasks. -/
theorem SparesRoot.refreshed (hspares : system.SparesRoot) : system.refreshed.SparesRoot := by
  rw [System.refreshed]
  split
  · exact List.forall_mem_nil _
  · exact hspares

/-- Refreshing a system leaves the root as it is between its turns. -/
theorem stage_refreshed (hvacant : system.front = none) :
    system.refreshed.stage = system.stage := by
  rw [refreshed]
  split
  · rw [stage, stage, hvacant]
  · rfl

/-- An execution that is answered is a tick, which begins at once. -/
theorem exists_isTimedTick_execute (hspares : system.SparesRoot) (hvacant : system.front = none)
    {status : Status} (hok : system.execute.1 = .ok status) :
    ∃ acts, IsTimedTick system.stage system.world.now true acts status system.execute.2.1
      system.execute.2.2 := by
  rw [← stage_refreshed hvacant, ← now_refreshed]
  have hrefreshed := hspares.refreshed
  exact exists_isTimedTick_runFront hrefreshed (fun run hunderWay =>
    exists_isTimedTick_complete hrefreshed.runFront hunderWay _ run) true hok

/-- An execution that is answered is a tick. -/
theorem exists_isTick_execute (hspares : system.SparesRoot) (hvacant : system.front = none)
    {status : Status} (hok : system.execute.1 = .ok status) :
    ∃ acts, IsTick system.stage acts status system.execute.2.1 system.execute.2.2 := by
  obtain ⟨acts, htick⟩ := exists_isTimedTick_execute hspares hvacant hok
  exact ⟨acts, htick.toIsTick⟩

/-- Only quiet acts happen to the root while nothing is in the foreground. -/
theorem isQuietSince_pass (hspares : system.SparesRoot) (duration : Nat) :
    (system.pass duration).1.IsQuietSince system.stage := by
  have hnow : system.IsQuietSince system.stage := ⟨hspares, [], nofun, rfl⟩
  exact ((endures_quiet system.stage).passTo hnow _ _).of_never

end System

/-! ## Histories -/

/-- What an episode is in the history of the whole tree. -/
def Episode.operation? : Episode tree → Option Operation
  | .tick .. => some .execute
  | .between (.abort _) => some .abort
  | .between (.reset _) => some .reset
  | .between (.turn _) | .between (.notify _) | .between (.around ..) => none

/-- Whether an operation concerns the root itself. -/
def Operation.reachesRoot : Operation → Bool
  | .execute | .abort | .reset => true
  | .pass _ => false

namespace Stage

variable {stage : Stage tree}

/-- One history may follow another. -/
theorem Lives.append {first rest : List (Episode tree)} (hfirst : stage.Lives first)
    (hrest : (stage.afterAll first).Lives rest) : stage.Lives (first ++ rest) := by
  induction hfirst with
  | nil stage => exact hrest
  | tick hanswers _ ih => exact .tick hanswers (ih hrest)
  | between hturn _ ih => exact .between hturn (ih hrest)

/-- The ticks of two histories come one after the other. -/
theorem ticks_append (first rest : List (Episode tree)) :
    stage.ticks (first ++ rest) = stage.ticks first ++ (stage.afterAll first).ticks rest := by
  induction first generalizing stage with
  | nil => rfl
  | cons episode episodes ih =>
    cases episode with
    | tick acts status => exact congrArg (List.cons _) ih
    | between act => exact ih

/-- A history of the root in which it is executed, aborted and reset as often as the operations say,
and in which the ticks end with these answers. -/
structure IsHistory (before : Stage tree) (operations : List Operation) (statuses : List Status)
    (episodes : List (Episode tree)) (after : Stage tree) : Prop where
  /-- The episodes are possible one after the other. -/
  lives : before.Lives episodes
  /-- The root is executed, aborted and reset as the operations say. -/
  operations_eq : episodes.filterMap Episode.operation? = operations.filter Operation.reachesRoot
  /-- The ticks end with these answers. -/
  statuses_eq : (before.ticks episodes).map (·.status) = statuses
  /-- The episodes leave the root like this. -/
  after_eq : before.afterAll episodes = after

namespace IsHistory

variable {operations later : List Operation} {statuses more : List Status}
  {episodes rest : List (Episode tree)} {middle last : Stage tree}

/-- A history of some operations may follow a history of others. -/
theorem append (hfirst : stage.IsHistory operations statuses episodes middle)
    (hrest : middle.IsHistory later more rest last) :
    stage.IsHistory (operations ++ later) (statuses ++ more) (episodes ++ rest) last := by
  obtain ⟨hlives, hoperations, hstatuses, rfl⟩ := hfirst
  refine ⟨hlives.append hrest.lives, ?_, ?_, ?_⟩
  · rw [List.filterMap_append, List.filter_append, hoperations, hrest.operations_eq]
  · rw [ticks_append, List.map_append, hstatuses, hrest.statuses_eq]
  · rw [afterAll, List.foldl_append]
    exact hrest.after_eq

/-- Nothing is seen of quiet acts between two ticks. -/
theorem quiet {acts : List (Act tree)} (hquiet : ∀ act ∈ acts, act.isQuiet)
    (hunseen : operations.filter Operation.reachesRoot = []) :
    stage.IsHistory operations [] (acts.map .between) (stage.after acts) := by
  induction acts generalizing stage with
  | nil => exact ⟨.nil stage, hunseen.symm, rfl, rfl⟩
  | cons act acts ih =>
    obtain ⟨hact, hrest⟩ := List.forall_mem_cons.mp hquiet
    obtain ⟨hlives, hoperations, hstatuses, hafter⟩ := @ih (stage.act act) hrest
    refine ⟨.between (Act.isTurn_of_isQuiet hact) hlives, ?_, hstatuses, hafter⟩
    rw [← hoperations, List.map_cons]
    obtain ⟨call, rfl⟩ | ⟨binding, below, rfl⟩ := Act.exists_of_isQuiet hact <;> rfl

end IsHistory

end Stage

namespace System

variable {system : System tree}

/-- The results of the executions among the operations. -/
def results (system : System tree) : List Operation → List (Except Fault Status)
  | [] => []
  | .execute :: operations => system.execute.1 :: (system.next .execute).results operations
  | .abort :: operations => (system.next .abort).results operations
  | .reset :: operations => (system.next .reset).results operations
  | .pass duration :: operations => (system.next (.pass duration)).results operations

/-- What is done with a tree is a history of its root, if every execution is answered: executions
are ticks, aborts and resets come between them, and so does what happens while time passes. -/
theorem exists_isHistory (hspares : system.SparesRoot) (hvacant : system.front = none)
    (operations : List Operation) (statuses : List Status)
    (hanswered : system.results operations = statuses.map .ok) :
    ∃ episodes, system.stage.IsHistory operations statuses episodes
      (system.nextAll operations).stage := by
  induction operations generalizing system statuses with
  | nil =>
    obtain rfl : statuses = [] := by simpa [results] using hanswered.symm
    exact ⟨[], .nil _, rfl, rfl, rfl⟩
  | cons operation operations ih =>
    cases operation with
    | execute =>
      cases statuses with
      | nil => cases hanswered
      | cons status statuses =>
        obtain ⟨hok, hrest⟩ := List.cons.inj hanswered
        obtain ⟨acts, hanswers, hafter, -, hspares⟩ := exists_isTick_execute hspares hvacant hok
        obtain ⟨episodes, hhistory⟩ := ih hspares (front_execute system) statuses hrest
        have htick : system.stage.IsHistory [.execute] [status] [.tick acts status]
            system.execute.2.1.stage := ⟨.tick hanswers (.nil _), rfl, rfl, hafter⟩
        exact ⟨_, htick.append hhistory⟩
    | abort =>
      obtain ⟨episodes, hhistory⟩ := @ih system.abort.1 hspares hvacant statuses hanswered
      have habort : system.stage.IsHistory [.abort] [] [.between (.abort system.world.now)]
          system.abort.1.stage := ⟨.between rfl (.nil _), rfl, rfl, rfl⟩
      exact ⟨_, habort.append hhistory⟩
    | reset =>
      obtain ⟨episodes, hhistory⟩ := @ih system.reset.1 hspares hvacant statuses hanswered
      have hreset : system.stage.IsHistory [.reset] [] [.between (.reset system.world.now)]
          system.reset.1.stage := ⟨.between rfl (.nil _), rfl, rfl, rfl⟩
      exact ⟨_, hreset.append hhistory⟩
    | pass duration =>
      obtain ⟨hspared, acts, hquiet, hafter⟩ := isQuietSince_pass hspares duration
      obtain ⟨episodes, hhistory⟩ := ih hspared (front_passTo hvacant _ _) statuses hanswered
      have hpass : system.stage.IsHistory [.pass duration] [] (acts.map .between)
          (system.pass duration).1.stage := hafter ▸ .quiet hquiet rfl
      exact ⟨_, hpass.append hhistory⟩

/-- To the root it is a quiet act to be bound to a context. -/
theorem exists_act_bind (system : System tree) (id : Nat) :
    ∃ act : Act tree, act.isQuiet ∧ system.stage.act act = (system.bind id).1.stage := by
  obtain ⟨name, kind, children⟩ := tree
  obtain ⟨memory, world, front⟩ := system
  cases memory with
  | node cell below => exact ⟨.around (.shared id) _, rfl, rfl⟩

end System

/-- A tree that has never run comes from fresh memories by quiet acts, however it is obtained. -/
theorem Start.exists_quiet (start : Start) :
    (start.system tree).SparesRoot ∧ (start.system tree).front = none ∧
      ∃ binding, ∃ acts : List (Act tree), (∀ act ∈ acts, act.isQuiet) ∧
        (Stage.fresh tree binding).after acts = (start.system tree).stage := by
  cases start with
  | bound context => exact ⟨nofun, rfl, .shared 0, [], nofun, rfl⟩
  | unbound context => exact ⟨nofun, rfl, .own {}, [], nofun, rfl⟩
  | begun context =>
    obtain ⟨act, hquiet, hbound⟩ := (System.unbound tree context).exists_act_bind 0
    exact ⟨nofun, rfl, .own {}, [act], by simpa using hquiet, hbound⟩

/-- Whatever is done with a tree from the beginning is a history of its root. -/
theorem Start.exists_isHistory (start : Start) (operations : List Operation)
    (statuses : List Status)
    (hanswered : (start.system tree).results operations = statuses.map .ok) :
    ∃ binding episodes, (Stage.fresh tree binding).IsHistory operations statuses episodes
      ((start.system tree).nextAll operations).stage := by
  obtain ⟨hspares, hvacant, binding, acts, hquiet, hafter⟩ := @Start.exists_quiet κ _ tree start
  obtain ⟨episodes, hhistory⟩ :=
    System.exists_isHistory hspares hvacant operations statuses hanswered
  have hbegin : (Stage.fresh tree binding).IsHistory [] [] (acts.map .between)
      (start.system tree).stage := hafter ▸ .quiet hquiet rfl
  exact ⟨binding, _, hbegin.append hhistory⟩

end BehaviorTree
