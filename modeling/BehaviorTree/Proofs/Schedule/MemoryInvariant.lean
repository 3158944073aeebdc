import BehaviorTree.Proofs.Schedule.Invariant

/-!
# What a system keeps to from turn to turn

A law is a condition on the memory, on the shared contexts and on the suspended executions. What
happens between the turns is no danger to it: calls are passed on, tasks come and go, the clock
moves. So if every turn keeps to the law, or is one of those that are waited for, then the system
keeps to it until one of those comes (`System.Obeys.nextAll`).
-/

namespace BehaviorTree

variable {κ : Type} [Application κ] {tree : Tree κ}

/-- An execution that leaves something suspended waits. -/
theorem Outcome.eq_waiting_of_run? {outcome : Outcome} {run : Run}
    (hrun : outcome.run? = some run) : outcome = .waiting run := by
  cases outcome with
  | waiting held =>
    cases hrun
    rfl
  | answered status => cases hrun
  | failed fault => cases hrun

/-- A condition on the memory and the shared contexts, and one on the suspended execution of the
tree at a position. -/
structure Law (tree : Tree κ) where
  /-- The condition on the memory and the shared contexts. -/
  holds : Memory tree → List Context → Prop
  /-- The condition on the suspended execution of the tree at a position. -/
  allows : Path → Run → Prop

/-- A turn begins within the law. -/
structure Turn.Finds (turn : Turn tree) (law : Law tree) : Prop where
  /-- The memory and the shared contexts satisfy the law. -/
  holds : law.holds turn.memory turn.world.contexts
  /-- The suspended execution is one that the law allows. -/
  allows : ∀ run, turn.run = some run → law.allows turn.path run

/-- A turn ends within the law. -/
structure Turn.Leaves (turn : Turn tree) (law : Law tree) : Prop where
  /-- The memory and the shared contexts satisfy the law afterwards. -/
  holds : law.holds turn.progress.memory turn.progress.world.contexts
  /-- What the turn leaves suspended is allowed. -/
  allows : ∀ run, turn.progress.result = .waiting run → law.allows turn.path run

/-- The law survives what happens between the turns, and the turns that begin within it are quiet
and end within it, or they are waited for. -/
structure Law.Binds (law : Law tree) (quiet final : Turn tree → Prop) : Prop where
  /-- A turn that begins within the law is quiet and ends within it, or it is waited for. -/
  turn : ∀ turn : Turn tree, turn.Finds law → (quiet turn ∧ turn.Leaves law) ∨ final turn
  /-- A suspended execution is still allowed when a call is passed on to it. -/
  notify : ∀ path run call, law.allows path run → law.allows path (run.notify call)
  /-- An abort stays within the law. -/
  abort : ∀ now memory contexts, law.holds memory contexts → law.holds (memory.abort now).1 contexts
  /-- A reset stays within the law. -/
  reset : ∀ now memory contexts, law.holds memory contexts → law.holds (memory.reset now).1 contexts

namespace System

/-- The system is within the law. -/
structure Obeys (system : System tree) (law : Law tree) : Prop where
  /-- The memory and the shared contexts satisfy the law. -/
  holds : law.holds system.memory system.world.contexts
  /-- What is suspended in the foreground is allowed. -/
  front : ∀ run, system.front = some run → law.allows [] run
  /-- What a task has suspended is allowed. -/
  task : ∀ id task, system.task? id = some task → ∀ run, task.run = some run →
    law.allows task.path run

variable {law : Law tree} {quiet final : Turn tree → Prop} {system : System tree}

/-! ## Tasks -/

/-- A change of tasks that keeps their numbers changes the task with a number. -/
theorem task?_of_map {later : System tree} {change : Task → Task}
    (hchange : ∀ task, (change task).id = task.id)
    (htasks : later.tasks = system.tasks.map change) (id : Nat) :
    later.task? id = (system.task? id).map change := by
  rw [task?, htasks, List.find?_map]
  congr 2
  funext task
  simp only [Function.comp_apply, hchange]

/-- A task that is found among more tasks has been there before, or has not begun. -/
theorem task?_of_append {later : System tree} {tasks : List Task}
    (htasks : later.tasks = system.tasks ++ tasks) (hfresh : ∀ task ∈ tasks, task.run = none)
    {id : Nat} {task : Task} (htask : later.task? id = some task) :
    system.task? id = some task ∨ task.run = none := by
  rw [task?, htasks, List.find?_append, Option.or_eq_some_iff] at htask
  obtain hold | ⟨-, hnew⟩ := htask
  · exact .inl hold
  · exact .inr (hfresh task (List.mem_of_find?_eq_some hnew))

/-- What is found among the tasks without the one that has ended was found before. -/
theorem task?_of_filter {later : System tree} {ended : Nat}
    (htasks : later.tasks = system.tasks.filter fun task => task.id != ended)
    {id : Nat} {task : Task} (htask : later.task? id = some task) :
    system.task? id = some task := by
  rw [task?, htasks, List.find?_filter] at htask
  rw [task?, ← htask]
  have hid : task.id = id ∧ task.id ≠ ended := by
    have hfound := List.find?_some htask
    simp only [bne_iff_ne, ne_eq, decide_eq_true_eq] at hfound
    exact ⟨of_decide_eq_true (by simpa using hfound.2), hfound.1⟩
  congr 1
  funext other
  by_cases hother : other.id = id
  · have hne : other.id ≠ ended := by
      rw [hother, ← hid.1]
      exact hid.2
    simp [hother, hother ▸ hne]
  · simp [hother]

namespace Obeys

/-- The law is about the memory, the contexts and what is suspended. -/
theorem same {later : System tree} (hobeys : system.Obeys law)
    (hmemory : later.memory = system.memory)
    (hcontexts : later.world.contexts = system.world.contexts)
    (hfront : later.front = system.front) (htasks : later.tasks = system.tasks) :
    later.Obeys law := by
  constructor
  · rw [hmemory, hcontexts]
    exact hobeys.holds
  · rw [hfront]
    exact hobeys.front
  · intro id task htask
    rw [task?, htasks] at htask
    exact hobeys.task id task htask

/-! ## Between the turns -/

/-- The system is within the law after a call. -/
theorem call (hbinds : law.Binds quiet final) (hobeys : system.Obeys law) (call : Call) :
    (system.call call).Obeys law where
  holds := hobeys.holds
  front := by
    intro run hrun
    obtain ⟨held, hheld, rfl⟩ := Option.map_eq_some_iff.mp hrun
    exact hbinds.notify [] held call (hobeys.front held hheld)
  task := by
    intro id task htask run hrun
    have hid : ∀ task : Task, (task.notify call).id = task.id := fun _ => rfl
    rw [task?_of_map hid rfl] at htask
    obtain ⟨before, hbefore, rfl⟩ := Option.map_eq_some_iff.mp htask
    obtain ⟨held, hheld, rfl⟩ := Option.map_eq_some_iff.mp hrun
    exact hbinds.notify before.path held call (hobeys.task id before hbefore held hheld)

/-- A refreshed system is within the law. -/
theorem refreshed (hobeys : system.Obeys law) : system.refreshed.Obeys law := by
  rw [System.refreshed]
  split
  · refine ⟨hobeys.holds, fun run hrun => ?_, fun id task htask => ?_⟩
    · cases hrun
    · cases htask
  · exact hobeys

/-! ## Turns -/

/-- What a turn leaves behind, before its own execution is put back. -/
theorem absorb (hobeys : system.Obeys law) {ρ : Type} {progress : Progress ρ (Memory tree)}
    (hholds : law.holds progress.memory progress.world.contexts) :
    (system.absorb progress).Obeys law where
  holds := hholds
  front := hobeys.front
  task := by
    intro id task htask run hrun
    have hfresh : ∀ task ∈ progress.spawned.map fun spawn =>
        (⟨spawn.task, spawn.path, none⟩ : Task), task.run = none := by
      intro task hmem
      obtain ⟨spawn, -, rfl⟩ := List.mem_map.mp hmem
      rfl
    obtain hold | hnone := task?_of_append rfl hfresh htask
    · exact hobeys.task id task hold run hrun
    · cases hnone.symm.trans hrun

/-- What a turn has done leaves the tasks where they are. -/
theorem task?_absorb {ρ : Type} {progress : Progress ρ (Memory tree)} {id : Nat} {task : Task}
    (htask : system.task? id = some task) : (system.absorb progress).task? id = some task := by
  rw [task?] at htask
  rw [task?, System.absorb, List.find?_append, htask]
  rfl

/-- The system is within the law after the run of a task has been put back. -/
theorem park (hobeys : system.Obeys law) {task : Task} {run : Run} (again : Bool)
    (htask : system.task? task.id = some task) (hrun : law.allows task.path run) :
    (system.park task.id run again).Obeys law where
  holds := hobeys.holds
  front := hobeys.front
  task := by
    intro id later hlater held hheld
    rw [task?_of_map (fun task => by split <;> rfl) rfl] at hlater
    obtain ⟨before, hbefore, rfl⟩ := Option.map_eq_some_iff.mp hlater
    split at hheld
    · next hid =>
      cases hheld
      rw [if_pos hid]
      have hsame : before = task := by
        rw [← id_eq_of_task? hbefore, hid, htask] at hbefore
        exact (Option.some.inj hbefore).symm
      rw [hsame]
      exact hrun
    · next hid =>
      rw [if_neg hid]
      exact hobeys.task id before hbefore held hheld

/-- The system is within the law after a task has been concluded. -/
theorem conclude (hbinds : law.Binds quiet final) (hobeys : system.Obeys law) (id : Nat)
    (result : Option Status) : (system.conclude id result).Obeys law := by
  refine Obeys.call hbinds ?_ (.ended id)
  exact ⟨hobeys.holds, hobeys.front, fun other task htask run hrun =>
    hobeys.task other task (task?_of_filter rfl htask) run hrun⟩

/-- The system is within the law after the turn of a task that ends within it. -/
theorem afterTurn (hbinds : law.Binds quiet final) (hobeys : system.Obeys law) {task : Task}
    (htask : system.task? task.id = some task) (hleaves : (system.turnOfTask task).Leaves law) :
    (system.afterTurn task).Obeys law := by
  have habsorbed := hobeys.absorb hleaves.holds
  rw [System.afterTurn]
  split
  · next run hresult => exact habsorbed.park _ (task?_absorb htask) (hleaves.allows run hresult)
  · exact habsorbed.conclude hbinds _ _
  · exact habsorbed.conclude hbinds _ _

/-- The system is within the law after a turn of the foreground that ends within it. -/
theorem runFront (hobeys : system.Obeys law) (hleaves : system.turnOfFront.Leaves law) :
    system.runFront.2.1.Obeys law := by
  rw [runFront_eq, ← progress_turnOfFront]
  have habsorbed := hobeys.absorb hleaves.holds
  refine ⟨habsorbed.holds, fun run hrun => hleaves.allows run ?_, habsorbed.task⟩
  exact Outcome.eq_waiting_of_run? hrun

/-- A law that binds lasts from turn to turn. -/
theorem persists (hbinds : law.Binds quiet final) :
    System.Persists (fun system : System tree => system.Obeys law) quiet final where
  call := fun _ call hobeys => hobeys.call hbinds call
  callFront := fun _ hobeys => hobeys.same rfl rfl rfl rfl
  ready := fun _ _ hobeys => hobeys.same rfl rfl rfl rfl
  served := fun _ hobeys => hobeys.same rfl rfl rfl rfl
  clock := fun _ _ _ hobeys => hobeys.same rfl rfl rfl rfl
  turn := by
    intro system task htask hobeys
    have hfinds : (system.turnOfTask task).Finds law := ⟨hobeys.holds, hobeys.task _ task htask⟩
    exact (hbinds.turn _ hfinds).imp_left fun hquiet =>
      ⟨hquiet.1, hobeys.afterTurn hbinds htask hquiet.2⟩
  frontTurn := by
    intro system hobeys
    have hfinds : system.turnOfFront.Finds law := ⟨hobeys.holds, hobeys.front⟩
    exact (hbinds.turn _ hfinds).imp_left fun hquiet => ⟨hquiet.1, hobeys.runFront hquiet.2⟩
  givenUp := fun _ hobeys => ⟨hobeys.holds, nofun, hobeys.task⟩
  refreshed := fun _ hobeys => hobeys.refreshed
  abort := fun _ hobeys => ⟨hbinds.abort _ _ _ hobeys.holds, hobeys.front, hobeys.task⟩
  reset := fun _ hobeys => ⟨hbinds.reset _ _ _ hobeys.holds, hobeys.front, hobeys.task⟩

/-- In the course of an operation the law is kept until a turn that is waited for. -/
theorem next (hbinds : law.Binds quiet final) (hobeys : system.Obeys law) (operation : Operation) :
    Until quiet final (system.turnsOf operation) ((system.next operation).Obeys law) :=
  (persists hbinds).next hobeys operation

/-- The system is within the law after several operations. -/
theorem nextAll (hbinds : law.Binds quiet final) (hobeys : system.Obeys law)
    (operations : List Operation) :
    Until quiet final (system.turnsAlong operations) ((system.nextAll operations).Obeys law) :=
  (persists hbinds).nextAll hobeys operations

end Obeys

end System

end BehaviorTree
