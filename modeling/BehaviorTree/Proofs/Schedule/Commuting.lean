import BehaviorTree.Proofs.Schedule.Blackboard
import BehaviorTree.Proofs.Schedule.Numbering
import BehaviorTree.Proofs.Tree.Independence

/-!
# Children of a parallel node in another order

Let none of the children of a parallel node write what another one writes or reads, and let none
wait inside a tick. Then their order makes no difference: the tick has the same status, leaves the
same blackboard and leaves every child in the same state (`Session.Reached.commutes`). The children
may be in any state that ticks, aborts and resets lead to, and tasks may be left from earlier ticks.
-/

namespace BehaviorTree

variable {κ : Type} [Application κ] {tree : Tree κ}

/-! ## Numbers of tasks -/

namespace System

/-- The tasks that are under way and those whose results are noted have numbers that have been
given away. -/
structure IsCounted (system : System tree) : Prop where
  /-- A task that is under way has been given its number. -/
  task_lt : ∀ task ∈ system.tasks, task.id < system.world.tasksStarted
  /-- A result is that of a task that has been given its number. -/
  result_lt : ∀ ended ∈ system.world.results, ended.1 < system.world.tasksStarted

variable {system : System tree}

namespace IsCounted

/-- There is no result of a task that has not been started. -/
theorem result?_eq_none (hcounted : system.IsCounted) {task : Nat}
    (hle : system.world.tasksStarted ≤ task) : system.world.result? task = none := by
  rw [World.result?, List.lookup_eq_none_iff]
  intro ended hmem
  have hlt := hcounted.result_lt ended hmem
  simp
  omega

/-- A call leaves the tasks counted. -/
theorem call (hcounted : system.IsCounted) (call : Call) : (system.call call).IsCounted := by
  refine ⟨fun task hmem => ?_, hcounted.result_lt⟩
  obtain ⟨before, hbefore, rfl⟩ := List.mem_map.mp hmem
  exact hcounted.task_lt before hbefore

/-- What a turn has done leaves the tasks counted. -/
theorem absorb (hcounted : system.IsCounted) {progress : Progress Outcome (Memory tree)}
    {held : List Timer} {party : Party}
    (hnumbers : progress.Numbers Outcome.timers held (system.world.beginTurn party)) :
    (system.absorb progress).IsCounted := by
  have hgrows := hnumbers.grows
  refine ⟨fun task hmem => ?_, fun ended hended => ?_⟩
  · rcases List.mem_append.mp hmem with hold | hnew
    · exact Nat.lt_of_lt_of_le (hcounted.task_lt task hold) hgrows.tasks_le
    · obtain ⟨spawn, hspawn, rfl⟩ := List.mem_map.mp hnew
      exact (hnumbers.spawned spawn hspawn).task_lt
  · have hresults : (system.absorb progress).world.results = system.world.results :=
      hgrows.results_eq
    rw [hresults] at hended
    exact Nat.lt_of_lt_of_le (hcounted.result_lt ended hended) hgrows.tasks_le

/-- Parking a task leaves the tasks counted. -/
theorem park (hcounted : system.IsCounted) (id : Nat) (run : Run) (again : Bool) :
    (system.park id run again).IsCounted := by
  refine ⟨fun task hmem => ?_, hcounted.result_lt⟩
  obtain ⟨before, hbefore, rfl⟩ := List.mem_map.mp hmem
  split <;> exact hcounted.task_lt before hbefore

/-- Concluding a task leaves the tasks counted. -/
theorem conclude (hcounted : system.IsCounted) {id : Nat} (hid : id < system.world.tasksStarted)
    (result : Option Status) : (system.conclude id result).IsCounted := by
  refine IsCounted.call ⟨fun task hmem => ?_, fun ended hended => ?_⟩ (.ended id)
  · exact hcounted.task_lt task (List.mem_filter.mp hmem).1
  · rcases List.mem_append.mp hended with hended | hended
    · exact hcounted.result_lt ended hended
    · rw [List.mem_singleton.mp hended]
      exact hid

/-- The turn of a task leaves the tasks counted. -/
theorem afterTurn (hcounted : system.IsCounted) {task : Task}
    (htask : system.task? task.id = some task) : (system.afterTurn task).IsCounted := by
  have hnumbers : (system.turnOfTask task).progress.Numbers Outcome.timers task.timers
      (system.world.beginTurn (.task task.id)) := numbers_advanceAt task.path task.run _ _
  have habsorbed := hcounted.absorb hnumbers
  have hid : task.id < (system.absorb (system.turnOfTask task).progress).world.tasksStarted :=
    Nat.lt_of_lt_of_le (hcounted.task_lt task (List.mem_of_find?_eq_some htask))
      hnumbers.grows.tasks_le
  rw [System.afterTurn]
  split
  · exact habsorbed.park _ _ _
  · exact habsorbed.conclude hid _
  · exact habsorbed.conclude hid _

/-- The turn of the foreground leaves the tasks counted. -/
theorem runFront (hcounted : system.IsCounted) : system.runFront.2.1.IsCounted := by
  have habsorbed := hcounted.absorb (numbers_advance tree system.front system.memory
    (system.world.beginTurn .front))
  rw [runFront_eq]
  exact { habsorbed with }

end IsCounted

/-- No number is given away twice, whatever is done. -/
theorem persists_counted :
    Persists (fun system : System tree => system.IsCounted) (fun _ => True) (fun _ => False) where
  call := fun _ call hcounted => hcounted.call call
  callFront := fun _ hcounted => { hcounted with }
  ready := fun _ _ hcounted => { hcounted with }
  served := fun _ hcounted => { hcounted with }
  clock := fun _ _ _ hcounted => { hcounted with result_lt := List.forall_mem_nil _ }
  turn := fun _ _ htask hcounted => .inl ⟨trivial, hcounted.afterTurn htask⟩
  frontTurn := fun _ hcounted => .inl ⟨trivial, hcounted.runFront⟩
  givenUp := fun _ hcounted => { hcounted with }
  refreshed := by
    intro system hcounted
    rw [System.refreshed]
    split
    · exact ⟨List.forall_mem_nil _, List.forall_mem_nil _⟩
    · exact hcounted
  abort := fun _ hcounted => { hcounted with }
  reset := fun _ hcounted => { hcounted with }

end System

/-- In a session the tasks are counted. -/
theorem Session.Reached.isCounted {session : Session tree} (hreached : session.Reached) :
    session.system.IsCounted :=
  hreached.kept (·.IsCounted) (fun _ => ⟨List.forall_mem_nil _, List.forall_mem_nil _⟩)
    (fun _ => ⟨List.forall_mem_nil _, List.forall_mem_nil _⟩)
    (fun hcounted operation => (System.persists_counted.next hcounted operation).of_never)
    fun hcounted _ _ => { hcounted with }

/-! ## Executions that answer at once -/

namespace System

/-- The world in which an execution begins. -/
def dawn (system : System tree) : World := system.refreshed.world.beginTurn .front

/-- A system is refreshed by forgetting what its world has counted, if no task is under way. -/
theorem refreshed_eq (system : System tree) :
    system.refreshed.memory = system.memory ∧ system.refreshed.world =
      if system.tasks.isEmpty then system.world.atRest else system.world := by
  rw [refreshed]
  split <;> exact ⟨rfl, rfl⟩

/-- When the first turn of the root answers, the execution is over. -/
theorem execute_of_answered {system : System tree} (hfront : system.front = none) {status : Status}
    (hresult : (advance tree none system.memory system.dawn).result = .answered status) :
    system.execute.1 = .ok status ∧
      system.execute.2.1.memory = (advance tree none system.memory system.dawn).memory ∧
        system.execute.2.1.world = (advance tree none system.memory system.dawn).world := by
  have hturn : system.refreshed.frontTurn = advance tree none system.memory system.dawn := by
    rw [frontTurn, front_refreshed hfront, system.refreshed_eq.1]
    rfl
  rw [execute, runFront_eq, hturn]
  dsimp only
  rw [hresult]
  cases system.patience <;> exact ⟨rfl, rfl, rfl⟩

variable {name : String} {settings : ParallelSettings} {children others : List (Tree κ)}

/-- Two systems of a parallel node with the same children in the same states, but in another order.
The worlds are the same, and the tasks that are under way have the same numbers. -/
structure Reorders (system : System (⟨name, .parallel settings, children⟩ : Tree κ))
    (other : System (⟨name, .parallel settings, others⟩ : Tree κ)) : Prop where
  /-- The children are the same in the same states, in some order. -/
  branches_perm : system.memory.branches.Perm other.memory.branches
  /-- The worlds are the same. -/
  world_eq : other.world = system.world
  /-- The tasks that are under way have the same numbers. -/
  tasks_eq : other.tasks.map (·.id) = system.tasks.map (·.id)
  /-- Nothing waits in the foreground of the second system. -/
  front_eq : other.front = none

/-- The system with the children in another order. The tasks are taken over as they are. -/
def reordered (system : System (⟨name, .parallel settings, children⟩ : Tree κ))
    (branches : List (Branch κ)) :
    System (⟨name, .parallel settings, branches.map (·.tree)⟩ : Tree κ) where
  memory := .node ⟨(), system.memory.binding⟩ (.ofBranches branches)
  world := system.world
  tasks := system.tasks
  ready := system.ready

/-- The system with its children in another order is such a reordering. -/
theorem reorders_reordered (system : System (⟨name, .parallel settings, children⟩ : Tree κ))
    {branches : List (Branch κ)} (hperm : system.memory.branches.Perm branches) :
    system.Reorders (system.reordered branches) := by
  refine ⟨?_, rfl, rfl, rfl⟩
  have hbranches : (system.reordered branches).memory.branches = branches :=
    Memories.branches_ofBranches branches
  rw [hbranches]
  exact hperm

/-- The execution of a reordered system begins in the same world. -/
theorem Reorders.dawn_eq {system : System (⟨name, .parallel settings, children⟩ : Tree κ)}
    {other : System (⟨name, .parallel settings, others⟩ : Tree κ)}
    (hreorders : system.Reorders other) : other.dawn = system.dawn := by
  have htasks : other.tasks.isEmpty = system.tasks.isEmpty := by
    have hempty := congrArg List.isEmpty hreorders.tasks_eq
    rw [List.isEmpty_map, List.isEmpty_map] at hempty
    exact hempty
  rw [dawn, dawn, other.refreshed_eq.2, system.refreshed_eq.2, htasks, hreorders.world_eq]

/-- Children in company are executed with the same verdict and the same contexts in any order. -/
theorem Reorders.execute {system : System (⟨name, .parallel settings, children⟩ : Tree κ)}
    {other : System (⟨name, .parallel settings, others⟩ : Tree κ)}
    (hreorders : system.Reorders other) (hfront : system.front = none) {number : Nat}
    {status : Branch κ → Status} {effect : Branch κ → Effect}
    (hcompany : Company number system.dawn status effect system.memory.branches) :
    ∃ verdict, system.execute.1 = .ok verdict ∧ other.execute.1 = .ok verdict ∧
      other.execute.2.1.world.contexts = system.execute.2.1.world.contexts ∧
      system.execute.2.1.memory.branches = system.memory.branches.map (·.after system.dawn) ∧
      other.execute.2.1.memory.branches = other.memory.branches.map (·.after system.dawn) := by
  have hotherCompany := hcompany.perm hreorders.branches_perm
  obtain ⟨hresult, hbranches, hafter⟩ := advance_parallel name settings system.memory hcompany
  obtain ⟨hotherResult, hotherBranches, hotherAfter⟩ :=
    advance_parallel name settings other.memory hotherCompany
  rw [← hreorders.dawn_eq] at hotherResult hotherBranches hotherAfter
  obtain ⟨hstatus, hmemory, hworld⟩ := execute_of_answered hfront hresult
  obtain ⟨hotherStatus, hotherMemory, hotherWorld⟩ :=
    execute_of_answered hreorders.front_eq hotherResult
  have hverdict := Gather.verdict_perm settings (hreorders.branches_perm.map status)
  rw [hreorders.dawn_eq] at hotherBranches hotherAfter hotherMemory hotherWorld
  refine ⟨_, hstatus, hverdict ▸ hotherStatus, ?_, ?_, ?_⟩
  · rw [hworld, hotherWorld]
    exact hcompany.contexts_perm hreorders.branches_perm hafter hotherAfter
  · rw [hmemory]
    exact hbranches
  · rw [hotherMemory]
    exact hotherBranches

end System

namespace Session

variable {name : String} {settings : ParallelSettings} {children others : List (Tree κ)}

/-- Let the children of a parallel node be built in, let none of them write what another one writes
or reads, and let none wait inside the next tick. Then the tick is the same with the children in any
other order: it has the same status, it leaves the same blackboard, and it leaves every child in the
state in which it leaves that child when it is executed alone. -/
theorem Reached.commutes {session : Session (⟨name, .parallel settings, children⟩ : Tree κ)}
    (hreached : session.Reached) (hbuiltIn : Tree.AreBuiltIn children)
    (hindependent : children.Pairwise Tree.Independent)
    (hnone : Branch.NoneWaits session.system.dawn session.system.memory.branches)
    {other : System (⟨name, .parallel settings, others⟩ : Tree κ)}
    (hreorders : session.system.Reorders other) :
    let system := session.system
    ∃ status, system.execute.1 = .ok status ∧ other.execute.1 = .ok status ∧
      other.execute.2.1.world.contexts = system.execute.2.1.world.contexts ∧
      system.execute.2.1.memory.branches = system.memory.branches.map (·.after system.dawn) ∧
      other.execute.2.1.memory.branches = other.memory.branches.map (·.after system.dawn) := by
  have htree : Tree.IsBuiltIn (⟨name, .parallel settings, children⟩ : Tree κ) := ⟨rfl, hbuiltIn⟩
  have hholds := (hreached.obeys htree).holds
  have hcounted := hreached.isCounted
  have hready : session.system.dawn.IsReady 0 := by
    have hcontexts : session.system.dawn.contexts = session.system.world.contexts :=
      session.system.contexts_refreshed
    have hrefreshed : session.system.refreshed.IsCounted :=
      System.persists_counted.refreshed _ hcounted
    refine ⟨?_, fun task hle => hrefreshed.result?_eq_none hle⟩
    rw [hcontexts, hholds.2]
    exact Nat.one_pos
  have hcompany : ∃ status effect,
      Company 0 session.system.dawn status effect session.system.memory.branches := by
    generalize session.system.dawn = dawn at hready hnone
    generalize session.system.memory = memory at hholds hnone
    cases memory with
    | node cell below =>
      have htrees := below.map_tree_branches
      refine exists_company hready (fun branch hmem => ?_) hholds.1.2.isBoundTo hnone ?_
      · have hchild : branch.tree ∈ children := htrees ▸ List.mem_map_of_mem hmem
        exact Tree.isBuiltIn_of_mem hbuiltIn _ hchild
      · rw [← htrees, List.pairwise_map] at hindependent
        exact hindependent
  obtain ⟨status, effect, hcompany⟩ := hcompany
  exact hreorders.execute hreached.front_eq hcompany

/-- A setter that fills in a placeholder, and a node that counts its executions and sets another
key. -/
def surveyor : List (Tree Empty) :=
  [⟨"Plan", .setValue ⟨"route", "via {road}", "String"⟩, []⟩,
    ⟨"Twice", .repeating ⟨2, true⟩, [⟨"Mark", .setValue ⟨"mark", "1", "Int"⟩, []⟩]⟩]

/-- A session that has ticked once. The repeat node has counted once. -/
def surveyed : Session (⟨"Survey", .parallel ⟨2, 1⟩, surveyor⟩ : Tree Empty) :=
  (Session.begin ⟨"Survey", .parallel ⟨2, 1⟩, surveyor⟩ {}).1.tick.2.1

/-- One tick leads to this session from its beginning. -/
theorem reached_surveyed : surveyed.Reached := by
  have hstatus : (Session.begin (⟨"Survey", .parallel ⟨2, 1⟩, surveyor⟩ : Tree Empty)
      {}).1.tick.1 = .ok .running := by rfl
  exact (Reached.begun {}).ticked hstatus

/-- The second tick is the same in both orders. -/
theorem commutes_surveyed :
    Tree.AreBuiltIn surveyor ∧ surveyor.Pairwise Tree.Independent ∧
      Branch.NoneWaits surveyed.system.dawn surveyed.system.memory.branches ∧
      surveyed.system.Reorders
        (surveyed.system.reordered surveyed.system.memory.branches.reverse) ∧
      ∃ status, surveyed.system.execute.1 = .ok status ∧
        (surveyed.system.reordered surveyed.system.memory.branches.reverse).execute.1 =
          .ok status ∧
        (surveyed.system.reordered
          surveyed.system.memory.branches.reverse).execute.2.1.world.contexts =
            surveyed.system.execute.2.1.world.contexts := by
  have hbuiltIn : Tree.AreBuiltIn surveyor :=
    ⟨⟨rfl, trivial⟩, ⟨rfl, ⟨rfl, trivial⟩, trivial⟩, trivial⟩
  have hindependent : surveyor.Pairwise Tree.Independent := by decide +kernel
  have hnone : Branch.NoneWaits surveyed.system.dawn surveyed.system.memory.branches := by
    decide +kernel
  have hreorders := surveyed.system.reorders_reordered (List.reverse_perm _).symm
  obtain ⟨status, hstatus, hother, hcontexts, -⟩ :=
    reached_surveyed.commutes hbuiltIn hindependent hnone hreorders
  exact ⟨hbuiltIn, hindependent, hnone, hreorders, status, hstatus, hother, hcontexts⟩

end Session

end BehaviorTree
