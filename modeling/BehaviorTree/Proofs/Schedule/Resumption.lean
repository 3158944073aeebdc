import BehaviorTree.Proofs.Schedule.Foreground

/-!
# Resuming what is running

A sequential tree keeps exactly what it needs to resume. Between ticks it is ready, whatever ticks,
aborts and resets came before (`Session.Reached.isSettled`). In a tick, a node that answers success
or failure keeps nothing in its whole subtree, and a leaf can answer running only as the last leaf
of a tick that answers running; then the next tick begins with that leaf, unless an abort or a reset
comes in between (`Session.resumption`).
-/

namespace BehaviorTree

open Journal

variable {κ : Type} [Application κ] {tree : Tree κ}

namespace System

/-- Nothing is under way, and the tree can begin an execution. -/
structure IsSettled (system : System tree) : Prop where
  /-- Nothing runs beside the foreground. -/
  alone : system.IsAlone
  /-- Nothing is suspended. -/
  front_eq : system.front = none
  /-- A new execution can begin. -/
  isReady : system.memory.IsReady

/-- Being settled is not about the world. -/
theorem IsSettled.inWorld {system : System tree} (hsettled : system.IsSettled) (world : World) :
    IsSettled { system with world } :=
  ⟨⟨hsettled.alone.tasks_eq, hsettled.alone.ready_eq⟩, hsettled.front_eq, hsettled.isReady⟩

/-- A settled system waits for no timers. -/
theorem IsSettled.timers_eq {system : System tree} (hsettled : system.IsSettled) :
    system.timers = [] := by
  simp [timers, hsettled.front_eq, hsettled.alone.tasks_eq]

/-- Only the clock moves when nothing is under way. -/
theorem IsSettled.moveClock {system : System tree} (hsettled : system.IsSettled) (time : Nat) :
    ∃ world, system.moveClock time = { system with world } := by
  rw [System.moveClock, hsettled.timers_eq]
  exact ⟨_, rfl⟩

/-- A system without tasks is settled at once. -/
theorem IsAlone.settle {system : System tree} (halone : system.IsAlone) :
    system.settle = (system, []) := by
  rw [System.settle]
  cases system.patience with
  | zero => rfl
  | succ fuel => rw [settleWith, halone.ready_eq, List.isEmpty_nil, if_pos rfl]

/-- Time passes without anything happening. -/
theorem IsSettled.pass {system : System tree} (hsettled : system.IsSettled) (duration : Nat) :
    ∃ world, (system.pass duration).1 = { system with world } := by
  rw [System.pass]
  cases system.patience with
  | zero => exact hsettled.moveClock _
  | succ fuel =>
    have hnext : system.nextDue? = none := by
      rw [nextDue?, hsettled.timers_eq]
      rfl
    rw [passTo, hsettled.alone.settle]
    dsimp only
    rw [hnext]
    exact hsettled.moveClock _

end System

namespace Session

/-- The sessions that ticks, aborts and resets lead to, with time passing and contexts changing in
between. Only a tick that answers is followed by anything. -/
inductive Reached : Session tree → Prop
  | begun (context : Context) : Reached (Session.begin tree context).1
  | loaded (context : Context) : Reached { system := .bound tree context }
  | ticked {session : Session tree} {status : Status} (hreached : Reached session)
      (hstatus : session.tick.1 = .ok status) : Reached session.tick.2.1
  | aborted {session : Session tree} (hreached : Reached session) : Reached session.abort.1
  | restored {session : Session tree} (hreached : Reached session) : Reached session.reset.1
  | passed {session : Session tree} (duration : Nat) (hreached : Reached session) :
      Reached { session with system := (session.system.pass duration).1 }
  | changed {session : Session tree} (id : Nat) (change : Context → Context)
      (hreached : Reached session) :
      Reached { session with system := session.system.modifyContext id change }

/-- The sessions that come after one without a tick, an abort or a reset. -/
inductive LeftAlone (session : Session tree) : Session tree → Prop
  | now : LeftAlone session session
  | passed {later : Session tree} (duration : Nat) (halone : LeftAlone session later) :
      LeftAlone session { later with system := (later.system.pass duration).1 }
  | changed {later : Session tree} (id : Nat) (change : Context → Context)
      (halone : LeftAlone session later) :
      LeftAlone session { later with system := later.system.modifyContext id change }

/-- A tick executes the root and adds nothing that a node does. -/
theorem tick_eq (session : Session tree) :
    session.tick.1 = session.system.execute.1 ∧
      session.tick.2.1.system = session.system.execute.2.1 ∧
        milestones session.tick.2.2 = milestones session.system.execute.2.2 := by
  rw [tick]
  generalize session.system.execute = ended
  obtain ⟨result, system, journal⟩ := ended
  cases result with
  | error fault => exact ⟨rfl, rfl, rfl⟩
  | ok status =>
    refine ⟨rfl, rfl, ?_⟩
    have hreport : milestones (session.changeReport status system.world.now) = [] := by
      rw [changeReport]
      split <;> rfl
    simp only [milestones_append, hreport, List.append_nil]

/-- The answers given in the course of a tick. -/
def answers (session : Session tree) : List (Answer κ) := session.system.executeAnswers

/-- Every session that is reached is settled. -/
theorem Reached.isSettled (hsequential : tree.IsSequential) {session : Session tree}
    (hreached : session.Reached) : session.system.IsSettled := by
  induction hreached with
  | begun context =>
    exact ⟨⟨rfl, rfl⟩, rfl, ((atRest_fresh _ tree).bind _ _ _).isReady hsequential⟩
  | loaded context => exact ⟨⟨rfl, rfl⟩, rfl, (atRest_fresh _ tree).isReady hsequential⟩
  | @ticked session status hreached hstatus ih =>
    obtain ⟨hresult, hsystem, -⟩ := session.tick_eq
    have hends := (System.ends_execute hsequential ih.alone ih.isReady).1
    rw [hsystem]
    exact ⟨hends.alone, hends.front_eq, hends.ready status (hresult ▸ hstatus)⟩
  | aborted hreached ih =>
    exact ⟨⟨ih.alone.tasks_eq, ih.alone.ready_eq⟩, ih.front_eq, ih.isReady.abort _⟩
  | restored hreached ih =>
    exact ⟨⟨ih.alone.tasks_eq, ih.alone.ready_eq⟩, ih.front_eq,
      (Memory.atRest_reset _ hsequential _).isReady hsequential⟩
  | passed duration hreached ih =>
    obtain ⟨world, hpass⟩ := ih.pass duration
    exact hpass ▸ ih.inWorld world
  | changed id change hreached ih => exact ih.inWorld _

/-- A session that is left alone keeps what it keeps. -/
theorem LeftAlone.memory_eq {session later : Session tree} (hlater : session.LeftAlone later)
    (hsettled : session.system.IsSettled) :
    later.system.IsSettled ∧ later.system.memory = session.system.memory := by
  induction hlater with
  | now => exact ⟨hsettled, rfl⟩
  | passed duration halone ih =>
    obtain ⟨world, hpass⟩ := ih.1.pass duration
    dsimp only
    rw [hpass]
    exact ⟨ih.1.inWorld world, ih.2⟩
  | changed id change halone ih => exact ⟨ih.1.inWorld _, ih.2⟩

/-- In every tick of a sequential tree, a node that answers success or failure keeps nothing in its
whole subtree. The answers are those of the nodes at their positions, and exactly those that the
journal reports. A leaf that answers running is the last leaf of the tick and makes the tick answer
running, and the next tick begins with that leaf, if neither an abort nor a reset comes in
between. -/
theorem resumption (hsequential : tree.IsSequential) {session : Session tree}
    (hreached : session.Reached) :
    (session.answers.map Answer.milestone =
        (milestones session.tick.2.2).filter (·.answer.isSome) ∧
      ∀ answer ∈ session.answers, tree.at? answer.path = some answer.tree ∧
        (answer.status.isTerminal → answer.memory.AtRest)) ∧
    ∀ before path after,
      leafMilestones tree.isLeafAt session.tick.2.2 = before ++ ⟨path, some .running⟩ :: after →
        after = [] ∧ session.tick.1 = .ok .running ∧
          ∀ later, session.tick.2.1.LeftAlone later →
            (leafMilestones tree.isLeafAt later.tick.2.2).head? = some ⟨path, none⟩ := by
  have hsettled := hreached.isSettled hsequential
  obtain ⟨hends, -⟩ := System.ends_execute hsequential hsettled.alone hsettled.isReady
  obtain ⟨hresult, hsystem, hmilestones⟩ := session.tick_eq
  refine ⟨⟨hmilestones ▸ hends.reported, fun answer hmem =>
    ⟨System.at?_of_mem_executeAnswers answer hmem, hends.answers_atRest answer hmem⟩⟩, ?_⟩
  intro before path after hleaves
  rw [leafMilestones, hmilestones] at hleaves
  obtain ⟨rfl, hrunning, hpoints⟩ := hends.orderly.after_running hleaves
  refine ⟨rfl, hresult.trans hrunning, fun later hlater => ?_⟩
  obtain ⟨hlaterSettled, hmemory⟩ :=
    hlater.memory_eq ((hreached.ticked (hresult.trans hrunning)).isSettled hsequential)
  have hresumes := (System.ends_execute hsequential hlaterSettled.alone hlaterSettled.isReady).2
  rw [leafMilestones, (later.tick_eq).2.2]
  refine hresumes rfl path ?_
  rw [hmemory, hsystem]
  exact hpoints

/-- A sequence that waits. -/
def waitingSequence : Tree Empty :=
  ⟨"", .sequence, [⟨"", .alwaysSuccess, []⟩, ⟨"", .wait 100, []⟩]⟩

/-- The first tick of the sequence ends at the second child, and the next one begins there. -/
theorem resumption_waitingSequence :
    let session := (Session.begin waitingSequence {}).1
    waitingSequence.IsSequential ∧ session.Reached ∧
      leafMilestones waitingSequence.isLeafAt session.tick.2.2 =
        [⟨[0], none⟩, ⟨[0], some .success⟩, ⟨[1], none⟩] ++ [⟨[1], some .running⟩] ∧
      session.tick.1 = .ok .running ∧
      ∀ later, session.tick.2.1.LeftAlone later →
        (leafMilestones waitingSequence.isLeafAt later.tick.2.2).head? = some ⟨[1], none⟩ := by
  intro session
  have hsequential : waitingSequence.IsSequential :=
    ⟨trivial, ⟨rfl, trivial⟩, ⟨rfl, trivial⟩, trivial⟩
  have hreached : session.Reached := .begun {}
  have hleaves : leafMilestones waitingSequence.isLeafAt session.tick.2.2 =
      [⟨[0], none⟩, ⟨[0], some .success⟩, ⟨[1], none⟩] ++ [⟨[1], some .running⟩] := rfl
  exact ⟨hsequential, hreached, hleaves, ((resumption hsequential hreached).2 _ _ _ hleaves).2⟩

end Session

end BehaviorTree
