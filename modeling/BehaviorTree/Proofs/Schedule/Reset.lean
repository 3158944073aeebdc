import BehaviorTree.Proofs.Schedule.MemoryInvariant
import BehaviorTree.Proofs.Schedule.Renewal
import BehaviorTree.Proofs.Tree.Blank
import Mathlib.Control.Monad.Basic

/-!
# Beginning from scratch after a reset

A reset puts the state of every node back, but an execution that goes on detached after a timeout
may still write to it. So after a reset a node begins from scratch if no detached execution is
inside it at that moment (`Session.first_after_reset`). Otherwise it may begin in the middle, even
in the tick that follows at once (`Session.not_scratch_after_reset`).
-/

namespace BehaviorTree

variable {κ : Type} [Application κ] {tree : Tree κ}

/-- What begins in the course of a turn. -/
def Turn.begun (turn : Turn tree) : List Beginning :=
  (watchAt turn.path turn.run turn.memory turn.world).memory.begun

/-- What begins in the course of several turns. -/
def begunIn (turns : List (Turn tree)) : List Beginning := turns.flatMap Turn.begun

/-- What a turn does is what is seen of it when it is watched. -/
theorem Turn.progress_eq (turn : Turn tree) :
    turn.progress =
      (watchAt turn.path turn.run turn.memory turn.world).map id Noted.memory :=
  (watchAt_eq turn.path turn.run turn.memory turn.world).symm

/-! ## The law of a blank node -/

/-- The node at a position is blank, and no suspended execution is inside it. -/
def blankLaw (tree : Tree κ) (path : Path) : Law tree where
  holds := fun memory _ => memory.IsBlankAt path
  allows := fun position run => run.Avoids path position

/-- A blank node stays so until its first execution begins, which begins from scratch. -/
theorem binds_blankLaw (path : Path) :
    (blankLaw tree path).Binds (fun turn => firstAt path turn.begun = none)
      (fun turn => ∃ beginning, firstAt path turn.begun = some beginning ∧
        IsBlankGauge beginning.gauge) where
  turn := by
    intro turn hfinds
    have hstays := beginsBlankFrom path turn.path tree turn.run turn.memory turn.world hfinds.holds
      hfinds.allows
    cases hfirst : firstAt path turn.begun with
    | none =>
      refine .inl ⟨rfl, ?_, ?_⟩
      · rw [turn.progress_eq]
        exact hstays.memory hfirst
      · rw [turn.progress_eq]
        exact hstays.waits hfirst
    | some beginning => exact .inr ⟨beginning, rfl, hstays.first beginning hfirst⟩
  notify := fun position run call havoids rest heq hpasses =>
    havoids rest heq ((run.passes_notify call rest).mp hpasses)
  abort := fun now _ _ hblank => hblank.abort now
  reset := fun now _ _ hblank => hblank.reset now

/-- Turns in which no execution of the node begins have none together. -/
theorem firstAt_begunIn_of_quiet {path : Path} {turns : List (Turn tree)}
    (hquiet : ∀ turn ∈ turns, firstAt path turn.begun = none) :
    firstAt path (begunIn turns) = none := by
  induction turns with
  | nil => rfl
  | cons turn turns ih =>
    rw [begunIn, List.flatMap_cons, firstAt_append, hquiet turn (by simp), Option.none_or]
    exact ih fun later hmem => hquiet later (List.mem_cons_of_mem _ hmem)

/-- Until the first execution of the node nothing else begins there. -/
theorem isBlank_of_until {path : Path} {turns : List (Turn tree)} {after : Prop}
    (huntil : Until (fun turn => firstAt path turn.begun = none)
      (fun turn => ∃ beginning, firstAt path turn.begun = some beginning ∧
        IsBlankGauge beginning.gauge) turns after)
    {beginning : Beginning} (hfirst : firstAt path (begunIn turns) = some beginning) :
    IsBlankGauge beginning.gauge := by
  obtain ⟨hquiet, -⟩ | ⟨before, turn, later, rfl, hquiet, found, hfound, hblank⟩ := huntil
  · cases (firstAt_begunIn_of_quiet hquiet).symm.trans hfirst
  · rw [begunIn, List.flatMap_append, List.flatMap_cons, firstAt_append, firstAt_append, hfound,
      ← begunIn, firstAt_begunIn_of_quiet hquiet, Option.none_or, Option.some_or] at hfirst
    cases hfirst
    exact hblank

namespace System

/-- The turns that belong to an execution of the root: those of the foreground, and of the tasks
that were not under way before. -/
def ownTurns (system : System tree) : List (Turn tree) :=
  system.turnsOfExecution.filter fun turn =>
    match turn.task with
    | none => true
    | some id => (system.task? id).isNone

end System

namespace Session

/-- After a reset, the first execution of a node begins from scratch, whatever is done with the tree
and whoever begins it, if no detached execution is inside the node at the reset. -/
theorem first_after_reset (hrelayed : tree.IsRelayed) {session : Session tree}
    (hreached : session.Reached) {path : Path}
    (hfree : ∀ task ∈ session.system.tasks, ∀ run, task.run = some run →
      run.Avoids path task.path)
    (operations : List Operation) {beginning : Beginning}
    (hfirst : firstAt path (begunIn (session.reset.1.system.turnsAlong operations)) =
      some beginning) :
    ∀ gauge, beginning.gauge = some gauge → gauge.number = 0 := by
  have hobeys : session.reset.1.system.Obeys (blankLaw tree path) := by
    refine ⟨Memory.isBlankAt_reset _ hrelayed _ path, fun run hrun => ?_,
      fun id task htask => hfree task (List.mem_of_find?_eq_some htask)⟩
    cases hreached.front_eq.symm.trans hrun
  exact isBlank_of_until (hobeys.nextAll (binds_blankLaw path) operations) hfirst

/-- A selector that is cut off by a time limit while it waits to try its first child again. Another
child comes before the limit, so that the next tick does not reach the selector at once. -/
def overrunTree : Tree Empty :=
  ⟨"Outer", .selector,
    [⟨"Delay", .retry ⟨2, 100, true⟩, [⟨"", .forceFailure, []⟩]⟩,
     ⟨"Limit", .timeout 50,
       [⟨"Inner", .selector,
         [⟨"Delay", .retry ⟨2, 120, true⟩, [⟨"", .forceFailure, []⟩]⟩, ⟨"", .wait 0, []⟩]⟩]⟩]⟩

/-- The session after a tick in which the limit was exceeded. -/
def overrun : Session overrunTree := (Session.begin overrunTree {}).1.tick.2.1

/-- One tick leads to this session from its beginning. -/
theorem reached_overrun : overrun.Reached := by
  have hstatus : (Session.begin overrunTree {}).1.tick.1 = .ok .failure := by decide +kernel
  exact (Reached.begun {}).ticked hstatus

/-- The execution that goes on detached is not inside the outer selector. -/
theorem first_after_reset_overrun :
    overrunTree.IsRelayed ∧ overrun.Reached ∧
      (∀ task ∈ overrun.system.tasks, ∀ run, task.run = some run → run.Avoids [] task.path) ∧
      firstAt [] (begunIn (overrun.reset.1.system.turnsAlong [.execute])) =
        some ⟨[], some (.cursor 0)⟩ ∧
      ∀ gauge, some (Gauge.cursor 0) = some gauge → gauge.number = 0 := by
  have hleaf : ∀ name, Tree.IsRelayed (⟨name, .forceFailure, []⟩ : Tree Empty) :=
    fun _ => ⟨.inl rfl, trivial⟩
  have hdelay : ∀ settings, Tree.IsRelayed
      (⟨"Delay", .retry settings, [⟨"", .forceFailure, []⟩]⟩ : Tree Empty) :=
    fun _ => ⟨.inl rfl, hleaf "", trivial⟩
  have hrelayed : overrunTree.IsRelayed :=
    ⟨.inl rfl, hdelay _,
      ⟨.inl rfl, ⟨.inl rfl, hdelay _, ⟨.inl rfl, trivial⟩, trivial⟩, trivial⟩, trivial⟩
  have htasks : ∀ task ∈ overrun.system.tasks, task.path = [1, 0] := by decide +kernel
  have hfree : ∀ task ∈ overrun.system.tasks, ∀ run, task.run = some run →
      run.Avoids [] task.path := by
    intro task hmem run _
    rw [htasks task hmem]
    exact Run.avoids_nil_cons 1 [0] run
  have hfirst : firstAt [] (begunIn (overrun.reset.1.system.turnsAlong [.execute])) =
      some ⟨[], some (.cursor 0)⟩ := by decide +kernel
  exact ⟨hrelayed, reached_overrun, hfree, hfirst,
    first_after_reset hrelayed reached_overrun hfree [.execute] hfirst⟩

/-- Not every first execution of a node in the tick after a reset begins from scratch. -/
theorem not_scratch_after_reset :
    ¬ ∀ session : Session overrunTree, session.Reached → ∀ path beginning,
      firstAt path (begunIn session.reset.1.system.ownTurns) = some beginning →
        ∀ gauge, beginning.gauge = some gauge → gauge.number = 0 := by
  intro hscratch
  -- the inner selector, whose detached execution came to its second child after the reset
  have hinner : firstAt [1, 0] (begunIn overrun.reset.1.system.ownTurns) =
      some ⟨[1, 0], some (.cursor 1)⟩ := by decide +kernel
  have hzero : (Gauge.cursor 1).number = 0 :=
    hscratch overrun reached_overrun [1, 0] ⟨[1, 0], some (.cursor 1)⟩ hinner (.cursor 1) rfl
  cases hzero

end Session

end BehaviorTree
