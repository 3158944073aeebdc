import BehaviorTree.Proofs.Schedule.History
import BehaviorTree.Proofs.Schedule.Quota
import BehaviorTree.Proofs.Tree.Gathering

/-!
# How long a tick of a parallel node takes

When a tree with a parallel root is executed, its children begin at once and the execution takes as
long as the slowest of them does (`Gather.waits_for_slowest`).
-/

namespace BehaviorTree.Gather

open Journal

variable {κ : Type} [Application κ]

/-- In every tick of a parallel node, whatever its children are and whatever has been before, each
child is executed exactly once, and the node answers in the turn in which the last of them ends. As
long as it does not answer, some child has not ended. The answer is decided by how many of the
children have succeeded and how many have failed. When the node is executed as a tree of its own,
all children begin at the time at which the execution does, and it ends at the time at which the
slowest of them has ended. It does end if the children have finite budgets. -/
theorem waits_for_slowest (settings : ParallelSettings) (name : String) (children : List (Tree κ)) :
    (∀ (stage : Stage (nodeOf settings name children)) acts status, stage.run = none →
      stage.Answers acts status → ∃ statuses, WaitsForAll stage acts statuses status) ∧
    (∀ (stage : Stage (nodeOf settings name children)) acts, stage.run = none → stage.Pends acts →
      ∃ child < children.length, ∀ answer,
        .ended child answer ∉ (story child (stage.journal acts)).map (·.deed)) ∧
    ∀ system : System (nodeOf settings name children), system.SparesRoot → system.front = none →
      (∀ status, system.execute.1 = .ok status → ∃ acts statuses,
        System.IsTick system.stage acts status system.execute.2.1 system.execute.2.2 ∧
          WaitsForAll system.stage acts statuses status ∧
          LastsAsLong system.world.now system.execute.2.1.world.now statuses
            (system.stage.journal acts)) ∧
      (system.tasks = [] → (∀ child ∈ children, child.IsLimited) →
        ∃ status, system.execute.1 = .ok status) := by
  refine ⟨fun stage acts status => exists_waitsForAll, fun stage acts => exists_pending,
    fun system hspares hvacant => ⟨fun status hok => ?_, fun htasks hlimited => ?_⟩⟩
  · obtain ⟨acts, htick⟩ := System.exists_isTimedTick_execute hspares hvacant hok
    obtain ⟨statuses, hwaits⟩ := exists_waitsForAll hvacant htick.answers
    exact ⟨acts, statuses, htick.toIsTick, hwaits,
      hwaits.lasts hvacant htick.answers htick.keepsTime⟩
  · have hnode : (nodeOf settings name children).IsLimited :=
      ⟨trivial, Tree.areLimited_iff.mpr hlimited⟩
    exact (System.paid_execute hnode htasks).1

/-- Three leaves that take five, twenty and ten milliseconds. -/
def sleepers : List (Tree Performer) :=
  [⟨"Quick", .custom (.scripted "S@5" ""), []⟩, ⟨"Slow", .custom (.scripted "F@20" ""), []⟩,
    ⟨"Steady", .custom (.scripted "S@10" ""), []⟩]

/-- A system of the three leaves under a parallel node that needs two of them to succeed or to
fail. -/
def sleeping : System (nodeOf ⟨2, 2⟩ "All" sleepers) := .bound _ {}

/-- They take twenty milliseconds together, and two successes are enough. -/
theorem waits_for_slowest_sleeping :
    sleeping.execute.1.toOption = some .success ∧ sleeping.execute.2.1.world.now = 20 ∧
      ∃ acts statuses, WaitsForAll sleeping.stage acts statuses .success ∧
        LastsAsLong 0 20 statuses (sleeping.stage.journal acts) := by
  have hok : sleeping.execute.1 = .ok .success := by decide +kernel
  have hnow : sleeping.execute.2.1.world.now = 20 := by decide +kernel
  have hstart : sleeping.world.now = 0 := rfl
  obtain ⟨acts, statuses, -, hall, hlasts⟩ :=
    ((waits_for_slowest ⟨2, 2⟩ "All" sleepers).2.2 sleeping nofun rfl).1 .success hok
  rw [hnow, hstart] at hlasts
  exact ⟨congrArg Except.toOption hok, hnow, acts, statuses, hall, hlasts⟩

end BehaviorTree.Gather
