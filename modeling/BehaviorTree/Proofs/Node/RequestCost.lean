import BehaviorTree.Proofs.Node.Overlap

/-!
# A bound on what an execution asks for

Every request of a node has its cost: running a child costs what an execution of the child may cost,
and a wait has a cost of its own. A node affords an execution with a number of moves and a budget if
its requests never cost more than that, whatever answers it is given. Each composite, and each
decorator with a limited number of attempts, affords its outlay whatever state it begins in
(`Kind.affords_started`): for a node that counts attempts, the attempts that are left bound both its
moves and its requests.
-/

namespace BehaviorTree

/-- A request that can be served where there are so many children, without starting a task. -/
def Request.IsServable (size : Nat) : Request → Prop
  | .run _ child => child < size
  | .crash | .race .. => False
  | .finish _ | .runAll | .sleep .. | .resetChild _ | .abortChild _ => True

/-! ## Machines with a budget -/

namespace Machine

variable {σ : Type} {machine : Machine σ} {size : Nat} {cost : Request → Nat}

/-- The node needs at most so many moves to end its execution, and its requests cost at most what
the budget says. -/
def Affords (machine : Machine σ) (size : Nat) (cost : Request → Nat) :
    Nat → Nat → σ → Signal → Prop
  | 0, _, _, _ => False
  | moves + 1, budget, state, signal => ∀ moment : Moment, moment.size = size →
    (machine moment state signal).request.IsServable size ∧
      ((machine moment state signal).request.isLast = false →
        ∃ left, cost (machine moment state signal).request + left ≤ budget ∧
          ∀ answer, (machine moment state signal).request.AnsweredBy answer →
            Affords machine size cost moves left (machine moment state signal).state answer)

/-- The same after a move that the node has made. -/
structure Covers (machine : Machine σ) (size : Nat) (cost : Request → Nat) (moves budget : Nat)
    (move : Move σ) : Prop where
  /-- The request can be served. -/
  servable : move.request.IsServable size
  /-- Unless it is the last one, the request is paid for, and whatever the answer is, so is what
  follows. -/
  answered : move.request.isLast = false → ∃ left, cost move.request + left ≤ budget ∧
    ∀ answer, move.request.AnsweredBy answer →
      machine.Affords size cost moves left move.state answer

/-- A signal is afforded exactly if the move in answer to it is covered, whatever the moment. -/
theorem affords_succ {moves budget : Nat} {state : σ} {signal : Signal} :
    machine.Affords size cost (moves + 1) budget state signal ↔
      ∀ moment : Moment, moment.size = size →
        machine.Covers size cost moves budget (machine moment state signal) := by
  rw [Affords]
  exact forall₂_congr fun moment hsize => ⟨fun h => ⟨h.1, h.2⟩, fun h => ⟨h.1, h.2⟩⟩

/-- What is afforded is afforded with more moves and a greater budget, too. -/
theorem Affords.mono {moves more budget greater : Nat} {state : σ} {signal : Signal}
    (haffords : machine.Affords size cost moves budget state signal) (hmoves : moves ≤ more)
    (hbudget : budget ≤ greater) : machine.Affords size cost more greater state signal := by
  induction moves generalizing more budget greater state signal with
  | zero => exact haffords.elim
  | succ moves ih =>
    obtain ⟨more, rfl⟩ : ∃ rest, more = rest + 1 := ⟨more - 1, by omega⟩
    refine affords_succ.mpr fun moment hsize => ?_
    have hcovers := affords_succ.mp haffords moment hsize
    refine ⟨hcovers.servable, fun hmore => ?_⟩
    obtain ⟨left, hleft, hanswers⟩ := hcovers.answered hmore
    exact ⟨left, Nat.le_trans hleft hbudget, fun answer hanswer =>
      ih (hanswers answer hanswer) (Nat.le_of_succ_le_succ hmoves) (Nat.le_refl left)⟩

/-- Finishing costs nothing. -/
theorem covers_finish {moves budget : Nat} {move : Move σ} {status : Status}
    (hfinish : move.request = .finish status) : machine.Covers size cost moves budget move := by
  refine ⟨?_, fun hmore => ?_⟩
  · rw [hfinish]
    trivial
  · rw [hfinish] at hmore
    cases hmore

/-- What is covered is covered with more moves and a greater budget, too. -/
theorem Covers.mono {moves more budget greater : Nat} {move : Move σ}
    (hcovers : machine.Covers size cost moves budget move) (hmoves : moves ≤ more)
    (hbudget : budget ≤ greater) : machine.Covers size cost more greater move := by
  refine ⟨hcovers.servable, fun hmore => ?_⟩
  obtain ⟨left, hleft, hanswers⟩ := hcovers.answered hmore
  exact ⟨left, Nat.le_trans hleft hbudget, fun answer hanswer =>
    (hanswers answer hanswer).mono hmoves (Nat.le_refl left)⟩

/-- A node that finishes at once affords to do so with any budget. -/
theorem affords_finish {moves budget : Nat} {state : σ} {signal : Signal}
    (hfinish : ∀ moment, ∃ status, (machine moment state signal).request = .finish status) :
    machine.Affords size cost (moves + 1) budget state signal := by
  refine affords_succ.mpr fun moment _ => ?_
  obtain ⟨status, hstatus⟩ := hfinish moment
  exact covers_finish hstatus

/-- A node that runs a child and affords to go on when it has answered. -/
theorem covers_run {moves budget left mark child : Nat} {state : σ} (hchild : child < size)
    (hleft : cost (.run mark child) + left ≤ budget)
    (hanswers : ∀ status, machine.Affords size cost moves left state (.answered mark status)) :
    machine.Covers size cost moves budget (.ask state (.run mark child)) := by
  refine ⟨hchild, fun _ => ⟨left, hleft, fun answer hanswer => ?_⟩⟩
  cases hanswer with
  | run _ _ status => exact hanswers status

/-- A budget covers a sleep if what is left of it affords what follows. -/
theorem covers_sleep {moves budget left mark duration : Nat} {state : σ}
    (hleft : cost (.sleep mark duration) + left ≤ budget)
    (hwoken : machine.Affords size cost moves left state (.woken mark)) :
    machine.Covers size cost moves budget (.ask state (.sleep mark duration)) := by
  refine ⟨trivial, fun _ => ⟨left, hleft, fun answer hanswer => ?_⟩⟩
  cases hanswer with
  | sleep _ _ => exact hwoken

end Machine

/-! ## Prices -/

/-- The sum of the prices of so many children, from the one with the given index on. -/
def sumFrom (price : Nat → Nat) (start : Nat) : Nat → Nat
  | 0 => 0
  | count + 1 => price start + sumFrom price (start + 1) count

/-- The first child costs no more than all children together. -/
theorem price_le_sumFrom (price : Nat → Nat) {size : Nat} (hsize : size ≠ 0) :
    price 0 ≤ sumFrom price 0 size := by
  obtain ⟨size, rfl⟩ := Nat.exists_eq_succ_of_ne_zero hsize
  exact Nat.le_add_right _ _

/-- The children after the first ones cost no more than all of them. -/
theorem sumFrom_le_sumFrom (price : Nat → Nat) (start offset count : Nat) :
    sumFrom price (start + offset) (count - offset) ≤ sumFrom price start count := by
  induction offset generalizing start count with
  | zero => exact Nat.le_refl _
  | succ offset ih =>
    cases count with
    | zero =>
      rw [Nat.zero_sub]
      exact Nat.zero_le _
    | succ count =>
      have hrest := ih (start + 1) count
      rw [Nat.add_assoc, Nat.add_comm 1] at hrest
      rw [Nat.succ_sub_succ]
      exact Nat.le_trans hrest (Nat.le_add_left _ _)

/-- An attempt and the sleep after it are paid for out of one attempt more. -/
theorem attempt_add_le (cost step left : Nat) :
    cost + (2 * step + left * (cost + 2 * step)) ≤ (left + 1) * (cost + 2 * step) := by
  rw [Nat.add_one_mul left]
  omega

/-- Attempts at the first child, each with a sleep, cost no more than attempts at all children. -/
theorem attempts_le_sumFrom (price : Nat → Nat) (step : Nat) {size : Nat} (hsize : size ≠ 0)
    (count : Nat) :
    count * (price 0 + 2 * step) ≤ count * (sumFrom price 0 size + 2 * step) :=
  Nat.mul_le_mul_left count (Nat.add_le_add_right (price_le_sumFrom price hsize) (2 * step))

/-- What requests cost where the children have prices. Each step that gets an execution on has a
price, a wait takes two of them, and children side by side may need a step more for each of
theirs. -/
def Request.cost (step : Nat) (price : Nat → Nat) (size : Nat) : Request → Nat
  | .run _ child => price child
  | .runAll => (step + 1) * sumFrom price 0 size
  | .sleep .. => 2 * step
  | .finish _ | .crash | .race .. | .resetChild _ | .abortChild _ => 0

open Machine

namespace Chain

variable {step : Nat} {price : Nat → Nat} {size : Nat}

/-- A chain that goes on with the child at a position needs one move for each child that is left,
and runs each of them once. -/
theorem covers_proceed (passed : Status) (cursor count : Nat) {position : Nat}
    (hcount : size - position ≤ count) :
    Covers (respond passed) size (Request.cost step price size) count
      (sumFrom price position (size - position)) (proceed passed size cursor position) := by
  induction count generalizing position with
  | zero =>
    rw [proceed, if_neg (by omega)]
    exact covers_finish rfl
  | succ count ih =>
    rw [proceed]
    split
    · next hlt =>
      obtain ⟨rest, hrest⟩ : ∃ rest, size - position = rest + 1 := ⟨size - position - 1, by omega⟩
      have hlater : size - (position + 1) = rest := by omega
      have hnext := @ih (position + 1) (by omega)
      rw [hlater] at hnext
      rw [hrest]
      refine covers_run hlt (Nat.le_refl _) fun status => affords_succ.mpr fun moment hsize => ?_
      subst hsize
      cases status with
      | running => exact covers_finish rfl
      | success | failure =>
        rw [respond]
        · split
          · exact hnext
          · exact covers_finish rfl
        · intro hrunning
          cases hrunning
    · exact covers_finish rfl

/-- A chain affords to run each child once, wherever its cursor stands. -/
theorem affords_started (passed : Status) (cursor : Nat) :
    Affords (respond passed) size (Request.cost step price size) (size + 2)
      (sumFrom price 0 size) cursor .started := by
  have hbudget : sumFrom price cursor (size - cursor) ≤ sumFrom price 0 size := by
    have hle := sumFrom_le_sumFrom price 0 cursor size
    rwa [Nat.zero_add] at hle
  have haffords : Affords (respond passed) size (Request.cost step price size) (size + 1)
      (sumFrom price cursor (size - cursor)) cursor .started := by
    refine affords_succ.mpr fun moment hsize => ?_
    subst hsize
    exact covers_proceed passed cursor _ (Nat.sub_le _ _)
  exact haffords.mono (Nat.le_succ _) hbudget

end Chain

namespace Retry

variable {step : Nat} {price : Nat → Nat} {size : Nat}

/-- A retry node with so many attempts left covers them and the sleeps between them. -/
theorem covers_attempt (settings : RetrySettings) (name : String) (hsize : size ≠ 0)
    (left : Nat) {number : Nat} (hleft : settings.maxRetries.toNat + 1 ≤ number + left) :
    Covers (fun moment (_ : Unit) => respond settings moment) size
      (Request.cost step price size) (2 * left) (left * (price 0 + 2 * step))
      (attempt settings name number) := by
  induction left generalizing number name with
  | zero =>
    rw [attempt, if_neg (by omega)]
    exact covers_finish rfl
  | succ left ih =>
    rw [attempt]
    split
    · refine covers_run (Nat.pos_of_ne_zero hsize) (attempt_add_le _ step left) fun status => ?_
      refine affords_succ.mpr fun moment _ => ?_
      cases status with
      | success | running => exact covers_finish rfl
      | failure =>
        change Covers _ _ _ _ _ (if _ then _ else _)
        split
        · exact covers_sleep (Nat.le_refl _)
            (affords_succ.mpr fun later _ => ih later.name (by omega))
        · next hlast =>
          rw [attempt, if_neg (by omega)]
          exact covers_finish rfl
    · exact covers_finish rfl

/-- A retry node affords its attempts, each with a sleep. -/
theorem affords_started (settings : RetrySettings) :
    Affords (fun moment (_ : Unit) => respond settings moment) size
      (Request.cost step price size) (2 * settings.maxRetries.toNat + 2)
      (settings.maxRetries.toNat * (sumFrom price 0 size + 2 * step)) () .started := by
  refine affords_succ.mpr fun moment hmoment => ?_
  change Covers _ _ _ _ _ (if _ then _ else _)
  split
  · exact covers_finish rfl
  · next hsize =>
    rw [hmoment] at hsize
    have hbudget := attempts_le_sumFrom price step hsize settings.maxRetries.toNat
    exact (covers_attempt settings moment.name hsize settings.maxRetries.toNat
      (by omega)).mono (Nat.le_succ _) hbudget

end Retry

namespace Persist

variable {step : Nat} {price : Nat → Nat} {size : Nat}

/-- A node that retries until success covers the attempts that its budget still allows. -/
theorem covers_attempt (settings : PersistSettings) (hlimited : 0 ≤ settings.attempts)
    (name : String) (hsize : size ≠ 0) (left : Nat) {count : Nat}
    (hleft : settings.attempts.toNat ≤ count + left) :
    Covers (respond settings) size (Request.cost step price size) (2 * left)
      (left * (price 0 + 2 * step)) (attempt settings name count) := by
  induction left generalizing count name with
  | zero =>
    have hnone : hasLeft settings count = false := by
      simp only [hasLeft, Bool.or_eq_false_iff, decide_eq_false_iff_not]
      omega
    rw [attempt, hnone]
    exact covers_finish rfl
  | succ left ih =>
    rw [attempt]
    split
    · refine covers_run (Nat.pos_of_ne_zero hsize) (attempt_add_le _ step left) fun status => ?_
      refine affords_succ.mpr fun moment _ => ?_
      cases status with
      | success | running => exact covers_finish rfl
      | failure =>
        change Covers _ _ _ _ _ (if _ then _ else _)
        split
        · exact covers_sleep (Nat.le_refl _)
            (affords_succ.mpr fun later _ => ih later.name (by omega))
        · exact covers_finish rfl
    · exact covers_finish rfl

/-- A node that retries until success affords its budget of attempts, each with a sleep, whatever it
has counted before. -/
theorem affords_started (settings : PersistSettings) (hlimited : 0 ≤ settings.attempts)
    (count : Nat) :
    Affords (respond settings) size (Request.cost step price size)
      (2 * settings.attempts.toNat + 3)
      (settings.attempts.toNat * (sumFrom price 0 size + 2 * step)) count .started := by
  refine affords_succ.mpr fun moment hmoment => ?_
  change Covers _ _ _ _ _ (if _ then _ else _)
  split
  · exact covers_finish rfl
  · next hsize =>
    rw [hmoment] at hsize
    have hbudget := attempts_le_sumFrom price step hsize settings.attempts.toNat
    exact (covers_attempt settings hlimited moment.name hsize settings.attempts.toNat
      (Nat.le_add_left _ _)).mono (by omega) hbudget

end Persist

namespace Repeat

variable {step : Nat} {price : Nat → Nat} {size : Nat}

/-- A repeat node affords one iteration, and the reset of its child after it. -/
theorem affords_started (settings : RepeatSettings) (done : Nat) :
    Affords (respond settings) size (Request.cost step price size) 4 (sumFrom price 0 size) done
      .started := by
  refine affords_succ.mpr fun moment hmoment => ?_
  rw [respond]
  split
  · exact covers_finish rfl
  · next hsize =>
    rw [hmoment] at hsize
    split
    · exact covers_finish rfl
    · have hbudget : Request.cost step price size (.run 0 0) + 0 ≤ sumFrom price 0 size :=
        price_le_sumFrom price hsize
      refine covers_run (Nat.pos_of_ne_zero hsize) hbudget fun status => ?_
      refine affords_succ.mpr fun later _ => ?_
      cases status with
      | running => exact covers_finish rfl
      | success | failure =>
        rw [respond]
        · split
          · exact covers_finish rfl
          · refine ⟨trivial, fun _ => ⟨0, Nat.le_refl 0, fun answer hanswer => ?_⟩⟩
            cases hanswer with
            | resetChild child =>
              refine affords_finish fun last => ?_
              rw [respond]
              split
              · exact ⟨_, rfl⟩
              · split <;> exact ⟨_, rfl⟩
        · intro hrunning
          cases hrunning

end Repeat

namespace Relabel

variable {step : Nat} {price : Nat → Nat} {size : Nat}

/-- A node that relabels the answer affords to run its child once. -/
theorem affords_started (image : Status → Status) :
    Affords (fun moment (_ : Unit) => respond image moment) size (Request.cost step price size) 4
      (sumFrom price 0 size) () .started := by
  refine affords_succ.mpr fun moment hmoment => ?_
  rw [respond]
  split
  · exact covers_finish rfl
  · next hsize =>
    rw [hmoment] at hsize
    have hbudget : Request.cost step price size (.run 0 0) + 0 ≤ sumFrom price 0 size :=
      price_le_sumFrom price hsize
    exact covers_run (Nat.pos_of_ne_zero hsize) hbudget fun status =>
      affords_finish fun later => ⟨_, rfl⟩

end Relabel

/-- A wait node finishes at once. -/
theorem Wait.finishes (delay : Int) (moment : Moment) (begun : Option Nat) :
    ∃ status, (Wait.respond delay moment begun .started).request = .finish status := by
  cases begun with
  | none => exact ⟨_, rfl⟩
  | some start =>
    unfold respond
    dsimp only
    split <;> exact ⟨_, rfl⟩

/-- A setter finishes at once. -/
theorem SetValue.finishes (settings : SetValueSettings) (moment : Moment) :
    ∃ status, (SetValue.execute settings moment).request = .finish status := by
  unfold execute
  split
  · exact ⟨_, rfl⟩
  · split
    · exact ⟨_, rfl⟩
    · dsimp only
      split <;> exact ⟨_, rfl⟩

namespace Kind

variable {κ : Type} [Application κ] {step : Nat} {price : Nat → Nat} {size : Nat}

/-- What the requests in one execution may cost, where the prices of the children have this sum. -/
def outlay (step total : Nat) : Kind κ → Nat
  | sequence | selector | timeout _ | repeating _ | inverter | succeeder => total
  | parallel _ => (step + 1) * total
  | retry settings => settings.maxRetries.toNat * (total + 2 * step)
  | retryUntilSuccess settings => settings.attempts.toNat * (total + 2 * step)
  | wait _ | setValue _ | alwaysSuccess | forceFailure => 0
  | custom _ => patience * (2 * step)

/-- Within its allowance of moves an execution of a leaf asks to finish, whatever state it begins
in, and until then it asks for nothing but to wait. -/
def Returns (kind : Kind κ) : Prop :=
  ∀ state, Affords kind.respond 0 (fun _ => 0) (kind.allowance 0) 0 state .started

/-- A node with so many children that has a limited number of attempts, or is a leaf whose
execution returns. -/
def IsLimited (size : Nat) (kind : Kind κ) : Prop :=
  match kind with
  | timeout _ => False
  | retryUntilSuccess settings => 0 ≤ settings.attempts
  | custom _ => size = 0 ∧ kind.Returns
  | _ => True

/-- A leaf pays for nothing but its waits. -/
theorem affords_of_leaf {σ : Type} {machine : Machine σ} {moves : Nat} {state : σ}
    {signal : Signal} (haffords : Affords machine 0 (fun _ => 0) moves 0 state signal) :
    Affords machine 0 (Request.cost step price 0) moves (moves * (2 * step)) state signal := by
  induction moves generalizing state signal with
  | zero => exact haffords
  | succ moves ih =>
    refine affords_succ.mpr fun moment hsize => ?_
    obtain ⟨hservable, hanswered⟩ := affords_succ.mp haffords moment hsize
    refine ⟨hservable, fun hmore => ?_⟩
    obtain ⟨left, hleft, hanswers⟩ := hanswered hmore
    obtain rfl : left = 0 := by omega
    have hcost : (machine moment state signal).request.cost step price 0 ≤ 2 * step := by
      generalize (machine moment state signal).request = request at hservable
      cases request with
      | run mark child => exact absurd hservable (Nat.not_lt_zero child)
      | sleep mark duration => exact Nat.le_refl _
      | _ => exact Nat.zero_le _
    refine ⟨moves * (2 * step), ?_, fun answer hanswer => ih (hanswers answer hanswer)⟩
    rw [Nat.add_one_mul moves]
    omega

/-- A node with limited attempts affords an execution with its allowance of moves. -/
theorem affords_started {kind : Kind κ} (hlimited : kind.IsLimited size) (state : kind.State) :
    Affords kind.respond size (Request.cost step price size) (kind.allowance size)
      (kind.outlay step (sumFrom price 0 size)) state .started := by
  cases kind with
  | sequence => exact Chain.affords_started .success state
  | selector => exact Chain.affords_started .failure state
  | parallel settings =>
    refine affords_succ.mpr fun moment _ => ⟨trivial, fun _ => ⟨0, Nat.le_refl _, ?_⟩⟩
    intro answer hanswer
    cases hanswer with
    | runAll statuses => exact affords_finish fun later => ⟨_, rfl⟩
  | retry settings => exact Retry.affords_started settings
  | retryUntilSuccess settings =>
    have hallowance : (Kind.retryUntilSuccess settings : Kind κ).allowance size =
        2 * settings.attempts.toNat + 3 := if_neg (Int.not_lt.mpr hlimited)
    rw [hallowance]
    exact Persist.affords_started settings hlimited state
  | timeout limit => exact hlimited.elim
  | repeating settings => exact Repeat.affords_started settings state
  | inverter => exact Relabel.affords_started Status.inverted
  | succeeder => exact Relabel.affords_started Relabel.succeeded
  | wait delay => exact affords_finish fun moment => Wait.finishes delay moment state
  | setValue settings => exact affords_finish fun moment => SetValue.finishes settings moment
  | alwaysSuccess | forceFailure => exact affords_finish fun moment => ⟨_, rfl⟩
  | custom node =>
    obtain ⟨rfl, hreturns⟩ := hlimited
    exact affords_of_leaf (hreturns state)

end Kind

end BehaviorTree
