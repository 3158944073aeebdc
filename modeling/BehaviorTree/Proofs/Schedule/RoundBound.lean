import BehaviorTree.Proofs.Schedule.Invariant

/-!
# Bounds on the rounds of an operation

How many rounds an operation may take is bounded, and the bound grows with the tree. Here the bound
is a parameter, so that trees of different size can be compared. It does not matter as long as it
is not reached: an execution that ends within the bound ends in the same way within any greater
one (`System.isPatient_of_ended`).
-/

namespace BehaviorTree

variable {κ : Type} [Application κ] {tree : Tree κ}

/-- How many rounds are allowed while so many tasks are under way. -/
abbrev Patience := Nat → Nat

namespace System

/-- The patience of a system with its tree. -/
def ownPatience (tree : Tree κ) : Patience := fun count =>
  Kind.patience + 8 * (count + 1) * (tree.span + 1)

omit [Application κ] in
/-- A system has more patience with a tree that may make more requests. -/
theorem ownPatience_le {other : Tree κ} (hspan : tree.span ≤ other.span) (count : Nat) :
    ownPatience tree count ≤ ownPatience other count :=
  Nat.add_le_add_left (Nat.mul_le_mul_left _ (Nat.succ_le_succ hspan)) _

/-! ## Operations within a bound -/

/-- Executes the root once within a bound. -/
def executeWithin (patience : Patience) (system : System tree) :
    Except Fault Status × System tree × Journal :=
  let (outcome, system, journal) := system.refreshed.runFront
  let (result, system, others) := complete (patience system.tasks.length) outcome system
  (result, system, journal ++ others)

/-- The parts of an execution within a bound, one after the other. -/
theorem executeWithin_eq (patience : Patience) (system : System tree) :
    system.executeWithin patience =
      let first := system.refreshed.runFront
      let rest := complete (patience first.2.1.tasks.length) first.1 first.2.1
      (rest.1, rest.2.1, first.2.2 ++ rest.2.2) := rfl

/-- Lets time pass up to a point within a bound. The fuel bounds the number of clock steps. -/
def passToWithin (patience : Patience) (target : Nat) : Nat → System tree → System tree × Journal
  | 0, system => (system.moveClock target, [])
  | fuel + 1, system =>
    let (system, journal) := settleWith (patience system.tasks.length) system
    match system.nextDue? with
    | some time =>
      if time ≤ target then
        let (system, others) := passToWithin patience target fuel (system.moveClock time)
        (system, journal ++ others)
      else (system.moveClock target, journal)
    | none => (system.moveClock target, journal)

/-- Lets a duration pass within a bound. -/
def passWithin (patience : Patience) (system : System tree) (duration : Nat) :
    System tree × Journal :=
  passToWithin patience (system.world.now + duration) (patience system.tasks.length) system

/-- The system after an operation within a bound. -/
def nextWithin (patience : Patience) (system : System tree) : Operation → System tree
  | .execute => (system.executeWithin patience).2.1
  | .abort => system.abort.1
  | .reset => system.reset.1
  | .pass duration => (system.passWithin patience duration).1

/-- The response to an operation within a bound. -/
def responseWithin (patience : Patience) (system : System tree) (operation : Operation) :
    Response :=
  let context := (system.nextWithin patience operation).rootContext
  match operation with
  | .execute =>
    let (result, _, journal) := system.executeWithin patience
    ⟨some result, journal, context⟩
  | .abort => ⟨none, system.abort.2, context⟩
  | .reset => ⟨none, system.reset.2, context⟩
  | .pass duration => ⟨none, (system.passWithin patience duration).2, context⟩

/-- Letting time pass is doing so within the patience of the system. -/
theorem passTo_eq (target fuel : Nat) (system : System tree) :
    passTo target fuel system = passToWithin (ownPatience tree) target fuel system := by
  induction fuel generalizing system with
  | zero => rfl
  | succ fuel ih =>
    rw [passTo, passToWithin]
    dsimp only
    have hsettle : system.settle = settleWith (ownPatience tree system.tasks.length) system := rfl
    rw [hsettle]
    cases (settleWith (ownPatience tree system.tasks.length) system).1.nextDue? with
    | none => rfl
    | some time =>
      dsimp only
      rw [ih]

/-- An operation is one within the patience of the system. -/
theorem next_eq (system : System tree) (operation : Operation) :
    system.next operation = system.nextWithin (ownPatience tree) operation := by
  cases operation with
  | pass duration => exact congrArg Prod.fst (passTo_eq ..)
  | _ => rfl

/-- The response to an operation is that within the patience of the system. -/
theorem response_eq (system : System tree) (operation : Operation) :
    system.response operation = system.responseWithin (ownPatience tree) operation := by
  cases operation with
  | pass duration =>
    have hpass : system.pass duration = system.passWithin (ownPatience tree) duration :=
      passTo_eq ..
    rw [response, responseWithin, next_eq, hpass]
  | _ => rfl

/-! ## The foreground -/

/-- While time passes within a bound, nothing comes into the foreground. -/
theorem front_passToWithin {system : System tree} (hfront : system.front = none)
    (patience : Patience) (target fuel : Nat) :
    (passToWithin patience target fuel system).1.front = none := by
  induction fuel generalizing system with
  | zero => exact front_moveClock hfront target
  | succ fuel ih =>
    have hsettled : (settleWith (patience system.tasks.length) system).1.front = none :=
      front_settleWith hfront _
    rw [passToWithin]
    dsimp only
    split
    · split
      · exact ih (front_moveClock hsettled _)
      · exact front_moveClock hsettled target
    · exact front_moveClock hsettled target

/-- Between operations nothing is in the foreground. -/
theorem front_nextWithin {system : System tree} (hfront : system.front = none)
    (patience : Patience) (operation : Operation) :
    (system.nextWithin patience operation).front = none := by
  cases operation with
  | execute => exact front_complete front_runFront
  | abort => exact hfront
  | reset => exact hfront
  | pass duration => exact front_passToWithin hfront patience _ _

/-! ## Histories -/

end System

/-- The answer to an execution that did not end. -/
def Response.isEndless (response : Response) : Bool :=
  match response.result with
  | some (.error .endless) => true
  | _ => false

namespace System

/-- What is seen in the course of several operations within a bound: the responses, and the system
after each of them. -/
def historyWithin (patience : Patience) (system : System tree) :
    List Operation → List (Response × System tree)
  | [] => []
  | operation :: operations =>
    let later := system.nextWithin patience operation
    (system.responseWithin patience operation, later) :: later.historyWithin patience operations

/-- What is seen in the course of several operations. -/
def history (system : System tree) : List Operation → List (Response × System tree)
  | [] => []
  | operation :: operations =>
    let later := system.next operation
    (system.response operation, later) :: later.history operations

/-- What is seen of operations is what is seen of them within the patience of the system. -/
theorem history_eq (system : System tree) (operations : List Operation) :
    system.history operations = system.historyWithin (ownPatience tree) operations := by
  induction operations generalizing system with
  | nil => rfl
  | cons operation operations ih =>
    rw [history, historyWithin, response_eq, next_eq]
    exact congrArg _ (ih _)

/-- The system takes its time: a greater bound would change nothing. -/
def IsPatient (system : System tree) (operations : List Operation) : Prop :=
  ∀ patience : Patience, (∀ count, ownPatience tree count ≤ patience count) →
    system.historyWithin patience operations = system.history operations

/-- An execution that ends within a bound ends in the same way within a greater one. -/
theorem complete_stable {fuel more : Nat} (hmore : fuel ≤ more) (outcome : Outcome)
    (system : System tree) (hended : (complete fuel outcome system).1 ≠ .error .endless) :
    complete more outcome system = complete fuel outcome system := by
  induction fuel generalizing more outcome system with
  | zero =>
    cases outcome with
    | answered status => cases more <;> rfl
    | failed fault => cases more <;> rfl
    | waiting run => exact absurd rfl hended
  | succ fuel ih =>
    obtain ⟨more, rfl⟩ : ∃ less, more = less + 1 := Nat.exists_eq_add_one.mpr (by omega)
    cases outcome with
    | answered status => rfl
    | failed fault => rfl
    | waiting run =>
      rw [complete_waiting] at hended
      rw [complete_waiting, complete_waiting]
      cases hnext : system.afterRound? with
      | none => rfl
      | some next =>
        rw [hnext] at hended
        dsimp only at hended ⊢
        rw [ih (Nat.le_of_succ_le_succ hmore) _ _ hended]

/-- Executions that end are not changed by a greater bound. -/
theorem isPatient_of_ended {system : System tree} {operations : List Operation}
    (htimeless : ∀ duration, .pass duration ∉ operations)
    (hended : ∀ step ∈ system.history operations, step.1.isEndless = false) :
    system.IsPatient operations := by
  intro patience hpatience
  induction operations generalizing system with
  | nil => rfl
  | cons operation operations ih =>
    have hstep : system.nextWithin patience operation = system.next operation ∧
        system.responseWithin patience operation = system.response operation := by
      cases operation with
      | abort => exact ⟨rfl, rfl⟩
      | reset => exact ⟨rfl, rfl⟩
      | pass duration => exact absurd List.mem_cons_self (htimeless duration)
      | execute =>
        have hanswer : (system.response .execute).isEndless = false := hended _ List.mem_cons_self
        have hresult : system.execute.1 ≠ .error .endless := by
          intro hendless
          rw [response, Response.isEndless, hendless] at hanswer
          cases hanswer
        have hexecute : system.executeWithin patience = system.execute := by
          rw [executeWithin_eq, execute]
          have hstable := complete_stable (hpatience system.refreshed.runFront.2.1.tasks.length)
            system.refreshed.runFront.1 system.refreshed.runFront.2.1 hresult
          dsimp only
          rw [hstable]
          rfl
        rw [nextWithin, responseWithin, nextWithin, hexecute]
        exact ⟨rfl, rfl⟩
    rw [historyWithin, history, hstep.1, hstep.2]
    refine congrArg _ (ih ?_ ?_)
    · exact fun duration hmem => htimeless duration (List.mem_cons_of_mem _ hmem)
    · exact fun step hmem => hended step (List.mem_cons_of_mem _ hmem)

end System

end BehaviorTree
