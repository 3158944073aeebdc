import BehaviorTree.Proofs.Tree.Tick

/-!
# How long a wait node waits

Every execution of a wait node is answered at once. What the answer is can be told from the times of
the executions so far and from the aborts and resets between them: the execution that begins a wait
answers running, and a later one succeeds exactly if the delay has passed since then
(`Wait.waits_out_delay`).
-/

namespace BehaviorTree.Wait

variable {κ : Type} [Application κ]

/-! ## What is seen of a wait node -/

/-- What can be seen of a wait node. -/
inductive Occurrence where
  /-- An execution that begins at a time, and what becomes of it. -/
  | executed (now : Nat) (outcome : Outcome)
  /-- An abort or a reset. -/
  | putBack

/-- Whether no wait is under way after an occurrence, whatever has been before it. -/
def Occurrence.endsWait : Occurrence → Bool
  | executed _ (.answered .success) => true
  | executed _ _ => false
  | putBack => true

/-- Whether an execution begins a wait, if there have been these occurrences before it, the latest
first: there has been no execution since the last occurrence that ends a wait. -/
def begins (past : List Occurrence) : Bool :=
  (past.takeWhile fun occurrence => !occurrence.endsWait).isEmpty

/-- The time of the latest execution that began a wait. -/
def latestStart? : List Occurrence → Option Nat
  | [] => none
  | .putBack :: past => latestStart? past
  | .executed now _ :: past => if begins past then some now else latestStart? past

/-- A wait begins directly after an occurrence that ends one. -/
theorem begins_cons (occurrence : Occurrence) (past : List Occurrence) :
    begins (occurrence :: past) = occurrence.endsWait := by
  rw [begins, List.takeWhile_cons]
  cases occurrence.endsWait <;> rfl

/-- What is seen of an act. -/
def seen {tree : Tree κ} (stage : Stage tree) : Act tree → Option Occurrence
  | .turn world => some (.executed world.now (stage.turn world).result)
  | .abort _ | .reset _ => some .putBack
  | .notify _ | .around .. => none

/-- What has been seen after several acts, the latest first, if there has been something before. -/
def pastOf {tree : Tree κ} (stage : Stage tree) (past : List Occurrence) :
    List (Act tree) → List Occurrence
  | [] => past
  | act :: acts => pastOf (stage.act act) ((seen stage act).toList ++ past) acts

/-! ## One execution -/

/-- The state agrees with what has been seen: it is the time at which the wait began, if one is
under way. -/
structure Agrees (past : List Occurrence) (begun : Option Nat) : Prop where
  /-- A wait is about to begin exactly when none is under way. -/
  begins_eq : begins past = begun.isNone
  /-- The time in the state is the one at which the latest wait began. -/
  latest : ∀ start, begun = some start → latestStart? past = some start

/-- What an execution at a time answers after such a past. -/
structure Replies (delay : Int) (past : List Occurrence) (now : Nat) (status : Status) : Prop where
  /-- The execution that begins a wait asks for another one. -/
  starts : begins past → status = .running
  /-- Any other execution looks at the time since the wait began. -/
  compares : begins past = false → ∃ start, latestStart? past = some start ∧
    (status = .success ↔ max delay 0 ≤ (now : Int) - start) ∧
    (status = .running ↔ (now : Int) - start < max delay 0)

/-- A node that has never run, and one that was put back, agree with what is seen of them. -/
theorem agrees_none {past : List Occurrence} (hbegins : begins past) : Agrees past none :=
  ⟨hbegins, nofun⟩

section Execution

variable {past : List Occurrence} {begun : Option Nat}

/-- A wait node finishes at once with the right status, and its state agrees with the past again. -/
theorem Agrees.replies (hagrees : Agrees past begun) (delay : Int) (moment : Moment) :
    ∃ status next, respond delay moment begun .started = .finish next status ∧
      Replies delay past moment.now status ∧
      Agrees (.executed moment.now (.answered status) :: past) next := by
  obtain ⟨hbegins, hlatest⟩ := hagrees
  cases begun with
  | none =>
    have hstarts : latestStart? (.executed moment.now (.answered .running) :: past) =
        some moment.now := if_pos hbegins
    refine ⟨.running, some moment.now, rfl, ⟨fun _ => rfl, fun hlater => ?_⟩, ?_, ?_⟩
    · exact absurd (hlater.symm.trans hbegins) Bool.false_ne_true
    · rw [begins_cons]
      rfl
    · rintro start ⟨⟩
      exact hstarts
  | some start =>
    have hunderWay : begins past = false := hbegins
    have hstart := hlatest start rfl
    have hdelay : (delay.toNat : Int) = max delay 0 := Int.ofNat_toNat delay
    by_cases hpassed : start + delay.toNat ≤ moment.now
    · refine ⟨.success, none, if_pos hpassed, ⟨fun hfirst => ?_, fun _ => ⟨start, hstart, ?_, ?_⟩⟩,
        agrees_none (begins_cons _ past)⟩
      · exact absurd (hunderWay.symm.trans hfirst) Bool.false_ne_true
      · exact iff_of_true rfl (by omega)
      · exact iff_of_false nofun (by omega)
    · refine ⟨.running, some start, if_neg hpassed,
        ⟨fun _ => rfl, fun _ => ⟨start, hstart, ?_, ?_⟩⟩, begins_cons _ past, ?_⟩
      · exact iff_of_false nofun (by omega)
      · exact iff_of_true rfl (by omega)
      · rintro _ ⟨⟩
        rw [latestStart?, if_neg (by rw [hunderWay]; exact Bool.false_ne_true), hstart]

end Execution

/-! ## Histories -/

/-- A wait node. -/
abbrev nodeOf (delay : Int) (name : String) : Tree κ := ⟨name, .wait delay, []⟩

section History

variable {delay : Int} {name : String} {stage : Stage (nodeOf delay name : Tree κ)}
  {past : List Occurrence}

/-- An execution is answered in its first turn and changes nothing but the node. -/
theorem turn_of_finish (hidle : stage.run = none) (world : World) {status : Status}
    {next : Option Nat}
    (hmove : ∀ context, respond delay ⟨name, 0, world.now, context⟩ stage.memory.state .started =
      .finish next status) :
    (stage.turn world).result = .answered status ∧ (stage.turn world).memory.state = next ∧
      (stage.turn world).world = world ∧ stage.asks (.turn world) = [.finish status] := by
  obtain ⟨⟨⟨begun, binding⟩, below⟩, run⟩ := stage
  cases hidle
  have hrespond : (Kind.wait delay : Kind κ).respond
      ⟨name, 0, world.now, world.context binding⟩ begun .started = .finish next status :=
    hmove (world.context binding)
  have hdriven := (crewOf ([] : List (Tree κ))).drive_signal name (.wait delay) 0 3 .started
    ⟨begun, binding⟩ below world
  have hasked := (crewOf ([] : List (Tree κ))).driveRequests_signal name (.wait delay) 0 3 .started
    ⟨begun, binding⟩ below world
  dsimp only at hdriven hasked
  rw [hrespond] at hdriven hasked
  simp only [Move.finish, World.write_nil, Crew.serve, Crew.drive_stop, Crew.driveRequests_stop]
    at hdriven hasked
  have hturn : turnOf name (.wait delay) [] none ⟨begun, binding⟩ below world = _ := hdriven
  refine ⟨?_, ?_, ?_, hasked⟩ <;> rw [Stage.turn, advance_eq, hturn] <;> rfl

/-- An execution is answered as the past tells, and the state agrees with the past afterwards. -/
theorem Agrees.turn (hagrees : Agrees past stage.memory.state) (hidle : stage.run = none)
    (world : World) :
    ∃ status, (stage.turn world).result = .answered status ∧ (stage.turn world).world = world ∧
      stage.asks (.turn world) = [.finish status] ∧ Replies delay past world.now status ∧
      (stage.act (.turn world)).run = none ∧
      Agrees (.executed world.now (stage.turn world).result :: past)
        (stage.act (.turn world)).memory.state := by
  -- the answer does not depend on the context
  obtain ⟨status, next, hmove, hreplies, hnext⟩ := hagrees.replies delay
    ⟨name, 0, world.now, {}⟩
  obtain ⟨hresult, hstate, hworld, hasks⟩ := turn_of_finish hidle world fun _ => hmove
  refine ⟨status, hresult, hworld, hasks, hreplies, ?_, ?_⟩
  · exact congrArg Outcome.run? hresult
  · rw [hresult, Stage.act, hstate]
    exact hnext

/-- Whatever happens, the state goes on to agree with what is seen. -/
theorem Agrees.act (hagrees : Agrees past stage.memory.state) (hidle : stage.run = none)
    (act : Act (nodeOf delay name)) :
    Agrees ((seen stage act).toList ++ past) (stage.act act).memory.state ∧
      (stage.act act).run = none := by
  cases act with
  | turn world =>
    obtain ⟨status, -, -, -, -, hrun, hnext⟩ := hagrees.turn hidle world
    exact ⟨hnext, hrun⟩
  | abort now =>
    refine ⟨?_, Stage.run_act_eq_none hidle rfl⟩
    rw [Stage.state_act_abort]
    exact agrees_none (begins_cons _ past)
  | reset now =>
    refine ⟨?_, Stage.run_act_eq_none hidle rfl⟩
    rw [Stage.state_act_reset]
    exact agrees_none (begins_cons _ past)
  | notify call =>
    refine ⟨?_, Stage.run_act_eq_none hidle rfl⟩
    rw [Stage.state_act_of_isQuiet rfl]
    exact hagrees
  | around binding below =>
    refine ⟨?_, Stage.run_act_eq_none hidle rfl⟩
    rw [Stage.state_act_of_isQuiet rfl]
    exact hagrees

/-- The state agrees with the past after any acts. -/
theorem Agrees.after (hagrees : Agrees past stage.memory.state) (hidle : stage.run = none)
    (acts : List (Act (nodeOf delay name))) :
    Agrees (pastOf stage past acts) (stage.after acts).memory.state ∧
      (stage.after acts).run = none := by
  induction acts generalizing stage past with
  | nil => exact ⟨hagrees, hidle⟩
  | cons act acts ih =>
    obtain ⟨hnext, hrun⟩ := hagrees.act hidle act
    exact ih hnext hrun

/-- Whatever executions, aborts and resets a wait node has been through, the next execution is
answered at once and lets no time pass. If it begins a wait, it is answered with running. Otherwise
it succeeds if the delay has passed since the wait began, where a negative delay counts as none, and
is running if not. -/
theorem waits_out_delay (delay : Int) (name : String) (binding : Binding)
    (acts : List (Act (nodeOf delay name : Tree κ))) (world : World) :
    let node := Stage.fresh (nodeOf delay name : Tree κ) binding
    let later := node.after acts
    later.run = none ∧ ∃ status,
      (later.turn world).result = .answered status ∧ (later.turn world).world = world ∧
      later.asks (.turn world) = [.finish status] ∧
      Replies delay (pastOf node [] acts) world.now status := by
  intro node later
  have hfresh : Agrees [] node.memory.state := agrees_none rfl
  obtain ⟨hagrees, hidle⟩ := hfresh.after rfl acts
  obtain ⟨status, hresult, hworld, hasks, hreplies, -⟩ := hagrees.turn hidle world
  exact ⟨hidle, status, hresult, hworld, hasks, hreplies⟩

/-- A wait that is given up, and one that has been asked about too early. -/
def startedOver : List (Act (nodeOf 20 "Wait" : Tree Empty)) :=
  [.turn { now := 5 }, .abort 10, .turn { now := 24 }, .turn { now := 43 }]

/-- The second wait is over after twenty milliseconds, to the millisecond. -/
theorem waits_out_delay_startedOver :
    let node := Stage.fresh (nodeOf 20 "Wait" : Tree Empty) (.own {})
    let later := node.after startedOver
    begins (pastOf node [] startedOver) = false ∧
      latestStart? (pastOf node [] startedOver) = some 24 ∧
      (later.turn { now := 43 }).result = .answered .running ∧
      (later.turn { now := 44 }).result = .answered .success := by
  intro node later
  have hlater : begins (pastOf node [] startedOver) = false := by rfl
  have hstart : latestStart? (pastOf node [] startedOver) = some 24 := by rfl
  have hreplies := waits_out_delay 20 "Wait" (.own {}) startedOver
  obtain ⟨-, early, hearly, -, -, -, hcompares⟩ := hreplies { now := 43 }
  obtain ⟨-, late, hlate, -, -, -, hcompares'⟩ := hreplies { now := 44 }
  obtain ⟨_, hlatest, -, hrunning⟩ := hcompares hlater
  obtain ⟨_, hlatest', hsuccess, -⟩ := hcompares' hlater
  cases hstart.symm.trans hlatest
  cases hstart.symm.trans hlatest'
  rw [hrunning.mpr (by decide)] at hearly
  rw [hsuccess.mpr (by decide)] at hlate
  exact ⟨hlater, hstart, hearly, hlate⟩

end History

end BehaviorTree.Wait
