import BehaviorTree.Proofs.Tree.Conclusion

/-!
# How a repeat node counts

Every tick of a repeat node executes its child once and resets it if that completes an iteration.
The state of the node is the number of iterations completed since it was created, last answered
success or failure, was aborted or was reset. It answers success with the iteration that makes the
number full (`Repeat.counts_iterations`).
-/

namespace BehaviorTree.Repeat

open Journal Machine

variable {κ : Type} [Application κ] {settings : RepeatSettings}

/-- Whether an answer of the child completes an iteration. -/
def Completes (settings : RepeatSettings) (answer : Status) : Prop :=
  answer = .success ∨ answer = .failure ∧ settings.stopOnFailure = false

/-- Whether an answer completes an iteration can be told from the settings. -/
instance (settings : RepeatSettings) (answer : Status) : Decidable (Completes settings answer) :=
  inferInstanceAs (Decidable (_ ∨ _))

/-! ## One execution -/

/-- What happens to the child. -/
def deedsOf (settings : RepeatSettings) (answer : Status) : List Deed :=
  [.begun 0, .ended 0 answer] ++ if Completes settings answer then [.reset 0] else []

/-- What the node answers and keeps after an answer of its child, if so many iterations have been
completed before. -/
inductive Replies (settings : RepeatSettings) (done : Nat) (answer : Status) : Status → Nat → Prop
  where
  | waits (hanswer : answer = .running) : Replies settings done answer .running done
  | stops (hanswer : answer = .failure) (hstop : settings.stopOnFailure) :
    Replies settings done answer .failure 0
  | endless (hcompletes : Completes settings answer) (hforever : settings.count < 0) :
    Replies settings done answer .running done
  | goesOn (hcompletes : Completes settings answer) (hmore : (done + 1 : Int) < settings.count) :
    Replies settings done answer .running (done + 1)
  | succeeds (hcompletes : Completes settings answer) (hlimited : 0 ≤ settings.count)
      (hfull : settings.count ≤ (done + 1 : Int)) : Replies settings done answer .success 0

variable {size done last : Nat} {exchanges : List Exchange} {answer status : Status}

/-- When the child has been reset, the node answers without another request. -/
theorem replies_of_childReset (hcompletes : Completes settings answer)
    (htalks : Talks (respond settings) size done .childReset exchanges last (.finish status)) :
    exchanges = [] ∧ Replies settings done answer status last := by
  obtain ⟨moment, -, hcontinues⟩ := talks_iff.mp htalks
  rw [respond] at hcontinues
  split at hcontinues
  · next hforever =>
    obtain ⟨rfl, rfl, rfl⟩ := (continues_finish_iff rfl).mp hcontinues
    exact ⟨rfl, .endless hcompletes hforever⟩
  · next hlimited =>
    split at hcontinues
    · next hfull =>
      obtain ⟨rfl, rfl, rfl⟩ := (continues_finish_iff rfl).mp hcontinues
      exact ⟨rfl, .succeeds hcompletes (Int.not_lt.mp hlimited) hfull⟩
    · next hmore =>
      obtain ⟨rfl, rfl, rfl⟩ := (continues_finish_iff rfl).mp hcontinues
      exact ⟨rfl, .goesOn hcompletes (Int.not_le.mp hmore)⟩

/-- An answer that completes an iteration makes the node reset its child. -/
theorem respond_completed (hcompletes : Completes settings answer) (moment : Moment) (mark : Nat) :
    respond settings moment done (.answered mark answer) = .ask done (.resetChild 0) := by
  obtain rfl | ⟨rfl, hgoesOn⟩ := hcompletes
  · rw [respond]
    · exact if_neg (by simp)
    · intro hrunning
      cases hrunning
  · rw [respond]
    · exact if_neg fun hstop => Bool.false_ne_true (hgoesOn.symm.trans hstop.2)
    · intro hrunning
      cases hrunning

/-- The child is reset if its answer completes an iteration. -/
theorem replies_of_answered {mark : Nat}
    (htalks : Talks (respond settings) size done (.answered mark answer) exchanges last
      (.finish status)) :
    exchanges = (if Completes settings answer then [⟨.resetChild 0, .childReset⟩] else []) ∧
      Replies settings done answer status last := by
  obtain ⟨moment, -, hcontinues⟩ := talks_iff.mp htalks
  by_cases hcompletes : Completes settings answer
  · rw [respond_completed hcompletes] at hcontinues
    obtain ⟨heard, rest, rfl, hheard, htalks⟩ := (continues_ask_iff rfl).mp hcontinues
    cases hheard
    obtain ⟨rfl, hreplies⟩ := replies_of_childReset hcompletes htalks
    rw [if_pos hcompletes]
    exact ⟨rfl, hreplies⟩
  · rw [if_neg hcompletes]
    cases answer with
    | running =>
      obtain ⟨rfl, rfl, rfl⟩ := (continues_finish_iff rfl).mp hcontinues
      exact ⟨rfl, .waits rfl⟩
    | success => exact absurd (.inl rfl) hcompletes
    | failure =>
      have hstop : settings.stopOnFailure = true := by
        rw [← Bool.not_eq_false]
        exact fun hgoesOn => hcompletes (.inr ⟨rfl, hgoesOn⟩)
      rw [respond, if_pos ⟨rfl, hstop⟩] at hcontinues
      · obtain ⟨rfl, rfl, rfl⟩ := (continues_finish_iff rfl).mp hcontinues
        exact ⟨rfl, .stops rfl hstop⟩
      · intro hrunning
        cases hrunning

/-- An execution succeeds at once, or it executes the child once. -/
theorem replies_of_started (hsize : size ≠ 0)
    (htalks : Talks (respond settings) size done .started exchanges last (.finish status)) :
    settings.count = 0 ∧ exchanges = [] ∧ status = .success ∧ last = done ∨
      settings.count ≠ 0 ∧ ∃ answer,
        exchanges.flatMap Exchange.deeds = deedsOf settings answer ∧
          Replies settings done answer status last := by
  obtain ⟨moment, rfl, hcontinues⟩ := talks_iff.mp htalks
  rw [respond, if_neg hsize] at hcontinues
  split at hcontinues
  · next hzero =>
    obtain ⟨rfl, rfl, rfl⟩ := (continues_finish_iff rfl).mp hcontinues
    exact .inl ⟨hzero, rfl, rfl, rfl⟩
  · next hcount =>
    obtain ⟨heard, rest, rfl, hheard, htalks⟩ := (continues_ask_iff rfl).mp hcontinues
    cases hheard with
    | run _ _ answer =>
      obtain ⟨rfl, hreplies⟩ := replies_of_answered htalks
      refine .inr ⟨hcount, answer, ?_, hreplies⟩
      rw [deedsOf, List.flatMap_cons]
      split <;> rfl

/-! ## Histories -/

/-- A repeat node with its only child. -/
abbrev nodeOf (settings : RepeatSettings) (name : String) (child : Tree κ) : Tree κ :=
  ⟨name, .repeating settings, [child]⟩

/-- What the node asks for when it hears a signal. -/
inductive Asks : Signal → Request → Prop where
  | run : Asks .started (.run 0 0)
  | reset (mark : Nat) (answer : Status) : Asks (.answered mark answer) (.resetChild 0)
  | finish (signal : Signal) (status : Status) : Asks signal (.finish status)

/-- The node runs its child once, resets it once, and then finishes. -/
theorem asks_respond (settings : RepeatSettings) (moment : Moment) (done : Nat) (signal : Signal) :
    Asks signal (respond settings moment done signal).request := by
  cases signal with
  | started =>
    rw [respond]
    split
    · exact .finish _ .failure
    · split
      · exact .finish _ .success
      · exact .run
  | answered mark answer =>
    by_cases hcompletes : Completes settings answer
    · rw [respond_completed hcompletes]
      exact .reset mark answer
    · cases answer with
      | running => exact .finish _ .running
      | success => exact absurd (.inl rfl) hcompletes
      | failure =>
        rw [respond]
        · split
          · exact .finish _ .failure
          · exact .reset mark .failure
        · intro hrunning
          cases hrunning
  | childReset =>
    rw [respond]
    split
    · exact .finish _ .running
    · split
      · exact .finish _ .success
      · exact .finish _ .running
  | _ => exact .finish _ .failure

/-- The node runs its child one at a time. -/
theorem isPlain_respond (settings : RepeatSettings) : IsPlain (respond settings) 1 := by
  intro moment done signal hsize
  have hasks := asks_respond settings moment done signal
  generalize (respond settings moment done signal).request = request at hasks ⊢
  cases hasks with
  | run => exact Nat.one_pos
  | reset mark answer => exact Nat.one_pos
  | finish signal status => trivial

/-- The node never crashes. -/
theorem respond_ne_crash (settings : RepeatSettings) (moment : Moment) (done : Nat)
    (signal : Signal) : (respond settings moment done signal).request ≠ .crash := by
  intro hcrash
  have hasks := asks_respond settings moment done signal
  rw [hcrash] at hasks
  cases hasks

/-- How many requests can be answered from then on. -/
def answersLeft : Signal → Nat
  | .started => 2
  | .answered _ _ => 1
  | _ => 0

/-- Every answer to a request leaves fewer requests to be answered. -/
theorem answersLeft_lt {moment : Moment} {signal heard : Signal}
    (hheard : (respond settings moment done signal).request.AnsweredBy heard) :
    answersLeft heard < answersLeft signal := by
  have hasks := asks_respond settings moment done signal
  generalize (respond settings moment done signal).request = request at hheard hasks
  cases hasks with
  | run =>
    cases hheard
    exact Nat.lt_succ_self 1
  | reset mark answer =>
    cases hheard
    exact Nat.one_pos
  | finish signal status => cases hheard

/-- A repeat node can be brought to an answer if its child can. -/
theorem canAnswer (settings : RepeatSettings) (name : String) {child : Tree κ}
    (hchild : child.CanAnswer) : (nodeOf settings name child).CanAnswer := by
  have hmoves : 2 < (Kind.repeating settings : Kind κ).allowance 1 :=
    Nat.lt_of_lt_of_eq (by decide : 2 < 4) rfl
  exact canAnswer_node (isPlain_respond settings) (respond_ne_crash settings)
    (fun _ => endsWithin_of_lt answersLeft (fun _ _ _ _ => answersLeft_lt) hmoves)
    (List.forall_mem_singleton.mpr hchild)

/-- The iterations that a tick completes. -/
def completed (settings : RepeatSettings) (tick : Tick) : Nat :=
  tick.executions.countP (Completes settings ·.status)

section History

variable {name : String} {child : Tree κ}

/-- The number of iterations completed since the node last answered success or failure, was aborted
or was reset, if there were so many of them before. -/
def iterations (settings : RepeatSettings) {tree : Tree κ} (stage : Stage tree) (count : Nat) :
    List (Episode tree) → Nat
  | [] => count
  | .tick acts status :: episodes =>
    iterations settings (stage.after acts)
      (if status.isTerminal then 0 else count + completed settings (stage.tick acts status))
      episodes
  | .between act :: episodes =>
    iterations settings (stage.act act) (if act.interrupts then 0 else count) episodes

/-- What a tick does if so many iterations have been completed before it. -/
structure Iterates (settings : RepeatSettings) (done : Nat) (tick : Tick) : Prop where
  /-- Without any iterations to make, the child is left alone. -/
  nothing : settings.count = 0 → tick.deeds = [] ∧ tick.status = .success
  /-- Otherwise the child is executed once, and reset exactly if that completes an iteration. -/
  once : settings.count ≠ 0 → ∃ answer, tick.deeds = deedsOf settings answer ∧
    (tick.status = .success ↔
      Completes settings answer ∧ (done + 1 : Int) = settings.count) ∧
    (tick.status = .failure ↔ answer = .failure ∧ settings.stopOnFailure)

/-- The state of the node agrees with the number of completed iterations. -/
structure Agrees (settings : RepeatSettings) (count state : Nat) : Prop where
  /-- A limited node counts its iterations, and an endless one does not. -/
  state_eq : state = if settings.count < 0 then 0 else count
  /-- A limited node has not completed all of its iterations. -/
  lt : 0 < settings.count → (count : Int) < settings.count
  /-- A node that is to make no iterations has made none. -/
  eq_zero : settings.count = 0 → count = 0

/-- Without iterations the state is zero. -/
theorem agrees_zero (settings : RepeatSettings) : Agrees settings 0 0 where
  state_eq := by split <;> rfl
  lt hcount := hcount
  eq_zero _ := rfl

/-- A tick completes one iteration or none, as the answer of the child tells. -/
theorem completed_of_deeds {tick : Tick} (hdeeds : tick.deeds = deedsOf settings answer) :
    completed settings tick = if Completes settings answer then 1 else 0 := by
  have hexecutions : tick.executions = [⟨0, answer⟩] := by
    rw [Tick.executions, hdeeds, deedsOf]
    split <;> rfl
  rw [completed, hexecutions, List.countP_singleton]
  simp

/-- A child that answers running completes no iteration. -/
theorem not_completes_running (settings : RepeatSettings) : ¬ Completes settings .running := by
  rintro (hanswer | ⟨hanswer, -⟩) <;> cases hanswer

namespace Agrees

variable {count : Nat}

/-- The state of a limited node is the number of completed iterations. -/
theorem eq (hagrees : Agrees settings count done) (hlimited : 0 ≤ settings.count) :
    done = count := by
  rw [hagrees.state_eq, if_neg (Int.not_lt.mpr hlimited)]

/-- A tick answers with success exactly if it completes the last iteration. -/
theorem success_iff (hagrees : Agrees settings count done)
    (hreplies : Replies settings done answer status last) (hcount : settings.count ≠ 0) :
    status = .success ↔ Completes settings answer ∧ (count + 1 : Int) = settings.count := by
  cases hreplies with
  | waits hanswer =>
    subst hanswer
    exact iff_of_false nofun fun hfull => not_completes_running settings hfull.1
  | stops hanswer hstop =>
    refine iff_of_false nofun ?_
    rintro ⟨rfl | ⟨-, hgoesOn⟩, -⟩
    · cases hanswer
    · exact Bool.false_ne_true (hgoesOn.symm.trans hstop)
  | endless _ hforever => exact iff_of_false nofun fun hfull => by omega
  | goesOn _ hmore =>
    have hdone := hagrees.eq (by omega)
    exact iff_of_false nofun fun hfull => by omega
  | succeeds hcompletes hlimited hfull =>
    have hdone := hagrees.eq hlimited
    have hlt := hagrees.lt (by omega)
    exact iff_of_true rfl ⟨hcompletes, by omega⟩

/-- The node answers failure exactly if its child does and that stops the repetition. -/
theorem failure_iff (hreplies : Replies settings done answer status last) :
    status = .failure ↔ answer = .failure ∧ settings.stopOnFailure := by
  have hnever : Completes settings answer → ¬ (answer = .failure ∧ settings.stopOnFailure) := by
    rintro (rfl | ⟨-, hgoesOn⟩) ⟨hanswer, hstop⟩
    · cases hanswer
    · exact Bool.false_ne_true (hgoesOn.symm.trans hstop)
  cases hreplies with
  | waits hanswer =>
    subst hanswer
    exact iff_of_false nofun nofun
  | stops hanswer hstop => exact iff_of_true rfl ⟨hanswer, hstop⟩
  | endless hcompletes => exact iff_of_false nofun (hnever hcompletes)
  | goesOn hcompletes => exact iff_of_false nofun (hnever hcompletes)
  | succeeds hcompletes => exact iff_of_false nofun (hnever hcompletes)

/-- A tick that completes an iteration counts it, and an answer that ends the execution starts
over. -/
theorem next (hagrees : Agrees settings count done)
    (hreplies : Replies settings done answer status last) (hcount : settings.count ≠ 0) :
    Agrees settings
      (if status.isTerminal then 0 else count + if Completes settings answer then 1 else 0)
      last := by
  cases hreplies with
  | waits hanswer =>
    subst hanswer
    rw [if_neg (not_completes_running settings)]
    exact hagrees
  | stops => exact agrees_zero settings
  | endless hcompletes hforever =>
    rw [if_pos hcompletes]
    refine ⟨?_, fun hpositive => by omega, fun hzero => absurd hzero hcount⟩
    rw [hagrees.state_eq, if_pos hforever, if_pos hforever]
  | goesOn hcompletes hmore =>
    rw [if_pos hcompletes]
    have hdone := hagrees.eq (by omega)
    subst hdone
    refine ⟨?_, fun _ => ?_, fun hzero => absurd hzero hcount⟩
    · rw [if_neg (by omega)]
      rfl
    · exact_mod_cast hmore
  | succeeds => exact agrees_zero settings

end Agrees

/-- Every tick counts right, and leaves the node with the right number. -/
theorem Agrees.tick {count : Nat} {stage : Stage (nodeOf settings name child)}
    (hagrees : Agrees settings count stage.memory.state)
    {acts : List (Act (nodeOf settings name child))} (hidle : stage.run = none)
    (hanswers : stage.Answers acts status) :
    Iterates settings count (stage.tick acts status) ∧
      Agrees settings
        (if status.isTerminal then 0 else count + completed settings (stage.tick acts status))
        (stage.after acts).memory.state := by
  obtain ⟨exchanges, htalks, -, hdeeds⟩ := hanswers.talks (isPlain_respond settings) hidle
  obtain ⟨hzero, rfl, rfl, hlast⟩ | ⟨hcount, answer, hexchanges, hreplies⟩ :=
    replies_of_started Nat.one_ne_zero htalks
  · refine ⟨⟨fun _ => ⟨hdeeds, rfl⟩, fun hcount => absurd hzero hcount⟩, ?_⟩
    rw [hlast, hagrees.eq (Int.le_of_eq hzero.symm), hagrees.eq_zero hzero]
    exact agrees_zero settings
  · rw [hexchanges] at hdeeds
    refine ⟨⟨fun hzero => absurd hzero hcount, fun _ => ⟨answer, hdeeds, ?_, ?_⟩⟩, ?_⟩
    · exact hagrees.success_iff hreplies hcount
    · exact Agrees.failure_iff hreplies
    · rw [completed_of_deeds hdeeds]
      exact hagrees.next hreplies hcount

/-- Only an abort or a reset changes the number between two ticks. -/
theorem Agrees.act {count : Nat} {stage : Stage (nodeOf settings name child)}
    (hagrees : Agrees settings count stage.memory.state)
    {act : Act (nodeOf settings name child)} (hturn : act.isTurn = false) :
    Agrees settings (if act.interrupts then 0 else count) (stage.act act).memory.state := by
  cases act with
  | turn world => cases hturn
  | abort now =>
    rw [Stage.state_act_abort]
    exact agrees_zero settings
  | reset now =>
    rw [Stage.state_act_reset]
    exact agrees_zero settings
  | notify call =>
    rw [Stage.state_act_of_isQuiet rfl]
    exact hagrees
  | around binding below =>
    rw [Stage.state_act_of_isQuiet rfl]
    exact hagrees

/-- The state agrees with the number of completed iterations after every history. -/
theorem Agrees.episodes {count : Nat} {stage : Stage (nodeOf settings name child)}
    (hagrees : Agrees settings count stage.memory.state) (hidle : stage.run = none)
    {episodes : List (Episode (nodeOf settings name child))} (hlives : stage.Lives episodes) :
    (stage.afterAll episodes).run = none ∧
      Agrees settings (iterations settings stage count episodes)
        (stage.afterAll episodes).memory.state := by
  induction hlives generalizing count with
  | nil stage => exact ⟨hidle, hagrees⟩
  | tick hanswers _ ih => exact ih (hagrees.tick hidle hanswers).2 hanswers.run_eq_none
  | between hturn _ ih => exact ih (hagrees.act hturn) (Stage.run_act_eq_none hidle hturn)

/-- Whatever ticks, aborts and resets a repeat node has been through, its state is the number of
completed iterations, or zero if it repeats forever. The next tick executes the child once, resets
it exactly if that completes an iteration, and answers success exactly with the last iteration. It
can be continued to its end if executions of the child can. -/
theorem counts_iterations (settings : RepeatSettings) (name : String) (child : Tree κ)
    (binding : Binding) (episodes : List (Episode (nodeOf settings name child)))
    (hlives : (Stage.fresh (nodeOf settings name child) binding).Lives episodes) :
    let node := Stage.fresh (nodeOf settings name child) binding
    let later := node.afterAll episodes
    let done := iterations settings node 0 episodes
    later.memory.state = (if settings.count < 0 then 0 else done) ∧
      (∀ acts status, later.Answers acts status →
        Iterates settings done (later.tick acts status)) ∧
      (child.CanAnswer → ∀ world, ∃ acts status, later.Answers (.turn world :: acts) status) := by
  intro node later done
  have hfresh : Agrees settings 0 node.memory.state := agrees_zero settings
  obtain ⟨hidle, hagrees⟩ := hfresh.episodes rfl hlives
  refine ⟨hagrees.state_eq, fun acts status hanswers => (hagrees.tick hidle hanswers).1, ?_⟩
  exact fun hchild world => (canAnswer settings name hchild).exists_answers hidle world

end History

/-- Two iterations of a child that fails, which does not stop the repetition. -/
abbrev twoFailures : Tree Empty := nodeOf ⟨2, false⟩ "Repeat" ⟨"Never", .forceFailure, []⟩

/-- The first iteration is completed, given up, and completed again. -/
def startedOver : List (Episode twoFailures) :=
  [.tick [.turn {}] .running, .between (.abort 0), .tick [.turn {}] .running]

/-- The next tick completes the second iteration. -/
theorem counts_iterations_startedOver :
    let node := Stage.fresh twoFailures (.own {})
    let later := node.afterAll startedOver
    node.Lives startedOver ∧ iterations ⟨2, false⟩ node 0 startedOver = 1 ∧
      later.memory.state = (1 : Nat) ∧ later.Answers [.turn {}] .success ∧
      Iterates ⟨2, false⟩ (iterations ⟨2, false⟩ node 0 startedOver)
        (later.tick [.turn {}] .success) ∧
      ∃ acts status, later.Answers (.turn { now := 7 } :: acts) status := by
  intro node later
  have hlives : node.Lives startedOver :=
    .tick (.last {} rfl) <| .between rfl <| .tick (.last {} rfl) <| .nil _
  have hanswers : later.Answers [.turn {}] .success := .last {} rfl
  have hcounts := counts_iterations ⟨2, false⟩ "Repeat" ⟨"Never", .forceFailure, []⟩ (.own {})
    startedOver hlives
  have hdone : iterations ⟨2, false⟩ node 0 startedOver = 1 := by decide +kernel
  exact ⟨hlives, hdone, hcounts.1.trans hdone, hanswers, hcounts.2.1 _ _ hanswers,
    hcounts.2.2 (canAnswer_forceFailure _) _⟩

end BehaviorTree.Repeat
