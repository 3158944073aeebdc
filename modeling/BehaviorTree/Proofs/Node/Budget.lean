import BehaviorTree.Proofs.Tree.Stage

/-!
# The budget of a node that retries until success

The count that the node keeps is the number of attempts since it last answered success or failure,
was aborted or was reset (`Sound.after`). An attempt whose child answers running is counted like
any other, so as many running answers in a row as the budget allows use it up, and the next
execution gives up at once (`turn_attempts_child_iff`). An abort or a reset in the middle of an
execution gives that execution the whole budget once more (`starts_execution_le`).
-/

namespace BehaviorTree.Persist

open Journal

variable {κ : Type} [Application κ] {settings : PersistSettings}

/-! ## Moves -/

/-- The node is told of beginnings, of answers of its child and of the ends of its sleeps. -/
def Hears : Signal → Prop
  | .started | .answered .. | .woken _ => True
  | _ => False

/-- What a node with a child can do when the count stands at `count`. -/
inductive Moves (settings : PersistSettings) (count : Nat) : Move Nat → Prop where
  | finish (state : Nat) (status : Status) (notices : List Notice) (writes : List (String × Value))
      (hstate : state = if status.isTerminal then 0 else count) :
      Moves settings count ⟨state, .finish status, notices, writes⟩
  | attempt (hleft : hasLeft settings count) :
      Moves settings count (.ask (count + 1) (.run (count + 1) 0))
  | sleep (duration : Nat) : Moves settings count (.ask count (.sleep 0 duration))

/-- Giving up is a move that the node can make at any count. -/
theorem moves_giveUp (settings : PersistSettings) (count : Nat) (name : String) :
    Moves settings count (giveUp settings name) := .finish 0 .failure _ _ rfl

/-- Making an attempt, or giving up for want of one, is a move that the node can make. -/
theorem moves_attempt (settings : PersistSettings) (name : String) (count : Nat) :
    Moves settings count (attempt settings name count) := by
  unfold attempt
  split
  · next hleft => exact .attempt hleft
  · exact moves_giveUp settings count name

/-- Whatever the node hears while it has a child, it makes one of these moves. -/
theorem moves_respond (settings : PersistSettings) {moment : Moment} (hsize : moment.size ≠ 0)
    (count : Nat) {signal : Signal} (hhears : Hears signal) :
    Moves settings count (respond settings moment count signal) := by
  cases signal with
  | started =>
    rw [respond, if_neg hsize]
    exact moves_attempt settings _ count
  | answered number status =>
    cases status with
    | success => exact .finish 0 .success _ _ rfl
    | running => exact .finish count .running _ _ rfl
    | failure =>
      rw [respond]
      split
      · exact .sleep _
      · exact moves_giveUp settings count _
  | woken mark => exact moves_attempt settings _ count
  | gathered statuses => exact hhears.elim
  | joined status => exact hhears.elim
  | expired => exact hhears.elim
  | childReset => exact hhears.elim
  | childAborted => exact hhears.elim

/-- An attempt is left if the budget is unlimited or the count has not come up to it. -/
theorem hasLeft_iff (settings : PersistSettings) (count : Nat) :
    hasLeft settings count ↔ settings.attempts < 0 ∨ count < settings.attempts := by
  simp [hasLeft]

/-! ## Turns -/

/-- Where the node can be held up: at its child, or between two attempts. -/
def HeldUp : Run → Prop
  | .child _ index _ => index = 0
  | .paused (.sleep ..) => True
  | _ => False

/-- A call does not change where the node is held up. -/
theorem HeldUp.notify {run : Run} (hheld : HeldUp run) (call : Call) :
    HeldUp (run.notify call) := by
  cases run with
  | child mark index run => exact hheld
  | paused pause => exact hheld
  | together slots => exact hheld.elim
  | crowd id slots called => exact hheld.elim

/-- What the node can get in reply to a request. -/
def Gets : Reply → Prop
  | .signal signal => Hears signal
  | .stop (.waiting run) => HeldUp run
  | .stop (.failed _) => True
  | .stop (.answered _) => False

/-- The outcome of the child is something that the node can get. -/
theorem gets_replyOfChild (mark : Nat) (outcome : Outcome) :
    Gets (replyOfChild mark 0 outcome) := by
  cases outcome with
  | answered status => trivial
  | waiting run => exact rfl
  | failed fault => trivial

/-- The reply to a sleep is something that the node can get. -/
theorem gets_attend {μ : Type} (mark : Nat) (timer : Timer) (below : μ) (world : World) :
    Gets (attend (.sleep mark timer) below world).result := by
  obtain ⟨-, hattend⟩ | ⟨_, _, -, hattend⟩ := attend_sleep mark timer below world <;>
    rw [hattend] <;> trivial

/-- What a stretch of execution with `begun` attempts does to the count. -/
structure Counts (settings : PersistSettings) (count : Nat) (result : Outcome)
    (state begun : Nat) : Prop where
  /-- A stretch that waits leaves the node held up. -/
  heldUp : ∀ run, result = .waiting run → HeldUp run
  /-- The count starts over after success or failure, and otherwise has the attempts added. -/
  state_eq : state = if result.isTerminal then 0 else count + begun
  /-- A limited node begins no more attempts than it has left. -/
  begun_le : ∀ limit : Nat, settings.attempts = limit → begun ≤ limit - count

/-- An attempt before a stretch that counts is counted as well. -/
theorem Counts.attempt {count state begun : Nat} {result : Outcome}
    (hcounts : Counts settings (count + 1) result state begun) (hleft : hasLeft settings count) :
    Counts settings count result state (1 + begun) where
  heldUp := hcounts.heldUp
  state_eq := by rw [hcounts.state_eq, Nat.add_assoc]
  begun_le := by
    intro limit hlimit
    have hbegun := hcounts.begun_le limit hlimit
    simp only [hasLeft, hlimit, Bool.or_eq_true, decide_eq_true_eq] at hleft
    omega

/-- No attempt before an end that leaves nothing suspended. -/
theorem Counts.halt {count state : Nat} {result : Outcome} (hended : ∀ run, result ≠ .waiting run)
    (hstate : state = if result.isTerminal then 0 else count) :
    Counts settings count result state 0 where
  heldUp := fun run hresult => absurd hresult (hended run)
  state_eq := hstate
  begun_le := fun _ _ => Nat.zero_le _

/-- The node with its only child. -/
abbrev nodeOf (settings : PersistSettings) (name : String) (child : Tree κ) : Tree κ :=
  ⟨name, .retryUntilSuccess settings, [child]⟩

/-- An execution that stops without an answer leaves the count as it is. -/
theorem Counts.stop {outcome : Outcome} (hgets : Gets (.stop outcome)) (count : Nat) :
    Counts settings count outcome count 0 := by
  cases outcome with
  | answered status => exact hgets.elim
  | waiting run =>
    refine ⟨?_, rfl, fun _ _ => Nat.zero_le _⟩
    rintro _ ⟨⟩
    exact hgets
  | failed fault => exact .halt (by rintro _ ⟨⟩) rfl

/-- As long as the node is driven, each attempt adds one to the count, and a terminal answer puts it
back to zero. -/
theorem counts_drive (name : String) (child : Tree κ) (fuel : Nat) (reply : Reply)
    (hgets : Gets reply) (count : Nat) (binding : Binding) (below : Memories [child])
    (world : World) :
    let driven := (crewOf [child]).drive name (.retryUntilSuccess settings : Kind κ) 1 fuel reply
      ⟨count, binding⟩ below world
    Counts settings count driven.result driven.memory.1.state (starts [0] driven.journal) := by
  induction fuel generalizing reply count binding below world with
  | zero =>
    cases reply with
    | signal signal => exact .halt (by rintro _ ⟨⟩) rfl
    | stop outcome => exact .stop hgets count
  | succ fuel ih =>
    cases reply with
    | stop outcome => exact .stop hgets count
    | signal signal =>
      dsimp only
      rw [Crew.drive_signal]
      dsimp only [Kind.respond]
      generalize hmove : respond settings _ count signal = move
      have hmoves : Moves settings count move :=
        hmove ▸ moves_respond settings Nat.one_ne_zero count hgets
      generalize world.write binding move.writes = written
      simp only [Progress.result_after, Progress.memory_after, Progress.journal_after,
        starts_append, starts_map_noticeAt, Nat.zero_add]
      cases hmoves with
      | finish state status notices writes hstate =>
        simp only [Crew.serve]
        rw [Crew.drive_stop]
        exact .halt (by rintro _ ⟨⟩) hstate
      | attempt hleft =>
        have hbegun : starts [0] ((crewOf [child]).serve 1 (.run (count + 1) 0) below
            written.1).journal = 1 := starts_advanceFirst child [] none below written.1
        simp only [Move.ask]
        rw [hbegun]
        exact (ih _ (gets_replyOfChild _ _) (count + 1) written.2 _ _).attempt hleft
      | sleep duration =>
        simp only [Move.ask, Crew.serve, journal_attend, starts_nil, Nat.zero_add]
        exact ih _ (gets_attend _ _ _ _) count written.2 _ _

/-- A stretch of an execution counts the attempts that begin in it, wherever it is taken up. -/
theorem counts_advance (name : String) (child : Tree κ) {run : Option Run}
    (hheld : ∀ held, run = some held → HeldUp held) (count : Nat) (binding : Binding)
    (below : Memories [child]) (world : World) :
    let progress := advance (nodeOf settings name child) run (.node ⟨count, binding⟩ below) world
    Counts settings count progress.result progress.memory.state (starts [0] progress.journal) := by
  dsimp only
  rw [starts_cons_advance, advance_eq]
  cases run with
  | none => exact counts_drive name child _ (.signal .started) trivial count binding below world
  | some run =>
    have hrun := hheld run rfl
    rw [turnOf, Progress.andThen_eq, Progress.journal_after, starts_append]
    cases run with
    | child mark index run =>
      cases hrun
      have hbegun : starts [0] ((crewOf [child]).recheck (.child mark 0 run) below world).journal =
          0 := starts_advanceFirst child [] (some run) below world
      rw [hbegun, Nat.zero_add]
      exact counts_drive name child _ _ (gets_replyOfChild _ _) count binding _ _
    | paused pause =>
      cases pause with
      | sleep mark timer =>
        rw [Crew.recheck, journal_attend, starts_nil, Nat.zero_add]
        exact counts_drive name child _ _ (gets_attend _ _ _ _) count binding _ _
      | race task timer => exact hrun.elim
    | together slots => exact hrun.elim
    | crowd id slots called => exact hrun.elim

/-- An execution begins with an attempt if the budget has one left, and gives up if not. -/
theorem drive_started (settings : PersistSettings) (name : String) (child : Tree κ)
    (fuel count : Nat) (binding : Binding) (below : Memories [child]) (world : World) :
    let driven := (crewOf [child]).drive name (.retryUntilSuccess settings : Kind κ) 1 (fuel + 1)
      (.signal .started) ⟨count, binding⟩ below world
    if hasLeft settings count then 0 < starts [0] driven.journal
    else driven.result = .answered .failure ∧ starts [0] driven.journal = 0 := by
  dsimp only
  rw [Crew.drive_signal]
  dsimp only [Kind.respond, respond]
  rw [if_neg Nat.one_ne_zero, attempt]
  simp only [Progress.journal_after, Progress.result_after, starts_append, starts_map_noticeAt,
    Nat.zero_add]
  split
  · have hbegun : starts [0] ((crewOf [child]).serve 1 (.run (count + 1) 0) below
        (world.write binding []).1).journal = 1 := starts_advanceFirst child [] none below _
    simp only [Move.ask]
    rw [hbegun]
    exact Nat.add_pos_left Nat.one_pos _
  · simp only [giveUp, Move.report, Crew.serve]
    rw [Crew.drive_stop]
    exact ⟨rfl, rfl⟩

omit [Application κ] in
/-- The node may always make a move. -/
theorem exists_allowance (settings : PersistSettings) :
    ∃ fuel, (Kind.retryUntilSuccess settings : Kind κ).allowance 1 = fuel + 1 := by
  rw [Kind.allowance]
  split
  · exact ⟨Kind.patience - 1, rfl⟩
  · exact ⟨_, rfl⟩

/-! ## Histories -/

section History

variable {name : String} {child : Tree κ}

/-- The state of the node is the number of attempts, and it can be held up. -/
structure Sound (stage : Stage (nodeOf settings name child)) (count : Nat) : Prop where
  /-- The state is the number of attempts. -/
  state_eq : stage.memory.state = count
  /-- A suspended execution is one that can hold the node up. -/
  heldUp : ∀ run, stage.run = some run → HeldUp run

/-- A node that has never moved has made no attempt. -/
theorem sound_fresh (settings : PersistSettings) (name : String) (child : Tree κ)
    (binding : Binding) : Sound (.fresh (nodeOf settings name child) binding) 0 where
  state_eq := rfl
  heldUp := nofun

namespace Sound

variable {stage : Stage (nodeOf settings name child)} {count : Nat}

/-- A turn counts the attempts that its journal shows. -/
theorem counts (hsound : Sound stage count) (world : World) :
    Counts settings count (stage.turn world).result (stage.turn world).memory.state
      (starts [0] (stage.turn world).journal) := by
  obtain ⟨memory, run⟩ := stage
  cases memory with
  | node cell below =>
    obtain ⟨state, binding⟩ := cell
    cases hsound.state_eq
    exact counts_advance name child hsound.heldUp state binding below world

/-- Whatever is done with the node, its count goes on to be the number of attempts. -/
theorem act (hsound : Sound stage count) (act : Act (nodeOf settings name child)) :
    Sound (stage.act act) (stage.tally count act) := by
  cases act with
  | turn world =>
    have hcounts := hsound.counts world
    refine ⟨hcounts.state_eq, fun run hrun => hcounts.heldUp run ?_⟩
    cases hresult : (stage.turn world).result <;> simp_all [Stage.act, Outcome.run?]
  | abort now =>
    obtain ⟨⟨cell, below⟩, run⟩ := stage
    exact ⟨rfl, hsound.heldUp⟩
  | reset now =>
    obtain ⟨⟨cell, below⟩, run⟩ := stage
    exact ⟨rfl, hsound.heldUp⟩
  | notify call =>
    refine ⟨hsound.state_eq, fun run hrun => ?_⟩
    obtain ⟨held, hheld, rfl⟩ := Option.map_eq_some_iff.mp hrun
    exact (hsound.heldUp held hheld).notify call
  | around binding below =>
    obtain ⟨⟨cell, _⟩, run⟩ := stage
    exact ⟨hsound.state_eq, hsound.heldUp⟩

/-- However many things are done with the node, its count goes on to be the number of attempts. -/
theorem after (hsound : Sound stage count) (acts : List (Act (nodeOf settings name child))) :
    Sound (stage.after acts) (stage.attempts count acts) := by
  induction acts generalizing stage count with
  | nil => exact hsound
  | cons act acts ih => exact ih (hsound.act act)

/-- A new execution begins with an attempt if the budget has one left, and gives up if not. -/
theorem turn (hsound : Sound stage count) (hidle : stage.run = none) (world : World) :
    let turn := stage.turn world
    if hasLeft settings count then 0 < starts [0] turn.journal
    else turn.result = .answered .failure ∧ starts [0] turn.journal = 0 := by
  obtain ⟨memory, run⟩ := stage
  cases hidle
  cases memory with
  | node cell below =>
    obtain ⟨state, binding⟩ := cell
    cases hsound.state_eq
    obtain ⟨fuel, hfuel⟩ := exists_allowance (κ := κ) settings
    dsimp only [Stage.turn]
    rw [starts_cons_advance, advance_eq, turnOf]
    dsimp only [List.length_singleton]
    rw [hfuel]
    exact drive_started settings name child fuel state binding below world

end Sound

/-- When no execution of the node is under way, the next one executes the child exactly if the
budget is unlimited or not used up by the attempts since the node last answered success or failure,
was aborted or was reset. If not it fails at once. -/
theorem turn_attempts_child_iff (settings : PersistSettings) (name : String) (child : Tree κ)
    (binding : Binding) (acts : List (Act (nodeOf settings name child))) (world : World)
    (hidle : ((Stage.fresh (nodeOf settings name child) binding).after acts).run = none) :
    let node := Stage.fresh (nodeOf settings name child) binding
    let turn := (node.after acts).turn world
    (0 < starts [0] turn.journal ↔
        settings.attempts < 0 ∨ node.attempts 0 acts < settings.attempts) ∧
      (starts [0] turn.journal = 0 → turn.result = .answered .failure) := by
  have hturn := ((sound_fresh settings name child binding).after acts).turn hidle world
  dsimp only at hturn ⊢
  rw [← hasLeft_iff]
  split at hturn
  · next hleft =>
    exact ⟨iff_of_true hturn hleft, fun hnone => absurd hnone (Nat.ne_of_gt hturn)⟩
  · next hnone =>
    exact ⟨iff_of_false (Nat.not_lt.mpr (Nat.le_of_eq hturn.2)) hnone, fun _ => hturn.1⟩

/-- With a budget of one attempt, used up by a child that answered running. -/
theorem turn_attempts_child_iff_usedUp :
    let node := Stage.fresh (nodeOf ⟨1, 0⟩ "" (⟨"", .wait 0, []⟩ : Tree Empty)) (.own {})
    let acts := [Act.turn {}]
    let turn := (node.after acts).turn {}
    (node.after acts).run = none ∧
      (0 < starts [0] turn.journal ↔ (1 : Int) < 0 ∨ node.attempts 0 acts < (1 : Int)) ∧
      (starts [0] turn.journal = 0 → turn.result = .answered .failure) :=
  ⟨rfl, turn_attempts_child_iff ⟨1, 0⟩ "" ⟨"", .wait 0, []⟩ (.own {}) [.turn {}] {} rfl⟩

/-- The node may give up on a child that answered running, without executing it again. -/
theorem not_running_child_attempted_again :
    ¬ ∀ (settings : PersistSettings) (name : String) (child : Tree Empty) (binding : Binding)
      (acts : List (Act (nodeOf settings name child))) (earlier later : World),
      let node := Stage.fresh (nodeOf settings name child) binding
      settings.attempts ≠ 0 →
      ((node.after acts).turn earlier).result = .answered .running →
      0 < starts [0] ((node.after (acts ++ [.turn earlier])).turn later).journal := by
  intro hagain
  have hmore := hagain ⟨1, 0⟩ "" ⟨"", .wait 0, []⟩ (.own {}) [] {} {} (by decide) rfl
  revert hmore
  decide

/-! ## One execution -/

/-- An act uses up part of what is left of a limited budget, or puts the whole budget back. -/
theorem Sound.starts_own_le {stage : Stage (nodeOf settings name child)} {count limit : Nat}
    (hsound : Sound stage count) (hlimit : settings.attempts = limit)
    (act : Act (nodeOf settings name child)) :
    starts [0] (stage.own act) + (if stage.ends act then 0 else limit - stage.tally count act) ≤
      (limit - count) + if act.interrupts then limit else 0 := by
  cases act with
  | turn world =>
    have hbegun := (hsound.counts world).begun_le limit hlimit
    simp only [Stage.own, Stage.ends, Stage.tally, Act.interrupts]
    by_cases hends : (stage.turn world).result.run?.isNone
    · simp only [hends, if_true]
      omega
    · have hgoes := mt Outcome.run?_isNone_of_isTerminal hends
      simp only [hends, hgoes, Bool.false_eq_true, if_false]
      omega
  | abort now => simp [Stage.own, Stage.ends, Stage.tally, Act.interrupts]
  | reset now => simp [Stage.own, Stage.ends, Stage.tally, Act.interrupts]
  | notify call => simp [Stage.own, Stage.ends, Stage.tally, Act.interrupts]
  | around binding below => simp [Stage.own, Stage.ends, Stage.tally, Act.interrupts]

/-- An execution begins no more attempts than were left of the budget, and each abort or reset in
the course of it adds the whole budget once. -/
theorem Sound.execution_le {stage : Stage (nodeOf settings name child)} {count limit : Nat}
    (hsound : Sound stage count) (hlimit : settings.attempts = limit)
    (acts : List (Act (nodeOf settings name child))) :
    starts [0] (stage.execution acts) ≤ (limit - count) + limit * acts.countP Act.interrupts := by
  induction acts generalizing stage count with
  | nil => exact Nat.zero_le _
  | cons act acts ih =>
    have hact := hsound.starts_own_le hlimit act
    have hrest := ih (hsound.act act)
    have hinterrupts :
        limit * (if act.interrupts then 1 else 0) = if act.interrupts then limit else 0 := by
      split
      · exact Nat.mul_one limit
      · rfl
    rw [Stage.execution, starts_append, List.countP_cons, Nat.mul_add, hinterrupts]
    split
    · rw [starts_nil]
      omega
    · next hends =>
      rw [if_neg hends] at hact
      omega

/-- One execution of the node executes its child at most as often as the budget says, and as often
again for every abort or reset that comes meanwhile. -/
theorem starts_execution_le (settings : PersistSettings) (name : String) (child : Tree κ)
    (binding : Binding) (limit : Nat) (hlimit : settings.attempts = limit)
    (before acts : List (Act (nodeOf settings name child))) :
    starts [0] (((Stage.fresh (nodeOf settings name child) binding).after before).execution acts) ≤
      limit * (acts.countP Act.interrupts + 1) := by
  have hbound := ((sound_fresh settings name child binding).after before).execution_le
    hlimit acts
  rw [Nat.mul_add_one]
  omega

/-- A child that fails after 200 milliseconds. -/
def slowFailure : Tree Empty := ⟨"", .retry ⟨2, 200, false⟩, [⟨"", .forceFailure, []⟩]⟩

/-- One attempt is allowed, and an abort comes while the child waits. -/
theorem starts_execution_le_aborted :
    starts [0] ((Stage.fresh (nodeOf ⟨1, 0⟩ "" slowFailure) (.own {})).execution
      [.turn {}, .abort 100, .turn { now := 200 }, .turn { now := 400 }]) ≤ 1 * (1 + 1) :=
  starts_execution_le ⟨1, 0⟩ "" slowFailure (.own {}) 1 rfl []
    [.turn {}, .abort 100, .turn { now := 200 }, .turn { now := 400 }]

/-- An execution may execute its child more often than the budget says, if an abort comes. -/
theorem not_starts_execution_le_limit :
    ¬ ∀ (settings : PersistSettings) (name : String) (child : Tree Empty) (binding : Binding)
      (limit : Nat) (before acts : List (Act (nodeOf settings name child))),
      let node := (Stage.fresh (nodeOf settings name child) binding).after before
      settings.attempts = limit → node.run = none → starts [0] (node.execution acts) ≤ limit := by
  intro hbound
  have hone := hbound ⟨1, 0⟩ "" slowFailure (.own {}) 1 []
    [.turn {}, .abort 100, .turn { now := 200 }] rfl rfl
  revert hone
  decide

end History

end BehaviorTree.Persist
