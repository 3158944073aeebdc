import BehaviorTree.Proofs.Node.Budget
import BehaviorTree.Proofs.Tree.Likeness
import BehaviorTree.Proofs.Tree.Retrying

/-!
# Two ways to retry that agree

A retry node counts its attempts within one execution, a node that retries until success counts
them from one execution to the next. With the same limit and the same fixed delay they move in the
same way as long as the second one begins with a count of zero (`sameMove_respond`), and it does if
their child never answers running. So both do the same in every tick (`TwoRetries.ticks_agree`).
-/

namespace BehaviorTree.TwoRetries

open Journal

variable {κ : Type} [Application κ] {count : Nat} {delay : Int}

/-- A limited number of attempts with a fixed delay. -/
abbrev retrySettings (count : Nat) (delay : Int) : RetrySettings := ⟨count, delay, false⟩

/-- The same for a node that retries until success. -/
abbrev persistSettings (count : Nat) (delay : Int) : PersistSettings := ⟨count, delay⟩

/-- The retry node with the child. -/
abbrev retryNode (count : Nat) (delay : Int) (name : String) (child : Tree κ) : Tree κ :=
  Retry.nodeOf (retrySettings count delay) name child

/-- The node that retries until success, with the same child. -/
abbrev persistNode (count : Nat) (delay : Int) (name : String) (child : Tree κ) : Tree κ :=
  Persist.nodeOf (persistSettings count delay) name child

/-! ## Moves -/

/-- What both nodes hear when so many attempts have been made, and how many moves they may make
from then on. -/
inductive SameSignal (count : Nat) : Nat → Signal → Signal → Nat → Prop where
  | started : SameSignal count 0 .started .started (2 * count + 1)
  | answered {number : Nat} (hleft : number ≤ count) (status : Status) :
    SameSignal count number (.answered number status) (.answered number status)
      (2 * (count - number) + 1)
  | woken {number : Nat} (hleft : number < count) :
    SameSignal count number (.woken number) (.woken 0) (2 * (count - number))

/-- How both nodes move, and how many moves they may make afterwards. -/
inductive SameMove (count : Nat) : Move Unit → Move Nat → Nat → Prop where
  | finish (status : Status) (notices otherNotices : List Notice) {state : Nat}
      (hstate : status ≠ .running → state = 0) :
    SameMove count ⟨(), .finish status, notices, []⟩ ⟨state, .finish status, otherNotices, []⟩ 0
  | run {number : Nat} (hleft : number ≤ count) :
    SameMove count (.ask () (.run number 0)) (.ask number (.run number 0))
      (2 * (count - number) + 1)
  | sleep {number : Nat} (hleft : number < count) (duration : Nat) :
    SameMove count (.ask () (.sleep number duration)) (.ask number (.sleep 0 duration))
      (2 * (count - number))

/-- An attempt is left if fewer than the limit have been made. -/
theorem hasLeft_iff_lt (number : Nat) :
    Persist.hasLeft (persistSettings count delay) number ↔ number < count := by
  rw [Persist.hasLeft_iff]
  dsimp only
  omega

/-- When no attempt is left, both nodes answer failure and start over. -/
theorem sameMove_giveUp (name other : String) (number : Nat) (hnone : count < number) :
    SameMove count (Retry.attempt (retrySettings count delay) name number)
      (Persist.giveUp (persistSettings count delay) other) 0 := by
  rw [Retry.attempt_of_lt (Int.ofNat_lt.mpr hnone)]
  exact .finish .failure _ _ fun _ => rfl

/-- Both nodes make their next attempt, or give up alike if none is left. -/
theorem sameMove_attempt (name other : String) (number : Nat) :
    ∃ later, later < 2 * (count - number) + 1 ∧ (number < count → later < 2 * (count - number)) ∧
      SameMove count (Retry.attempt (retrySettings count delay) name (number + 1))
        (Persist.attempt (persistSettings count delay) other number) later := by
  by_cases hleft : number < count
  · have hnext : number + 1 ≤ count := hleft
    refine ⟨2 * (count - (number + 1)) + 1, by omega, fun _ => by omega, ?_⟩
    rw [Retry.attempt_of_le (Int.ofNat_le.mpr hnext), Persist.attempt,
      if_pos ((hasLeft_iff_lt number).mpr hleft)]
    exact .run hnext
  · refine ⟨0, Nat.succ_pos _, fun hlt => absurd hlt hleft, ?_⟩
    rw [Persist.attempt, if_neg (mt (hasLeft_iff_lt number).mp hleft)]
    exact sameMove_giveUp name other (number + 1) (by omega)

/-- Both nodes move in the same way. -/
theorem sameMove_respond {number need : Nat} {signal other : Signal}
    (hsignals : SameSignal count number signal other need) (moment otherMoment : Moment)
    (hsize : moment.size ≠ 0) (hotherSize : otherMoment.size ≠ 0) :
    ∃ later, later < need ∧
      SameMove count (Retry.respond (retrySettings count delay) moment signal)
        (Persist.respond (persistSettings count delay) otherMoment number other) later := by
  cases hsignals with
  | started =>
    rw [Retry.respond, if_neg hsize, Persist.respond, if_neg hotherSize]
    obtain ⟨later, hlater, -, hmove⟩ := sameMove_attempt moment.name otherMoment.name 0
    exact ⟨later, hlater, hmove⟩
  | answered hleft status =>
    cases status with
    | success => exact ⟨0, Nat.succ_pos _, .finish .success _ _ fun _ => rfl⟩
    | running => exact ⟨0, Nat.succ_pos _, .finish .running _ _ fun hended => absurd rfl hended⟩
    | failure =>
      rw [Persist.respond]
      by_cases hmore : number < count
      · refine ⟨2 * (count - number), Nat.lt_succ_self _, ?_⟩
        rw [Retry.respond_failed (Int.ofNat_lt.mpr hmore),
          if_pos ((hasLeft_iff_lt number).mpr hmore)]
        exact .sleep hmore _
      · refine ⟨0, Nat.succ_pos _, ?_⟩
        have hnone : ¬ (number : Int) < (retrySettings count delay).maxRetries :=
          mt Int.ofNat_lt.mp hmore
        rw [Retry.respond, if_neg hnone, if_neg (mt (hasLeft_iff_lt number).mp hmore)]
        exact sameMove_giveUp moment.name otherMoment.name (number + 1) (by omega)
  | woken hleft =>
    obtain ⟨later, -, hlater, hmove⟩ := sameMove_attempt moment.name otherMoment.name number
    exact ⟨later, hlater hleft, hmove⟩

/-! ## Turns -/

/-- The request, whatever mark a sleep has. -/
def unmarked : Request → Request
  | .sleep _ duration => .sleep 0 duration
  | request => request

/-- What holds both nodes up after so many attempts. -/
inductive SameRun (count : Nat) : Nat → Run → Run → Prop where
  | child {number : Nat} (hleft : number ≤ count) (run : Run) :
    SameRun count number (.child number 0 run) (.child number 0 run)
  | sleep {number : Nat} (hleft : number < count) (timer : Timer) :
    SameRun count number (.paused (.sleep number timer)) (.paused (.sleep 0 timer))

/-- What both nodes get in reply to a request, and how many moves they may make from then on. -/
inductive SameReply (count : Nat) : Nat → Reply → Reply → Nat → Prop where
  | signal {number need : Nat} {signal other : Signal}
      (hsignals : SameSignal count number signal other need) :
    SameReply count number (.signal signal) (.signal other) need
  | waiting {number : Nat} {run other : Run} (hruns : SameRun count number run other)
      (need : Nat) : SameReply count number (.stop (.waiting run)) (.stop (.waiting other)) need
  | failed (number : Nat) (fault : Fault) (need : Nat) :
    SameReply count number (.stop (.failed fault)) (.stop (.failed fault)) need

/-- How a turn of both nodes ends, with the count of the second one. -/
inductive SameOutcome (count : Nat) : Nat → Outcome → Outcome → Prop where
  | answered {number : Nat} (status : Status) (hended : status ≠ .running → number = 0) :
    SameOutcome count number (.answered status) (.answered status)
  | waiting {number : Nat} {run other : Run} (hruns : SameRun count number run other) :
    SameOutcome count number (.waiting run) (.waiting other)
  | failed (number : Nat) (fault : Fault) :
    SameOutcome count number (.failed fault) (.failed fault)

/-- The two nodes have done the same with the same children. -/
structure SameProgress {μ : Type} (count : Nat) (progress : Progress Outcome (Cell Unit × μ))
    (other : Progress Outcome (Cell Nat × μ)) : Prop where
  /-- The outcomes are the same. -/
  outcome : SameOutcome count other.memory.1.state progress.result other.result
  /-- The nodes are bound to the same context. -/
  binding_eq : progress.memory.1.binding = other.memory.1.binding
  /-- The children keep the same. -/
  below_eq : progress.memory.2 = other.memory.2
  /-- The worlds are the same. -/
  world_eq : progress.world = other.world
  /-- The journals are the same below the root. -/
  journal_eq : progress.journal.filterMap Entry.below? = other.journal.filterMap Entry.below?
  /-- The same tasks are started. -/
  spawned_eq : progress.spawned = other.spawned
  /-- Both ask for another turn, or neither does. -/
  again_eq : progress.again = other.again

section Drive

variable {μ : Type} {number need : Nat}

/-- Two nodes that have done the same before and after have done the same. -/
theorem SameProgress.after {progress : Progress Outcome (Cell Unit × μ)}
    {other : Progress Outcome (Cell Nat × μ)} (hsame : SameProgress count progress other)
    {journal otherJournal : Journal}
    (hjournal : journal.filterMap Entry.below? = otherJournal.filterMap Entry.below?)
    (spawned : List Spawn) (again : Bool) :
    SameProgress count (progress.after journal spawned again)
      (other.after otherJournal spawned again) where
  outcome := hsame.outcome
  binding_eq := hsame.binding_eq
  below_eq := hsame.below_eq
  world_eq := hsame.world_eq
  journal_eq := by
    rw [Progress.journal_after, Progress.journal_after, List.filterMap_append,
      List.filterMap_append, hjournal, hsame.journal_eq]
  spawned_eq := congrArg (spawned ++ ·) hsame.spawned_eq
  again_eq := congrArg (again || ·) hsame.again_eq

/-- Nothing below the root is noted by its notices. -/
theorem below_map_noticeAt (now : Nat) (notices : List Notice) :
    (notices.map (noticeAt now)).filterMap Entry.below? = [] :=
  hidesRoot_below.filterMap_eq_nil fun entry hmem => by
    obtain ⟨notice, -, rfl⟩ := List.mem_map.mp hmem
    rfl

/-- Both nodes hear the same from their child. -/
theorem sameReply_replyOfChild (hleft : number ≤ count) (outcome : Outcome) :
    SameReply count number (replyOfChild number 0 outcome) (replyOfChild number 0 outcome)
      (2 * (count - number) + 1) := by
  cases outcome with
  | answered status => exact .signal (.answered hleft status)
  | waiting run => exact .waiting (.child hleft run) _
  | failed fault => exact .failed number fault _

/-- Both nodes sleep equally long. -/
theorem exists_sameReply_attend (hleft : number < count) (timer : Timer) (below : μ)
    (world : World) :
    ∃ reply copy later, SameReply count number reply copy (2 * (count - number)) ∧
      attend (.sleep number timer) below world =
        { result := reply, memory := below, world := later } ∧
      attend (.sleep 0 timer) below world =
        { result := copy, memory := below, world := later } := by
  by_cases hnone : world.waitsLeft = 0
  · refine ⟨_, _, world.putOffWait, .waiting (.sleep hleft timer) _, ?_, ?_⟩ <;>
      exact if_pos hnone
  · by_cases hdue : timer.due ≤ world.now
    · refine ⟨_, _, world.endWait, .signal (.woken hleft), ?_, ?_⟩ <;>
        exact (if_neg hnone).trans (if_pos hdue)
    · by_cases hstarted : timer.order.isSome
      · refine ⟨_, _, world, .waiting (.sleep hleft timer) _, ?_, ?_⟩ <;>
          simp [attend, hnone, hdue, World.startTimer, Pause.timer, hstarted]
      · let started : Timer := { timer with order := some world.timersStarted }
        let later : World := { world with timersStarted := world.timersStarted + 1 }
        refine ⟨_, _, later, .waiting (.sleep hleft started) _, ?_, ?_⟩ <;>
          simp [attend, hnone, hdue, World.startTimer, Pause.timer, Pause.started, hstarted,
            started, later]

/-- Both nodes do the same if they stop with outcomes that are the same. -/
theorem sameProgress_stop {outcome other : Outcome}
    (houtcome : SameOutcome count number outcome other) (binding : Binding) (below : μ)
    (world : World) :
    SameProgress count
      { result := outcome, memory := ((⟨(), binding⟩ : Cell Unit), below), world }
      { result := other, memory := ((⟨number, binding⟩ : Cell Nat), below), world } :=
  ⟨houtcome, rfl, rfl, rfl, rfl, rfl, rfl⟩

variable (κ) in
/-- Both nodes do the same while they are driven. -/
theorem sameProgress_drive (crew : Crew μ) (name other : String) {fuel more : Nat}
    {reply copy : Reply} (hreplies : SameReply count number reply copy need) (hfuel : need ≤ fuel)
    (hmore : need ≤ more) (binding : Binding) (below : μ) (world : World) :
    SameProgress count
        (crew.drive name (.retry (retrySettings count delay) : Kind κ) 1 fuel reply ⟨(), binding⟩
          below world)
        (crew.drive other (.retryUntilSuccess (persistSettings count delay) : Kind κ) 1 more copy
          ⟨number, binding⟩ below world) ∧
      (crew.driveRequests name (.retry (retrySettings count delay) : Kind κ) 1 fuel reply
          ⟨(), binding⟩ below world).map unmarked =
        (crew.driveRequests other (.retryUntilSuccess (persistSettings count delay) : Kind κ) 1 more
          copy ⟨number, binding⟩ below world).map unmarked := by
  induction fuel using Nat.strongRecOn generalizing more number need reply copy below world with
  | ind fuel ih =>
    cases hreplies with
    | waiting hruns need =>
      rw [Crew.drive_stop, Crew.drive_stop, Crew.driveRequests_stop, Crew.driveRequests_stop]
      exact ⟨sameProgress_stop (.waiting hruns) binding below world, rfl⟩
    | failed fault need =>
      rw [Crew.drive_stop, Crew.drive_stop, Crew.driveRequests_stop, Crew.driveRequests_stop]
      exact ⟨sameProgress_stop (.failed number fault) binding below world, rfl⟩
    | @signal _ signal otherSignal hsignals =>
      obtain ⟨later, hlater, hmoves⟩ := @sameMove_respond count delay _ _ _ _ hsignals
        ⟨name, 1, world.now, world.context binding⟩ ⟨other, 1, world.now, world.context binding⟩
        Nat.one_ne_zero Nat.one_ne_zero
      obtain ⟨fuel, rfl⟩ : ∃ rest, fuel = rest + 1 := ⟨fuel - 1, by omega⟩
      obtain ⟨more, rfl⟩ : ∃ rest, more = rest + 1 := ⟨more - 1, by omega⟩
      rw [Crew.drive_signal, Crew.drive_signal, Crew.driveRequests_signal,
        Crew.driveRequests_signal]
      dsimp only [Kind.respond]
      have hnext : fuel < fuel + 1 := Nat.lt_succ_self fuel
      generalize Retry.respond (retrySettings count delay) _ signal = move at hmoves ⊢
      generalize Persist.respond (persistSettings count delay) _ number otherSignal = otherMove
        at hmoves ⊢
      cases hmoves with
      | finish status notices otherNotices hstate =>
        simp only [Crew.serve, World.write_nil]
        rw [Crew.drive_stop, Crew.drive_stop, Crew.driveRequests_stop, Crew.driveRequests_stop]
        refine ⟨(sameProgress_stop (.answered status hstate) binding below world).after ?_ [] false,
          rfl⟩
        rw [List.append_nil, List.append_nil, below_map_noticeAt, below_map_noticeAt]
      | @run next hleft =>
        have hmore : 2 * (count - next) + 1 ≤ more := by omega
        simp only [Move.ask, World.write_nil, Crew.serve]
        obtain ⟨hsame, hrequests⟩ :=
          ih fuel hnext (sameReply_replyOfChild hleft _) (by omega) hmore _ _
        exact ⟨hsame.after rfl _ _, congrArg (List.cons (Request.run next 0)) hrequests⟩
      | @sleep next hleft duration =>
        have hmore : 2 * (count - next) ≤ more := by omega
        simp only [Move.ask, World.write_nil, Crew.serve]
        obtain ⟨reply, copy, world', hreplies, hattend, hotherAttend⟩ :=
          exists_sameReply_attend hleft ⟨world.now + duration, none⟩ below world
        rw [hattend, hotherAttend]
        obtain ⟨hsame, hrequests⟩ := ih fuel hnext hreplies (by omega) hmore below world'
        exact ⟨hsame.after rfl _ _, congrArg (List.cons (Request.sleep 0 duration)) hrequests⟩

end Drive

/-! ## Turns of the two nodes -/

/-- What holds both nodes up, if anything does. -/
inductive SameHold (count : Nat) : Nat → Option Run → Option Run → Prop where
  | idle : SameHold count 0 none none
  | held {number : Nat} {run other : Run} (hruns : SameRun count number run other) :
    SameHold count number (some run) (some other)

section Nodes

variable {name other : String} {child : Tree κ} {number : Nat}

omit [Application κ] in
/-- The moves that are needed are allowed to the retry node. -/
theorem le_allowance_retry :
    2 * count + 1 ≤ (Kind.retry (retrySettings count delay) : Kind κ).allowance 1 := by
  rw [Kind.allowance]
  dsimp only
  omega

omit [Application κ] in
/-- The moves that are needed are allowed to the node that retries until success. -/
theorem le_allowance_persist :
    2 * count + 1 ≤
      (Kind.retryUntilSuccess (persistSettings count delay) : Kind κ).allowance 1 := by
  have hlimited : ¬ (persistSettings count delay).attempts < 0 :=
    Int.not_lt.mpr (Int.natCast_nonneg count)
  rw [Kind.allowance, if_neg hlimited]
  dsimp only
  omega

/-- Both nodes do the same in a turn. -/
theorem sameProgress_turn {run otherRun : Option Run} (hholds : SameHold count number run otherRun)
    (binding : Binding) (below : Memories [child]) (world : World) :
    SameProgress count
        (turnOf name (.retry (retrySettings count delay)) [child] run ⟨(), binding⟩ below world)
        (turnOf other (.retryUntilSuccess (persistSettings count delay)) [child] otherRun
          ⟨number, binding⟩ below world) ∧
      (requests run (.node ⟨(), binding⟩ below :
          Memory (retryNode count delay name child)) world).map unmarked =
        (requests otherRun (.node ⟨number, binding⟩ below :
          Memory (persistNode count delay other child)) world).map unmarked := by
  have hallowed : 2 * count + 1 ≤ (Kind.retry (retrySettings count delay) : Kind κ).allowance 1 :=
    le_allowance_retry
  have hotherAllowed : 2 * count + 1 ≤
      (Kind.retryUntilSuccess (persistSettings count delay) : Kind κ).allowance 1 :=
    le_allowance_persist
  cases hholds with
  | idle =>
    exact sameProgress_drive κ (crewOf [child]) name other (.signal .started) hallowed hotherAllowed
      binding below world
  | held hruns =>
    cases hruns with
    | child hleft run =>
      have hfew : 2 * (count - number) + 1 ≤ 2 * count + 1 := by omega
      obtain ⟨hsame, hrequests⟩ := sameProgress_drive κ (crewOf [child]) name other
        (sameReply_replyOfChild hleft ((crewOf [child]).advance 0 (some run) below world).result)
        (Nat.le_trans hfew hallowed) (Nat.le_trans hfew hotherAllowed) binding _ _
      exact ⟨hsame.after rfl _ _, hrequests⟩
    | sleep hleft timer =>
      have hfew : 2 * (count - number) ≤ 2 * count + 1 := by omega
      obtain ⟨reply, copy, world', hreplies, hattend, hotherAttend⟩ :=
        exists_sameReply_attend hleft timer below world
      obtain ⟨hsame, hrequests⟩ := sameProgress_drive κ (crewOf [child]) name other hreplies
        (Nat.le_trans hfew hallowed) (Nat.le_trans hfew hotherAllowed) binding below
        world'
      simp only [turnOf, requests, Crew.recheck, hattend, hotherAttend, Progress.andThen_eq]
      exact ⟨hsame.after rfl _ _, hrequests⟩

/-! ## Histories of the two nodes -/

/-- What happens to one node, happening to another with the same children. -/
def carryAct {name other : String} {kind otherKind : Kind κ} {children : List (Tree κ)} :
    Act ⟨name, kind, children⟩ → Act ⟨other, otherKind, children⟩
  | .turn world => .turn world
  | .abort now => .abort now
  | .reset now => .reset now
  | .notify call => .notify call
  | .around binding below => .around binding below

section Carry

variable {name other : String} {kind otherKind : Kind κ} {children : List (Tree κ)}

/-- A turn happens to both nodes alike. -/
theorem isTurn_carryAct (act : Act (⟨name, kind, children⟩ : Tree κ)) :
    (carryAct act : Act ⟨other, otherKind, children⟩).isTurn = act.isTurn := by
  cases act <;> rfl

/-- A quiet act happens to both nodes alike. -/
theorem isQuiet_carryAct (act : Act (⟨name, kind, children⟩ : Tree κ)) :
    (carryAct act : Act ⟨other, otherKind, children⟩).isQuiet = act.isQuiet := by
  cases act <;> rfl

end Carry

/-- An episode of one node, happening to another with the same children. -/
def carryEpisode {name other : String} {kind otherKind : Kind κ} {children : List (Tree κ)} :
    Episode ⟨name, kind, children⟩ → Episode ⟨other, otherKind, children⟩
  | .tick acts status => .tick (acts.map carryAct) status
  | .between act => .between (carryAct act)

/-- The two nodes have the same child in the same state, and are held up in the same way. -/
inductive SameStage (count : Nat) (delay : Int) {name other : String} {child : Tree κ} :
    Stage (retryNode count delay name child) → Stage (persistNode count delay other child) →
      Prop where
  | mk {number : Nat} {run otherRun : Option Run} (hholds : SameHold count number run otherRun)
    (binding : Binding) (below : Memories [child]) :
    SameStage count delay ⟨.node ⟨(), binding⟩ below, run⟩ ⟨.node ⟨number, binding⟩ below, otherRun⟩

/-- How a turn of both nodes ends, and that they can still be compared then. -/
inductive SameEnd (count : Nat) (delay : Int) {name other : String} {child : Tree κ} :
    Outcome → Outcome → Stage (retryNode count delay name child) →
      Stage (persistNode count delay other child) → Prop where
  | answered (status : Status) {stage : Stage (retryNode count delay name child)}
    {copy : Stage (persistNode count delay other child)}
    (hsame : status ≠ .running → SameStage count delay stage copy) :
    SameEnd count delay (.answered status) (.answered status) stage copy
  | waiting (run otherRun : Run) {stage : Stage (retryNode count delay name child)}
    {copy : Stage (persistNode count delay other child)}
    (hsame : SameStage count delay stage copy) :
    SameEnd count delay (.waiting run) (.waiting otherRun) stage copy
  | failed (fault : Fault) (stage : Stage (retryNode count delay name child))
    (copy : Stage (persistNode count delay other child)) :
    SameEnd count delay (.failed fault) (.failed fault) stage copy

section Stages

variable {stage : Stage (retryNode count delay name child)}
  {copy : Stage (persistNode count delay other child)}

/-- Both nodes have turns that end in the same way. -/
theorem SameStage.turn (hsame : SameStage count delay stage copy) (world : World) :
    SameEnd count delay (stage.turn world).result (copy.turn world).result
        (stage.act (.turn world)) (copy.act (.turn world)) ∧
      (stage.asks (.turn world)).map unmarked = (copy.asks (.turn world)).map unmarked ∧
      (stage.own (.turn world)).filterMap Entry.below? =
        (copy.own (.turn world)).filterMap Entry.below? := by
  obtain ⟨hholds, binding, below⟩ := hsame
  obtain ⟨hturns, hrequests⟩ :=
    @sameProgress_turn κ _ count delay name other child _ _ _ hholds binding below world
  simp only [Stage.act, Stage.own, Stage.turn, Stage.asks, advance_eq, hidesRoot_below.turn]
  refine ⟨?_, hrequests, hturns.journal_eq⟩
  generalize turnOf name (.retry (retrySettings count delay)) [child] _ _ below world = turn
    at hturns
  generalize turnOf other (.retryUntilSuccess (persistSettings count delay)) [child] _ _ below world
    = otherTurn at hturns
  obtain ⟨result, ⟨⟨⟨⟩, binding⟩, below⟩, world', journal, spawned, again⟩ := turn
  obtain ⟨otherResult, ⟨⟨number, otherBinding⟩, otherBelow⟩, _⟩ := otherTurn
  obtain ⟨houtcome, hbinding, hbelow, -⟩ := hturns
  dsimp only at houtcome hbinding hbelow ⊢
  subst hbinding hbelow
  cases houtcome with
  | answered status hended =>
    refine .answered status fun hnotRunning => ?_
    obtain rfl := hended hnotRunning
    exact .mk .idle binding below
  | waiting hruns => exact .waiting _ _ (.mk (.held hruns) binding below)
  | failed fault => exact .failed fault _ _

/-- Both nodes can still be compared after a quiet act. -/
theorem SameStage.quiet (hsame : SameStage count delay stage copy)
    {act : Act (retryNode count delay name child)} (hquiet : act.isQuiet) :
    SameStage count delay (stage.act act) (copy.act (carryAct act)) := by
  obtain ⟨hholds, binding, below⟩ := hsame
  obtain ⟨call, rfl⟩ | ⟨binding, below, rfl⟩ := Act.exists_of_isQuiet hquiet
  · refine .mk ?_ binding below
    cases hholds with
    | idle => exact .idle
    | held hruns =>
      refine .held ?_
      cases hruns with
      | child hleft run => exact .child hleft _
      | sleep hleft timer => exact .sleep hleft timer
  · exact .mk hholds binding below

/-- Both nodes can still be compared after anything between two ticks. -/
theorem SameStage.between (hsame : SameStage count delay stage copy) (hidle : stage.run = none)
    {act : Act (retryNode count delay name child)} (hturn : act.isTurn = false) :
    SameStage count delay (stage.act act) (copy.act (carryAct act)) := by
  cases act with
  | turn world => cases hturn
  | notify call => exact hsame.quiet rfl
  | around binding below => exact hsame.quiet rfl
  | abort now =>
    obtain ⟨hholds, binding, below⟩ := hsame
    cases hidle
    cases hholds
    exact .mk .idle binding _
  | reset now =>
    obtain ⟨hholds, binding, below⟩ := hsame
    cases hidle
    cases hholds
    exact .mk .idle binding _

/-- Both nodes answer at the end of the same turns. -/
theorem SameStage.answers_iff (hsame : SameStage count delay stage copy)
    (acts : List (Act (retryNode count delay name child))) (status : Status) :
    stage.Answers acts status ↔ copy.Answers (acts.map carryAct) status := by
  induction acts generalizing stage copy with
  | nil => exact iff_of_false nofun nofun
  | cons act acts ih =>
    rw [List.map_cons]
    cases hturn : act.isTurn with
    | false =>
      rw [Stage.answers_cons_iff hturn, Stage.answers_cons_iff ((isTurn_carryAct act).trans hturn),
        isQuiet_carryAct]
      exact and_congr_right fun hquiet => ih (hsame.quiet hquiet)
    | true =>
      cases act with
      | turn world =>
        obtain ⟨hend, -⟩ := hsame.turn world
        rw [carryAct, Stage.answers_turn_iff, Stage.answers_turn_iff, List.map_eq_nil_iff]
        generalize (stage.turn world).result = result at hend ⊢
        generalize (copy.turn world).result = otherResult at hend ⊢
        cases hend with
        | answered status hsame => simp
        | waiting run otherRun hsame => simp [ih hsame]
        | failed fault => simp
      | _ => cases hturn

/-- Both nodes do the same in a tick. -/
theorem SameStage.tick (hsame : SameStage count delay stage copy)
    {acts : List (Act (retryNode count delay name child))} {status : Status}
    (hanswers : stage.Answers acts status) :
    let copies := acts.map carryAct
    (stage.allAsks acts).map unmarked = (copy.allAsks copies).map unmarked ∧
      (stage.journal acts).filterMap Entry.below? = (copy.journal copies).filterMap Entry.below? ∧
      (status ≠ .running → SameStage count delay (stage.after acts) (copy.after copies)) := by
  induction hanswers generalizing copy with
  | @last stage world status hresult =>
    obtain ⟨hend, hasks, hown⟩ := hsame.turn world
    rw [hresult] at hend
    refine ⟨?_, ?_, ?_⟩
    · simpa [carryAct, Stage.allAsks] using hasks
    · simpa [carryAct, Stage.journal] using hown
    · generalize (copy.turn world).result = otherResult at hend
      cases hend with
      | answered status hsame => exact hsame
  | @wait stage world run hresult acts status hrest ih =>
    obtain ⟨hend, hasks, hown⟩ := hsame.turn world
    rw [hresult] at hend
    have hsame : SameStage count delay (stage.act (.turn world)) (copy.act (.turn world)) := by
      generalize (copy.turn world).result = otherResult at hend
      cases hend with
      | waiting run otherRun hsame => exact hsame
    obtain ⟨hrestAsks, hrestJournal, hafter⟩ := ih hsame
    refine ⟨?_, ?_, hafter⟩
    · simp only [List.map_cons, carryAct, Stage.allAsks, List.map_append, hasks, hrestAsks]
    · simp only [List.map_cons, carryAct, Stage.journal, List.filterMap_append, hown, hrestJournal]
  | @meanwhile stage act hquiet acts status hrest ih =>
    obtain ⟨hrestAsks, hrestJournal, hafter⟩ := ih (hsame.quiet hquiet)
    have hturn := Act.isTurn_of_isQuiet hquiet
    have hcopy : (carryAct act : Act (persistNode count delay other child)).isTurn = false :=
      (isTurn_carryAct act).trans hturn
    refine ⟨?_, ?_, hafter⟩
    · simpa [Stage.allAsks, Stage.asks_eq_nil hturn, Stage.asks_eq_nil hcopy] using hrestAsks
    · simpa [Stage.journal, Stage.own_eq_nil hturn, Stage.own_eq_nil hcopy] using hrestJournal

end Stages

/-! ## Ticks of the two nodes -/

/-- An execution of a retry node that ends running has executed a running child. -/
theorem exists_running_of_talks {settings : RetrySettings} {size : Nat} {state last : Unit}
    {signal : Signal} {exchanges : List Exchange} {request : Request}
    (htalks : (Retry.machine settings).Talks size state signal exchanges last request)
    (hrunning : request = .finish .running) :
    (∃ number, signal = .answered number .running) ∨
      ∃ execution ∈ exchanges.filterMap Exchange.execution?, execution.status = .running := by
  induction htalks with
  | asks state signal moment hsize =>
    have hasks : Retry.Asks settings signal _ := Retry.asks_respond settings moment signal
    rw [hrunning] at hasks
    cases hasks with
    | finish signal status hanswered => exact .inl (hanswered rfl)
  | hears state signal moment hsize hanswer hrest ih =>
    right
    obtain ⟨number, rfl⟩ | ⟨execution, hmem, hstatus⟩ := ih hrunning
    · generalize (Retry.machine settings moment state signal).request = request at hanswer
      cases hanswer with
      | run _ index => exact ⟨⟨index, .running⟩, List.mem_cons_self, rfl⟩
    · refine ⟨execution, ?_, hstatus⟩
      rw [List.filterMap_cons]
      split
      · exact hmem
      · exact List.mem_cons_of_mem _ hmem

/-- What can be seen of both nodes, and of all that is below them. -/
structure SameTick (tick copy : Tick) : Prop where
  /-- The answers are the same. -/
  status_eq : tick.status = copy.status
  /-- The executions of the child are the same. -/
  executions_eq : tick.executions = copy.executions
  /-- The sleeps are the same. -/
  sleeps_eq : tick.sleeps = copy.sleeps
  /-- The journals are the same below the root. -/
  below_eq : tick.journal.filterMap Entry.below? = copy.journal.filterMap Entry.below?

/-- What happens to the children is seen below the nodes. -/
theorem deeds_below (journal : Journal) :
    deeds (journal.filterMap Entry.below?) = deeds journal := by
  rw [deeds, deeds, List.filterMap_filterMap]
  refine List.filterMap_congr fun entry _ => ?_
  obtain ⟨time, path, content⟩ := entry
  cases path <;> rfl

/-- The mark of a sleep says nothing about how long it is. -/
theorem filterMap_sleep_unmarked (requests : List Request) :
    (requests.map unmarked).filterMap Request.sleep? = requests.filterMap Request.sleep? := by
  rw [List.filterMap_map]
  refine List.filterMap_congr fun request _ => ?_
  cases request <;> rfl

section Histories

variable {stage : Stage (retryNode count delay name child)}
  {copy : Stage (persistNode count delay other child)}

/-- Both nodes show the same in a tick. -/
theorem SameStage.sameTick (hsame : SameStage count delay stage copy)
    {acts : List (Act (retryNode count delay name child))} {status : Status}
    (hanswers : stage.Answers acts status) :
    SameTick (stage.tick acts status) (copy.tick (acts.map carryAct) status) := by
  obtain ⟨hasks, hjournal, -⟩ := hsame.tick hanswers
  refine ⟨rfl, ?_, ?_, hjournal⟩
  · rw [Tick.executions, Tick.executions, Tick.deeds, Tick.deeds, ← deeds_below,
      ← deeds_below (copy.tick _ status).journal]
    exact congrArg (fun journal => (deeds journal).filterMap Deed.execution?) hjournal
  · rw [Tick.sleeps, Tick.sleeps, ← filterMap_sleep_unmarked,
      ← filterMap_sleep_unmarked (copy.tick _ status).requests]
    exact congrArg (List.filterMap Request.sleep?) hasks

/-- A tick that ends running has executed a running child. -/
theorem exists_running_of_answers (hidle : stage.run = none)
    {acts : List (Act (retryNode count delay name child))}
    (hanswers : stage.Answers acts .running) :
    ∃ execution ∈ (stage.tick acts .running).executions, execution.status = .running := by
  obtain ⟨exchanges, htalks, -, hdeeds⟩ := hanswers.talks (Retry.isPlain_machine _) hidle
  rw [Tick.executions_of_talk hdeeds]
  obtain ⟨number, hstarted⟩ | hrunning := exists_running_of_talks htalks rfl
  · cases hstarted
  · exact hrunning

/-- Both nodes have the same histories, and do the same in every tick. -/
theorem SameStage.episodes (hsame : SameStage count delay stage copy) (hidle : stage.run = none)
    (episodes : List (Episode (retryNode count delay name child)))
    (hended : ∀ tick ∈ stage.ticks episodes, ∀ execution ∈ tick.executions,
      execution.status ≠ .running) :
    (stage.Lives episodes ↔ copy.Lives (episodes.map carryEpisode)) ∧
      (stage.Lives episodes →
        List.Forall₂ SameTick (stage.ticks episodes) (copy.ticks (episodes.map carryEpisode))) := by
  induction episodes generalizing stage copy with
  | nil => exact ⟨iff_of_true (.nil stage) (.nil copy), fun _ => .nil⟩
  | cons episode episodes ih =>
    rw [List.map_cons]
    cases episode with
    | tick acts status =>
      rw [carryEpisode, Stage.lives_tick_iff, Stage.lives_tick_iff, ← hsame.answers_iff]
      by_cases hanswers : stage.Answers acts status
      · have hnotRunning : status ≠ .running := by
          rintro rfl
          obtain ⟨execution, hmem, hrunning⟩ := exists_running_of_answers hidle hanswers
          exact hended _ List.mem_cons_self execution hmem hrunning
        obtain ⟨hlives, hticks⟩ := ih ((hsame.tick hanswers).2.2 hnotRunning) hanswers.run_eq_none
          fun tick hmem => hended tick (List.mem_cons_of_mem _ hmem)
        exact ⟨and_congr_right fun _ => hlives, fun hboth =>
          .cons (hsame.sameTick hanswers) (hticks hboth.2)⟩
      · exact ⟨iff_of_false (fun hboth => hanswers hboth.1) fun hboth => hanswers hboth.1,
          fun hboth => absurd hboth.1 hanswers⟩
    | between act =>
      rw [carryEpisode, Stage.lives_between_iff, Stage.lives_between_iff, isTurn_carryAct]
      cases hturn : act.isTurn with
      | false =>
        obtain ⟨hlives, hticks⟩ :=
          ih (hsame.between hidle hturn) (Stage.run_act_eq_none hidle hturn) hended
        exact ⟨and_congr_right fun _ => hlives, fun hboth => hticks hboth.2⟩
      | true => exact ⟨iff_of_false nofun nofun, nofun⟩

end Histories

/-- A retry node with a fixed delay and a node that retries until success, with the same limit, the
same delay and the same child, that have never run: if no execution of the child ends running, they
have the same histories, and in every tick they give the same answer, execute the child as often
with the same answers, and sleep equally long. -/
theorem ticks_agree (count : Nat) (delay : Int) (name other : String) (child : Tree κ)
    (binding : Binding) (episodes : List (Episode (retryNode count delay name child)))
    (hended : ∀ tick ∈ (Stage.fresh (retryNode count delay name child) binding).ticks episodes,
      ∀ execution ∈ tick.executions, execution.status ≠ .running) :
    let retry := Stage.fresh (retryNode count delay name child) binding
    let persist := Stage.fresh (persistNode count delay other child) binding
    let copies := episodes.map carryEpisode
    (retry.Lives episodes ↔ persist.Lives copies) ∧
      (retry.Lives episodes →
        List.Forall₂ SameTick (retry.ticks episodes) (persist.ticks copies)) := by
  intro retry persist copies
  have hsame : SameStage count delay retry persist := .mk .idle binding (.fresh binding [child])
  exact hsame.episodes rfl episodes hended

end Nodes

/-- Two attempts, five milliseconds apart, of a child that always fails. -/
abbrev twoAttempts : Tree Empty := retryNode 2 5 "Retry" ⟨"Never", .forceFailure, []⟩

/-- All attempts are made, an abort comes, and all are made again. -/
def madeTwice : List (Episode twoAttempts) :=
  [.tick [.turn {}, .turn { now := 5 }] .failure, .between (.abort 5),
    .tick [.turn { now := 10 }, .turn { now := 15 }] .failure]

/-- Both nodes make two attempts in both ticks, and sleep once in each. -/
theorem ticks_agree_madeTwice :
    let retry := Stage.fresh twoAttempts (.own {})
    let persist := Stage.fresh (persistNode 2 5 "Persist" ⟨"Never", .forceFailure, []⟩) (.own {})
    let copies := madeTwice.map carryEpisode
    retry.Lives madeTwice ∧ persist.Lives copies ∧
      (retry.ticks madeTwice).map Tick.sleeps = [[5], [5]] ∧
      (retry.ticks madeTwice).map Tick.executions =
        [[⟨0, .failure⟩, ⟨0, .failure⟩], [⟨0, .failure⟩, ⟨0, .failure⟩]] ∧
      List.Forall₂ SameTick (retry.ticks madeTwice) (persist.ticks copies) := by
  intro retry persist copies
  have hlives : retry.Lives madeTwice :=
    .tick (.wait {} rfl (.last { now := 5 } rfl)) <| .between rfl <|
      .tick (.wait { now := 10 } rfl (.last { now := 15 } rfl)) <| .nil _
  have hended : ∀ tick ∈ retry.ticks madeTwice, ∀ execution ∈ tick.executions,
      execution.status ≠ .running := by decide +kernel
  obtain ⟨hboth, hticks⟩ := ticks_agree 2 5 "Retry" "Persist" ⟨"Never", .forceFailure, []⟩ (.own {})
    madeTwice hended
  exact ⟨hlives, hboth.mp hlives, by decide +kernel, by decide +kernel, hticks hlives⟩

end BehaviorTree.TwoRetries
