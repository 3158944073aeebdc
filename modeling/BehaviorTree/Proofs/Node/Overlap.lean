import BehaviorTree.Proofs.Tree.Turn

/-!
# Overlapping executions of a node

A time limit leaves the execution of its child to itself, so that several executions of one node
may be under way at once. They share its state. Each of them moves when it begins and whenever its
last request is answered, and aborts and resets come in between. Whatever the order of all that, the
state stays in its range (`Shared.state_inRange`). The turns that the engine gives to a node
consist of such steps (`Shared.Reached.turn`).
-/

namespace BehaviorTree

variable {κ : Type} [Application κ] {kind : Kind κ} {size : Nat}

/-! ## Interleavings -/

/-- How a node with states of this type answers signals. -/
abbrev Machine (σ : Type) := Moment → σ → Signal → Move σ

/-- The signals that can answer a request. -/
inductive Request.AnsweredBy : Request → Signal → Prop
  | run (mark child : Nat) (status : Status) : AnsweredBy (.run mark child) (.answered mark status)
  | runAll (statuses : List Status) : AnsweredBy .runAll (.gathered statuses)
  | sleep (mark duration : Nat) : AnsweredBy (.sleep mark duration) (.woken mark)
  | joined (child limit : Nat) (status : Option Status) :
    AnsweredBy (.race child limit) (.joined status)
  | expired (child limit : Nat) : AnsweredBy (.race child limit) .expired
  | resetChild (child : Nat) : AnsweredBy (.resetChild child) .childReset
  | abortChild (child : Nat) : AnsweredBy (.abortChild child) .childAborted

/-- Whether a request is the last one of an execution. -/
def Request.isLast : Request → Bool
  | .finish _ | .crash => true
  | .run .. | .runAll | .sleep .. | .race .. | .resetChild _ | .abortChild _ => false

/-- A node that several executions share: its state, and the requests that wait to be answered,
one for each execution that is under way. -/
structure Shared (kind : Kind κ) where
  /-- The state that all executions see. -/
  state : kind.State
  /-- The requests that wait, one for each execution under way. -/
  waiting : List Request

namespace Shared

/-- A node that has never moved. -/
def fresh (kind : Kind κ) : Shared kind := ⟨kind.initial, []⟩

/-- The node after a move of one execution, while the others wait. -/
def moved (move : Move kind.State) (others : List Request) : Shared kind :=
  ⟨move.state, if move.request.isLast then others else move.request :: others⟩

/-- What can happen between two moments at which every execution waits. -/
inductive Step (size : Nat) : Shared kind → Shared kind → Prop
  | begin (node : Shared kind) (moment : Moment) (hsize : moment.size = size) :
    Step size node (moved (kind.respond moment node.state .started) node.waiting)
  | reply (state : kind.State) {before after : List Request} {request : Request} {signal : Signal}
      (moment : Moment) (hsize : moment.size = size) (hanswer : request.AnsweredBy signal) :
    Step size ⟨state, before ++ request :: after⟩
      (moved (kind.respond moment state signal) (before ++ after))
  | abort (node : Shared kind) : Step size node { node with state := kind.aborted node.state }
  | reset (node : Shared kind) : Step size node { node with state := kind.restored node.state }

/-- What the interleavings of any executions, aborts and resets lead to. -/
inductive Reached (size : Nat) : Shared kind → Prop
  | fresh : Reached size (fresh kind)
  | step {node next : Shared kind} (hreached : Reached size node) (hstep : Step size node next) :
    Reached size next

end Shared

/-! ## Ranges -/

/-- A cursor is zero or the position of a child. -/
def Chain.InRange (size cursor : Nat) : Prop := cursor = 0 ∨ cursor < size

/-- The iterations stay below the count, and without a positive count none is counted. -/
def Repeat.InRange (settings : RepeatSettings) (done : Nat) : Prop :=
  if 0 < settings.count then done < settings.count else done = 0

/-- The attempts stay within a limited budget. -/
def Persist.InRange (settings : PersistSettings) (count : Nat) : Prop :=
  0 ≤ settings.attempts → count ≤ settings.attempts

/-- What a chain with so many children asks for. Marks are positions of children. -/
def Chain.Asks (size : Nat) : Request → Prop
  | .run mark _ => mark < size
  | _ => True

/-- What a chain with so many children can hear. -/
def Chain.CanHear (size : Nat) : Signal → Prop
  | .answered mark _ => mark < size
  | _ => True

namespace Kind

/-- The range of the state of a node with so many children. -/
def InRange (size : Nat) : (kind : Kind κ) → kind.State → Prop
  | sequence, cursor => Chain.InRange size cursor
  | selector, cursor => Chain.InRange size cursor
  | repeating settings, done => Repeat.InRange settings done
  | retryUntilSuccess settings, count => Persist.InRange settings count
  | _, _ => True

/-- What a node with so many children asks for, as far as its range depends on it. -/
def Asks (size : Nat) (kind : Kind κ) (request : Request) : Prop :=
  match kind with
  | sequence | selector => Chain.Asks size request
  | _ => True

/-- What a node with so many children can hear, as far as its range depends on it. -/
def CanHear (size : Nat) (kind : Kind κ) (signal : Signal) : Prop :=
  match kind with
  | sequence | selector => Chain.CanHear size signal
  | _ => True

end Kind

omit [Application κ] in
/-- Whatever answers a request that is in order can be heard. -/
theorem Kind.Asks.canHear {request : Request} {signal : Signal} (hasks : kind.Asks size request)
    (hanswer : request.AnsweredBy signal) : kind.CanHear size signal := by
  cases kind with
  | sequence | selector =>
    cases hanswer with
    | run mark child status => exact hasks
    | _ => trivial
  | _ => trivial

namespace Chain

variable {passed : Status} {cursor : Nat}

/-- Zero is in the range of every cursor. -/
theorem inRange_zero (size : Nat) : InRange size 0 := .inl rfl

/-- Going on with a child leaves the cursor in its range and asks for a child that there is. -/
theorem orderly_proceed (hrange : InRange size cursor) (position : Nat) :
    let move := proceed passed size cursor position
    InRange size move.state ∧ Asks size move.request := by
  unfold proceed
  split
  · next hlt => exact ⟨hrange, hlt⟩
  · exact ⟨inRange_zero size, trivial⟩

/-- Every move of a chain leaves the cursor in its range and asks for something in order. -/
theorem orderly_respond {moment : Moment} (hrange : InRange moment.size cursor) {signal : Signal}
    (hsignal : CanHear moment.size signal) :
    let move := respond passed moment cursor signal
    InRange moment.size move.state ∧ Asks moment.size move.request := by
  cases signal with
  | started => exact orderly_proceed hrange cursor
  | answered mark status =>
    cases status with
    | running => exact ⟨.inr hsignal, trivial⟩
    | success | failure =>
      rw [respond]
      · split
        · exact orderly_proceed hrange (mark + 1)
        · exact ⟨inRange_zero _, trivial⟩
      · exact nofun
  | _ => exact ⟨inRange_zero _, trivial⟩

end Chain

namespace Repeat

/-- Every move of a repeat node leaves its count in its range. -/
theorem inRange_respond (settings : RepeatSettings) (moment : Moment) {done : Nat}
    (hrange : InRange settings done) (signal : Signal) :
    InRange settings (respond settings moment done signal).state := by
  have hzero : InRange settings 0 := by
    unfold InRange
    split
    · next hpositive => exact hpositive
    · rfl
  cases signal with
  | started =>
    rw [respond]
    split
    · exact hrange
    · split <;> exact hrange
  | answered mark status =>
    cases status with
    | running => exact hrange
    | success | failure =>
      rw [respond]
      · split
        · exact hzero
        · exact hrange
      · exact nofun
  | childReset =>
    rw [respond]
    split
    · exact hrange
    · split
      · exact hzero
      · -- one more iteration is counted only while it stays below the count
        next hnonneg hmore =>
        have hpositive : 0 < settings.count := by omega
        have hlt : ((done + 1 : Nat) : Int) < settings.count := by omega
        change InRange settings (done + 1)
        rw [InRange, if_pos hpositive]
        exact hlt
  | _ => exact hrange

end Repeat

namespace Persist

/-- A count of zero is in its range. -/
theorem inRange_zero (settings : PersistSettings) : InRange settings 0 := fun hlimited => hlimited

/-- An attempt, made or given up, leaves the count in its range. -/
theorem inRange_attempt (settings : PersistSettings) (name : String) {count : Nat} :
    InRange settings (attempt settings name count).state := by
  unfold attempt
  split
  · next hleft =>
    -- the check and the count are one move, so nothing comes between them
    intro hlimited
    simp only [hasLeft, Bool.or_eq_true, decide_eq_true_eq] at hleft
    have hlt : (count : Int) < settings.attempts := by omega
    exact hlt
  · exact inRange_zero settings

/-- Every move of a node that retries until success leaves its count in its range. -/
theorem inRange_respond (settings : PersistSettings) (moment : Moment) {count : Nat}
    (hrange : InRange settings count) (signal : Signal) :
    InRange settings (respond settings moment count signal).state := by
  cases signal with
  | started =>
    rw [respond]
    split
    · exact hrange
    · exact inRange_attempt settings _
  | answered mark status =>
    cases status with
    | running => exact hrange
    | success => exact inRange_zero settings
    | failure =>
      rw [respond]
      split
      · exact hrange
      · exact inRange_zero settings
  | woken mark => exact inRange_attempt settings _
  | _ => exact hrange

end Persist

namespace Kind

/-- A node that has never moved is in its range. -/
theorem inRange_initial (kind : Kind κ) : kind.InRange size kind.initial := by
  cases kind with
  | sequence | selector => exact .inl rfl
  | repeating settings =>
    change Repeat.InRange settings 0
    unfold Repeat.InRange
    split
    · next hpositive => exact hpositive
    · rfl
  | retryUntilSuccess settings => exact Persist.inRange_zero settings
  | _ => trivial

/-- An abort leaves the state in its range. -/
theorem inRange_aborted {state : kind.State} (hrange : kind.InRange size state) :
    kind.InRange size (kind.aborted state) := by
  cases kind with
  | sequence | selector => exact hrange
  | repeating settings => exact inRange_initial (.repeating settings : Kind κ)
  | retryUntilSuccess settings => exact Persist.inRange_zero settings
  | _ => trivial

/-- A reset leaves the state in its range. -/
theorem inRange_restored (kind : Kind κ) (state : kind.State) :
    kind.InRange size (kind.restored state) := by
  cases kind with
  | custom node => trivial
  | _ => exact inRange_initial _

/-- Every move leaves the state in its range and asks for something in order. -/
theorem orderly_respond {moment : Moment} {state : kind.State}
    (hrange : kind.InRange moment.size state) {signal : Signal}
    (hsignal : kind.CanHear moment.size signal) :
    let move := kind.respond moment state signal
    kind.InRange moment.size move.state ∧ kind.Asks moment.size move.request := by
  cases kind with
  | sequence => exact Chain.orderly_respond hrange hsignal
  | selector => exact Chain.orderly_respond hrange hsignal
  | repeating settings => exact ⟨Repeat.inRange_respond settings moment hrange signal, trivial⟩
  | retryUntilSuccess settings =>
    exact ⟨Persist.inRange_respond settings moment hrange signal, trivial⟩
  | _ => exact ⟨trivial, trivial⟩

end Kind

/-! ## Every interleaving -/

namespace Shared

variable {node next : Shared kind}

/-- The state is in its range, and every request that waits is in order. -/
structure IsOrderly (size : Nat) (node : Shared kind) : Prop where
  /-- The state is in its range. -/
  inRange : kind.InRange size node.state
  /-- Every waiting request is one that the node makes. -/
  asks : ∀ request ∈ node.waiting, kind.Asks size request

/-- A node that has never moved is in order. -/
theorem isOrderly_fresh (kind : Kind κ) (size : Nat) : (fresh kind).IsOrderly size where
  inRange := kind.inRange_initial
  asks := fun _ hmem => absurd hmem List.not_mem_nil

/-- A move in order leaves the node in order, if the requests of the other executions are. -/
theorem isOrderly_moved {move : Move kind.State} {others : List Request}
    (hmove : kind.InRange size move.state ∧ kind.Asks size move.request)
    (hothers : ∀ request ∈ others, kind.Asks size request) :
    (moved move others).IsOrderly size where
  inRange := hmove.1
  asks := by
    intro request hmem
    unfold moved at hmem
    split at hmem
    · exact hothers request hmem
    · obtain rfl | hmem := List.mem_cons.mp hmem
      · exact hmove.2
      · exact hothers request hmem

/-- Each step leaves a node in order. -/
theorem Step.isOrderly (hstep : Step size node next) (hnode : node.IsOrderly size) :
    next.IsOrderly size := by
  cases hstep with
  | begin _ moment hsize =>
    subst hsize
    have hhears : kind.CanHear moment.size .started := by cases kind <;> trivial
    exact isOrderly_moved (Kind.orderly_respond hnode.inRange hhears) hnode.asks
  | @reply state before after request signal moment hsize hanswer =>
    subst hsize
    have hasks : kind.Asks moment.size request := hnode.asks request (by simp)
    have hothers : ∀ other ∈ before ++ after, kind.Asks moment.size other := by
      intro other hmem
      apply hnode.asks other
      simp only [List.mem_append, List.mem_cons] at hmem ⊢
      exact hmem.imp_right .inr
    exact isOrderly_moved (Kind.orderly_respond hnode.inRange (hasks.canHear hanswer)) hothers
  | abort => exact ⟨Kind.inRange_aborted hnode.inRange, hnode.asks⟩
  | reset => exact ⟨Kind.inRange_restored kind node.state, hnode.asks⟩

/-- Every interleaving leaves a node in order. -/
theorem Reached.isOrderly (hreached : Reached size node) : node.IsOrderly size := by
  induction hreached with
  | fresh => exact isOrderly_fresh kind size
  | step hreached hstep ih => exact hstep.isOrderly ih

/-- Whatever executions, aborts and resets of one node overlap, and whatever its children answer,
its state is in its range whenever every execution waits, has ended or has not begun. -/
theorem state_inRange (hreached : Reached size node) : kind.InRange size node.state :=
  hreached.isOrderly.inRange

/-- A node with a budget of one attempt, while an execution runs the child. -/
def attempting (count : Nat) : Shared (.retryUntilSuccess ⟨1, 0⟩ : Kind Empty) :=
  ⟨count, [.run 1 0]⟩

/-- The first execution makes the only attempt. A second one gives up and puts the count back. -/
theorem state_inRange_attempting :
    (attempting 0).Reached 1 ∧ Kind.InRange 1 _ (attempting 0).state := by
  have hfirst : (attempting 1).Reached 1 := .step .fresh (.begin _ ⟨"", 1, 0, {}⟩ rfl)
  have hreached : (attempting 0).Reached 1 := .step hfirst (.begin _ ⟨"", 1, 0, {}⟩ rfl)
  exact ⟨hreached, state_inRange hreached⟩

end Shared

/-! ## The turns of the engine -/

/-- Whether a suspended execution waits for a request to be answered. -/
inductive Run.WaitsFor : Run → Request → Prop
  | child (mark index : Nat) (run : Run) : WaitsFor (.child mark index run) (.run mark index)
  | sleep (mark duration : Nat) (timer : Timer) :
    WaitsFor (.paused (.sleep mark timer)) (.sleep mark duration)
  | race (task child limit : Nat) (timer : Timer) :
    WaitsFor (.paused (.race task timer)) (.race child limit)
  | together (slots : List (Slot Run)) : WaitsFor (.together slots) .runAll
  | crowd (id : Nat) (slots : List (Slot Run)) (called : List Nat) :
    WaitsFor (.crowd id slots called) .runAll

/-- A call does not change what a suspended execution waits for. -/
theorem Run.WaitsFor.notify {run : Run} {request : Request} (hwaits : run.WaitsFor request)
    (call : Call) : (run.notify call).WaitsFor request := by
  cases hwaits with
  | child mark index run =>
    rw [Run.notify]
    exact .child mark index _
  | sleep mark duration timer => exact .sleep mark duration timer
  | race task child limit timer => exact .race task child limit timer
  | together slots =>
    rw [Run.notify]
    exact .together _
  | crowd id slots called =>
    rw [Run.notify]
    exact .crowd id _ _

/-- What can follow while a request is served: an answer, a wait, or a fault of a child. -/
def Request.Brings (request : Request) : Reply → Prop
  | .signal signal => request.AnsweredBy signal
  | .stop (.waiting held) => held.WaitsFor request
  | .stop (.failed _) => True
  | .stop (.answered _) => False

/-- An outcome of the child brings its status, a wait for it or its fault. -/
theorem brings_replyOfChild (mark index : Nat) (outcome : Outcome) :
    (Request.run mark index).Brings (replyOfChild mark index outcome) := by
  cases outcome with
  | answered status => exact .run mark index status
  | waiting run => exact .child mark index run
  | failed fault => trivial

/-- A look at a few children brings all their statuses, a wait for them or a fault. -/
theorem brings_replyOfAll (slots : Except Fault (List (Slot Run))) :
    Request.runAll.Brings (replyOfAll slots) := by
  cases slots with
  | error fault => trivial
  | ok slots =>
    rw [replyOfAll]
    split
    · exact .runAll _
    · exact .together slots

/-- A look at a crowd brings all statuses, a wait for the crowd or a fault. -/
theorem brings_replyOfTour (tour : Except Fault Tour) :
    Request.runAll.Brings (replyOfTour tour) := by
  cases tour with
  | error fault => trivial
  | ok tour =>
    rw [replyOfTour]
    split
    · exact .runAll _
    · exact .crowd tour.crowd tour.slots tour.called

/-- A look at a race brings its end or a wait for it. -/
theorem brings_attend_race {μ : Type} (child limit task : Nat) (timer : Timer) (below : μ)
    (world : World) :
    (Request.race child limit).Brings (attend (.race task timer) below world).result := by
  rw [attend]
  split
  · exact .race task child limit timer
  · split
    · exact .expired child limit
    · dsimp only
      split
      · next status hstatus => exact .joined child limit status
      · rw [World.startTimer]
        split
        · exact .race task child limit timer
        · exact .race task child limit _

/-- A look at a sleep brings its end or a wait for it. -/
theorem brings_attend_sleep {μ : Type} (mark duration : Nat) (timer : Timer) (below : μ)
    (world : World) :
    (Request.sleep mark duration).Brings (attend (.sleep mark timer) below world).result := by
  obtain ⟨-, hattend⟩ | ⟨timer', _, -, hattend⟩ := attend_sleep mark timer below world
  · rw [hattend]
    exact .sleep mark duration
  · rw [hattend]
    exact .sleep mark duration timer'

namespace Crew

variable {μ : Type} (crew : Crew μ)

/-- Serving a request brings an answer to it, a wait for it or a fault. -/
theorem brings_serve (size : Nat) {request : Request} (hmore : request.isLast = false) (below : μ)
    (world : World) : request.Brings (crew.serve size request below world).result := by
  cases request with
  | finish status => cases hmore
  | crash => cases hmore
  | run mark index => exact brings_replyOfChild mark index _
  | runAll =>
    rw [serve, beginAll]
    split
    · exact brings_replyOfAll _
    · exact brings_replyOfTour _
  | sleep mark duration => exact brings_attend_sleep mark duration _ below world
  | race child limit => exact brings_attend_race child limit _ _ below _
  | resetChild child => exact .resetChild child
  | abortChild child => exact .abortChild child

/-- Looking at a suspended execution again brings an answer to its request, a wait for it or a
fault. -/
theorem brings_recheck {run : Run} {request : Request} (hwaits : run.WaitsFor request) (below : μ)
    (world : World) : request.Brings (crew.recheck run below world).result := by
  cases hwaits with
  | child mark index run => exact brings_replyOfChild mark index _
  | sleep mark duration timer => exact brings_attend_sleep mark duration timer below world
  | race task child limit timer => exact brings_attend_race child limit task timer below world
  | together slots => exact brings_replyOfAll _
  | crowd id slots called => exact brings_replyOfTour _

end Crew

namespace Shared

variable {state : kind.State} {others : List Request}

/-- Whether a suspended execution has its request among those that wait, beside the others. -/
def Holds (run : Run) (waiting others : List Request) : Prop :=
  ∃ before request after, run.WaitsFor request ∧ waiting = before ++ request :: after ∧
    others = before ++ after

/-- What the node has reached when one of its executions is to go on with a reply. -/
def Due (size : Nat) (kind : Kind κ) (state : kind.State) (others : List Request)
    (reply : Reply) : Prop :=
  ∃ waiting, Reached size (⟨state, waiting⟩ : Shared kind) ∧ others.Sublist waiting ∧
    match reply with
    | .signal signal => ∀ moment : Moment, moment.size = size →
      Step size ⟨state, waiting⟩ (moved (kind.respond moment state signal) others)
    | .stop outcome => ∀ run, outcome = .waiting run → Holds run waiting others

/-- A new execution of a node that has been reached may begin. -/
theorem due_started (hreached : Reached size (⟨state, others⟩ : Shared kind)) :
    Due size kind state others (.signal .started) :=
  ⟨others, hreached, List.Sublist.refl others, fun moment hsize => .begin _ moment hsize⟩

/-- What a request brings lets the execution that made it go on. -/
theorem due_of_brings {before after : List Request} {request : Request} {reply : Reply}
    (hreached : Reached size (⟨state, before ++ request :: after⟩ : Shared kind))
    (hbrings : request.Brings reply) : Due size kind state (before ++ after) reply := by
  have hsublist : (before ++ after).Sublist (before ++ request :: after) :=
    (List.sublist_cons_self request after).append_left before
  refine ⟨before ++ request :: after, hreached, hsublist, ?_⟩
  cases reply with
  | signal signal => exact fun moment hsize => .reply state moment hsize hbrings
  | stop outcome =>
    rintro run rfl
    exact ⟨before, request, after, hbrings, rfl, rfl⟩

/-- The reply to the request of a move is one that the node is due. -/
theorem due_serve {μ : Type} (crew : Crew μ) {move : Move kind.State}
    (hreached : Reached size (moved move others)) (below : μ) (world : World) :
    Due size kind move.state others (crew.serve size move.request below world).result := by
  cases hlast : move.request.isLast with
  | false =>
    have hwaiting : Reached size (⟨move.state, [] ++ move.request :: others⟩ : Shared kind) := by
      rw [moved, hlast] at hreached
      exact hreached
    exact due_of_brings hwaiting (crew.brings_serve size hlast below world)
  | true =>
    have hended : Reached size (⟨move.state, others⟩ : Shared kind) := by
      rw [moved, hlast] at hreached
      exact hreached
    refine ⟨others, hended, List.Sublist.refl others, ?_⟩
    generalize move.request = request at hlast
    cases request with
    | finish status => exact nofun
    | crash => exact nofun
    | _ => cases hlast

/-- A node that is driven goes through steps of the interleaving until it stops. -/
theorem due_drive {μ : Type} (crew : Crew μ) (name : String) (fuel : Nat) {reply : Reply}
    {cell : Cell kind.State} (hdue : Due size kind cell.state others reply) (below : μ)
    (world : World) :
    let driven := crew.drive name kind size fuel reply cell below world
    Due size kind driven.memory.1.state others (.stop driven.result) := by
  induction fuel generalizing reply cell below world with
  | zero =>
    cases reply with
    | stop outcome => exact hdue
    | signal signal =>
      obtain ⟨waiting, hreached, hothers, -⟩ := hdue
      exact ⟨waiting, hreached, hothers, nofun⟩
  | succ fuel ih =>
    cases reply with
    | stop outcome => exact hdue
    | signal signal =>
      obtain ⟨waiting, hreached, -, hstep⟩ := hdue
      have hmoved := hreached.step (hstep ⟨name, size, world.now, world.context cell.binding⟩ rfl)
      dsimp only
      rw [Crew.drive_signal]
      exact ih (due_serve crew hmoved _ _) _ _

/-- A turn of the node in a tree, whether it begins an execution or takes one up, consists of steps
of this interleaving, and what the execution then waits for is a request among those that wait. -/
theorem Reached.turn {name : String} {children : List (Tree κ)} {run : Option Run}
    {cell : Cell kind.State} {waiting : List Request}
    (hreached : Reached children.length (⟨cell.state, waiting⟩ : Shared kind))
    (hrun : match run with
      | none => waiting = others
      | some run => Holds run waiting others)
    (below : Memories children) (world : World) :
    let turn := turnOf name kind children run cell below world
    ∃ waiting, Reached children.length (⟨turn.memory.1.state, waiting⟩ : Shared kind) ∧
      others.Sublist waiting ∧ ∀ run, turn.result = .waiting run → Holds run waiting others := by
  cases run with
  | none =>
    subst hrun
    exact due_drive (crewOf children) name _ (due_started hreached) below world
  | some run =>
    obtain ⟨before, request, after, hwaits, rfl, rfl⟩ := hrun
    have hbrings := (crewOf children).brings_recheck hwaits below world
    exact due_drive (crewOf children) name _ (due_of_brings hreached hbrings) _ _

end Shared

end BehaviorTree
