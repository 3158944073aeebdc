import BehaviorTree.Proofs.Tree.ChildrenInvariant

/-!
# What a journal tells of the shared contexts

Nodes change the shared contexts while they run, and the journal tells of it. An account is a
relation between the contexts before a stretch of execution, the journal of it, and the contexts
afterwards. If it is right about every operation on a child, and the node itself writes nothing,
then it is right about whole turns of the node (`Crew.Accounts.turn`).
-/

namespace BehaviorTree

variable {κ : Type} [Application κ] {ρ τ μ : Type}

/-- A relation between shared contexts, a journal, and the shared contexts afterwards. -/
structure Account where
  /-- What a journal tells of the shared contexts before and after it. -/
  tells : List Context → Journal → List Context → Prop
  /-- An empty journal tells that nothing has changed. -/
  still : ∀ contexts, tells contexts [] contexts
  /-- Journals that follow each other tell of both changes. -/
  append : ∀ {before first between rest after}, tells before first between →
    tells between rest after → tells before (first ++ rest) after
  /-- Notices tell that nothing has changed. -/
  notices : ∀ contexts now (notices : List Notice),
    tells contexts (notices.map (noticeAt now)) contexts

namespace Account

/-- A stretch of execution that begins in a world leaves the memory in order, and its journal tells
of the contexts. -/
structure Covers (account : Account) (holds : μ → Prop) (world : World) (progress : Progress ρ μ) :
    Prop where
  /-- The memory is in order. -/
  holds : holds progress.memory
  /-- The journal tells how the contexts have come to be what they are. -/
  tells : account.tells world.contexts progress.journal progress.world.contexts

variable {account : Account} {holds : μ → Prop} {world : World}

namespace Covers

/-- Nothing but the world's numbers changes. -/
theorem still {progress : Progress ρ μ} (hholds : holds progress.memory)
    (hjournal : progress.journal = []) (hcontexts : progress.world.contexts = world.contexts) :
    account.Covers holds world progress := by
  refine ⟨hholds, ?_⟩
  rw [hjournal, hcontexts]
  exact account.still _

/-- A map of results leaves the account right. -/
theorem map {progress : Progress ρ μ} (hcovers : account.Covers holds world progress)
    (result : ρ → τ) : account.Covers holds world (progress.map result id) :=
  ⟨hcovers.holds, hcovers.tells⟩

/-- Two stretches of execution, one after the other, are covered if each of them is. -/
theorem andThen {progress : Progress ρ μ} {next : ρ → μ → World → Progress τ μ}
    (hcovers : account.Covers holds world progress)
    (hnext : account.Covers holds progress.world
      (next progress.result progress.memory progress.world)) :
    account.Covers holds world (progress.andThen next) :=
  ⟨hnext.holds, account.append hcovers.tells hnext.tells⟩

end Covers

/-- Looking at a pause writes nothing. -/
theorem covers_attend (pause : Pause) {below : μ} (hholds : holds below) :
    account.Covers holds world (attend pause below world) := by
  refine ⟨?_, ?_⟩
  · unfold attend
    split
    · exact hholds
    · split
      · exact hholds
      · dsimp only
        split <;> exact hholds
  · have hcontexts : (attend pause below world).world.contexts = world.contexts := by
      unfold attend
      split
      · rfl
      · split
        · rfl
        · dsimp only
          split
          · rfl
          · exact World.contexts_startTimer world pause
    rw [journal_attend, hcontexts]
    exact account.still _

end Account

/-- What follows from looking after children or a pause: no beginning, and no answer. -/
def Reply.GoesOn : Reply → Prop
  | .signal next => next ≠ .started
  | .stop (.answered _) => False
  | .stop _ => True

/-- What goes on does not start anew. -/
theorem Reply.GoesOn.ne_started {reply : Reply} (hgoesOn : reply.GoesOn) :
    reply ≠ .signal .started := by
  intro hstarted
  subst hstarted
  exact hgoesOn rfl

/-- What follows from looking after one child goes on. -/
theorem goesOn_replyOfChild (mark index : Nat) (outcome : Outcome) :
    (replyOfChild mark index outcome).GoesOn := by
  cases outcome with
  | answered status =>
    intro hstarted
    cases hstarted
  | waiting run => trivial
  | failed fault => trivial

/-- What follows from looking after all children goes on. -/
theorem goesOn_replyOfAll (result : Except Fault (List (Slot Run))) :
    (replyOfAll result).GoesOn := by
  cases result with
  | error fault => trivial
  | ok slots =>
    rw [replyOfAll]
    split
    · intro hstarted
      cases hstarted
    · trivial

/-- What follows from a tour goes on. -/
theorem goesOn_replyOfTour (result : Except Fault Tour) : (replyOfTour result).GoesOn := by
  cases result with
  | error fault => trivial
  | ok tour =>
    rw [replyOfTour]
    split
    · intro hstarted
      cases hstarted
    · trivial

/-- What follows from attending to a pause goes on. -/
theorem goesOn_attend (pause : Pause) (below : μ) (world : World) :
    (attend pause below world).result.GoesOn := by
  unfold attend
  split
  · trivial
  · split
    · intro hstarted
      cases pause <;> cases hstarted
    · dsimp only
      split
      · intro hstarted
        cases hstarted
      · trivial

namespace Crew

variable {crew : Crew μ} {account : Account} {holds : μ → Prop} {below : μ} {world : World}

/-- What follows from taking up a suspended execution goes on. -/
theorem goesOn_recheck (crew : Crew μ) (run : Run) (below : μ) (world : World) :
    (crew.recheck run below world).result.GoesOn := by
  cases run with
  | child mark index run => exact goesOn_replyOfChild mark index _
  | paused pause => exact goesOn_attend pause below world
  | together slots => exact goesOn_replyOfAll _
  | crowd id slots called => exact goesOn_replyOfTour _

/-- A request never makes an execution begin anew. -/
theorem serve_ne_started (crew : Crew μ) (size : Nat) (request : Request) (below : μ)
    (world : World) : (crew.serve size request below world).result ≠ .signal .started := by
  cases request with
  | finish status =>
    intro hstarted
    cases hstarted
  | crash =>
    intro hstarted
    cases hstarted
  | run mark index => exact (goesOn_replyOfChild mark index _).ne_started
  | runAll =>
    rw [serve, beginAll]
    split
    · exact (goesOn_replyOfAll _).ne_started
    · exact (goesOn_replyOfTour _).ne_started
  | sleep mark duration => exact (goesOn_attend _ below world).ne_started
  | race index limit => exact (goesOn_attend _ below _).ne_started
  | resetChild index =>
    intro hstarted
    cases hstarted
  | abortChild index =>
    intro hstarted
    cases hstarted

/-- The account is right about every operation on a child, seen from the parent, and all children
together are advanced one after the other. -/
structure Accounts (crew : Crew μ) (account : Account) (holds : μ → Prop) : Prop where
  /-- An execution of a child is covered, with its journal as the parent sees it. -/
  advance : ∀ index run below world, holds below →
    account.Covers holds world ((crew.advance index run below world).under index)
  /-- The children are advanced one after the other. -/
  sideBySide : ∃ count, crew.advanceAll = advanceEach crew.advance count 0
  /-- An abort leaves the memory in order, and its journal tells that nothing has changed. -/
  abort : ∀ now index below contexts, holds below → holds (crew.abort now index below).1 ∧
    account.tells contexts ((crew.abort now index below).2.map (·.under index)) contexts
  /-- A reset leaves the memory in order, and its journal tells that nothing has changed. -/
  reset : ∀ now index below contexts, holds below → holds (crew.reset now index below).1 ∧
    account.tells contexts ((crew.reset now index below).2.map (·.under index)) contexts

namespace Accounts

open Account

/-- The account is right about turns for each of several children. -/
theorem advanceEach (hcrew : crew.Accounts account holds) (count start : Nat)
    (slots : List (Slot Run)) (hholds : holds below) :
    account.Covers holds world
      (BehaviorTree.advanceEach crew.advance count start slots below world) := by
  induction count generalizing start slots below world with
  | zero => exact .still hholds rfl rfl
  | succ count ih =>
    cases slots with
    | nil => exact .still hholds rfl rfl
    | cons slot slots =>
      rw [BehaviorTree.advanceEach]
      split
      · exact (ih (start + 1) slots hholds).map _
      · have hchild := hcrew.advance start slot.run? below world hholds
        refine hchild.andThen ?_
        split
        · exact .still hchild.holds rfl rfl
        · exact (ih (start + 1) slots hchild.holds).map _

/-- The account is right about a turn for all children. -/
theorem advanceAll (hcrew : crew.Accounts account holds) (slots : List (Slot Run))
    (hholds : holds below) : account.Covers holds world (crew.advanceAll slots below world) := by
  obtain ⟨count, heach⟩ := hcrew.sideBySide
  rw [heach]
  exact hcrew.advanceEach count 0 slots hholds

/-- The account is right about a tour of the called children. -/
theorem advanceCalled (hcrew : crew.Accounts account holds) (fuel : Nat) (tour : Tour)
    (hholds : holds below) :
    account.Covers holds world (crew.advanceCalled fuel tour below world) := by
  induction fuel generalizing tour below world with
  | zero => exact .still hholds rfl rfl
  | succ fuel ih =>
    rw [Crew.advanceCalled]
    split
    · exact .still hholds rfl rfl
    · next index called hcalled =>
      dsimp only
      split
      · exact ih _ hholds
      · have hmember : account.Covers holds world
            ((crew.advanceMember { tour with called } index below world).under index) := by
          have hchild := hcrew.advance index (Tour.run? { tour with called } index) below
            (world.handTo (.member tour.crowd index)) hholds
          exact ⟨hchild.holds, hchild.tells⟩
        refine hmember.andThen ?_
        split
        · exact .still hmember.holds rfl rfl
        · exact ih _ hmember.holds
        · split
          · exact .still hmember.holds rfl rfl
          · exact ih _ hmember.holds

/-- The account is right about the service of a request. -/
theorem serve (hcrew : crew.Accounts account holds) (size : Nat) (request : Request)
    (hholds : holds below) :
    account.Covers holds world (crew.serve size request below world) := by
  cases request with
  | finish status => exact .still hholds rfl rfl
  | crash => exact .still hholds rfl rfl
  | run mark index => exact (hcrew.advance index none below world hholds).map _
  | runAll =>
    rw [Crew.serve, beginAll]
    split
    · exact (hcrew.advanceAll _ hholds).map _
    · let tour : Tour := .ofSlots world.formCrowd.1 (List.replicate size .fresh) (List.range size)
      have htour : account.Covers holds world.formCrowd.2
          (crew.advanceCalled tour.bound tour below world.formCrowd.2) :=
        hcrew.advanceCalled tour.bound tour hholds
      exact ⟨htour.holds, htour.tells⟩
  | sleep mark duration => exact covers_attend _ hholds
  | race index limit =>
    have hraced : account.Covers holds world.startTask.2
        (attend (.race world.startTask.1 ⟨world.now + limit, none⟩) below world.startTask.2) :=
      covers_attend _ hholds
    exact ⟨hraced.holds, hraced.tells⟩
  | resetChild index =>
    obtain ⟨hafter, htells⟩ := hcrew.reset world.now index below world.contexts hholds
    exact ⟨hafter, htells⟩
  | abortChild index =>
    obtain ⟨hafter, htells⟩ := hcrew.abort world.now index below world.contexts hholds
    exact ⟨hafter, htells⟩

/-- The account is right about the taking up of a suspended execution. -/
theorem recheck (hcrew : crew.Accounts account holds) (run : Run) (hholds : holds below) :
    account.Covers holds world (crew.recheck run below world) := by
  cases run with
  | child mark index run => exact (hcrew.advance index (some run) below world hholds).map _
  | paused pause => exact covers_attend pause hholds
  | together slots => exact (hcrew.advanceAll slots hholds).map _
  | crowd id slots called => exact (hcrew.advanceCalled _ (.ofSlots id slots called) hholds).map _

/-- A node that writes nothing, except perhaps when an execution begins, is driven on. -/
theorem drive (hcrew : crew.Accounts account holds) (name : String) (kind : Kind κ)
    (hsilent : ∀ moment state signal, signal ≠ .started →
      (kind.respond moment state signal).writes = [])
    (size fuel : Nat) {reply : Reply}
    (hreply : reply = .signal .started → ∀ moment state,
      (kind.respond moment state .started).writes = [])
    (cell : Cell kind.State) (hholds : holds below) :
    account.Covers (fun memory => holds memory.2) world
      (crew.drive name kind size fuel reply cell below world) := by
  induction fuel generalizing reply cell below world with
  | zero => cases reply <;> exact .still hholds rfl rfl
  | succ fuel ih =>
    cases reply with
    | stop outcome => exact .still hholds rfl rfl
    | signal signal =>
      have hwrites : ∀ moment state, (kind.respond moment state signal).writes = [] := by
        intro moment state
        by_cases hstarted : signal = .started
        · subst hstarted
          exact hreply rfl moment state
        · exact hsilent moment state signal hstarted
      rw [Crew.drive_signal]
      dsimp only
      rw [hwrites, World.write_nil]
      generalize kind.respond _ cell.state signal = move
      have hserved : account.Covers holds world (crew.serve size move.request below world) :=
        hcrew.serve size move.request hholds
      have hstarted := crew.serve_ne_started size move.request below world
      generalize crew.serve size move.request below world = served at hserved hstarted
      have hrest := @ih served.memory served.world served.result
        (fun hsame => absurd hsame hstarted) ⟨move.state, cell.binding⟩ hserved.holds
      exact ⟨hrest.holds, account.append
        (account.append (account.notices _ _ _) hserved.tells) hrest.tells⟩

/-- A turn of such a node, whether an execution begins in it or is taken up. -/
theorem turn (hcrew : crew.Accounts account holds) (name : String) (kind : Kind κ)
    (hsilent : ∀ moment state signal, signal ≠ .started →
      (kind.respond moment state signal).writes = [])
    (size : Nat) {run : Option Run}
    (hrun : run = none → ∀ moment state, (kind.respond moment state .started).writes = [])
    (cell : Cell kind.State) (hholds : holds below) :
    account.Covers (fun memory => holds memory.2) world
      (crew.turn name kind size run cell below world) := by
  cases run with
  | none => exact hcrew.drive name kind hsilent size _ (fun _ => hrun rfl) cell hholds
  | some run =>
    have hchecked : account.Covers holds world (crew.recheck run below world) :=
      hcrew.recheck run hholds
    have hstarted := (crew.goesOn_recheck run below world).ne_started
    have hdriven := @drive _ _ _ _ _ _ _ (crew.recheck run below world).world hcrew name kind
      hsilent size (kind.allowance size) _ (fun hsame => absurd hsame hstarted) cell hchecked.holds
    exact ⟨hdriven.holds, account.append hchecked.tells hdriven.tells⟩

end Accounts

end Crew

end BehaviorTree
