import BehaviorTree.Proofs.Node.Overlap
import BehaviorTree.Proofs.Tree.ChildEvents
import BehaviorTree.Proofs.Tree.Stage

/-!
# What a node asks for and is told

An execution of a node is a talk: the node makes requests, and each of them is answered by a signal,
up to the last one. If the node has its children run one at a time, the talk tells all that happens
to them. A turn that the engine gives to such a node is part of a talk, whatever the children do
(`tells_begin`, `tells_resume`), and what the node asks for in the turn are the requests of the
talk.
-/

namespace BehaviorTree

open Journal

variable {κ : Type} [Application κ]

/-! ## Talks -/

/-- A request and the signal that answered it. -/
structure Exchange where
  /-- What the node asked for. -/
  request : Request
  /-- What it was answered. -/
  answer : Signal
  deriving DecidableEq

/-- What happens to the children as soon as a request is made. -/
def Request.deeds : Request → List Deed
  | .run _ child => [.begun child]
  | _ => []

/-- What happens to the children from then on, until the request is answered. -/
def Exchange.closing : Exchange → List Deed
  | ⟨.run _ child, .answered _ status⟩ => [.ended child status]
  | ⟨.resetChild child, _⟩ => [.reset child]
  | _ => []

/-- What happens to the children in an exchange. -/
def Exchange.deeds (exchange : Exchange) : List Deed := exchange.request.deeds ++ exchange.closing

/-- Whether a request concerns at most one child, and one of so many children. -/
def Request.IsPlain (size : Nat) : Request → Prop
  | .run _ child | .resetChild child => child < size
  | .finish _ | .crash | .sleep .. => True
  | .runAll | .race .. | .abortChild _ => False

namespace Machine

variable {σ : Type} {machine : Machine σ} {size : Nat}

/-- The machine makes plain requests only. -/
def IsPlain (machine : Machine σ) (size : Nat) : Prop :=
  ∀ moment state signal, moment.size = size → (machine moment state signal).request.IsPlain size

/-- The exchanges of a node with so many children, from a signal in one state up to a request that
is not answered yet, in the state after it. -/
inductive Talks (machine : Machine σ) (size : Nat) :
    σ → Signal → List Exchange → σ → Request → Prop where
  | asks (state : σ) (signal : Signal) (moment : Moment) (hsize : moment.size = size) :
    Talks machine size state signal [] (machine moment state signal).state
      (machine moment state signal).request
  | hears (state : σ) (signal : Signal) (moment : Moment) (hsize : moment.size = size)
      {answer : Signal} {exchanges : List Exchange} {last : σ} {request : Request}
      (hanswer : (machine moment state signal).request.AnsweredBy answer)
      (hrest : Talks machine size (machine moment state signal).state answer exchanges last
        request) :
    Talks machine size state signal (⟨(machine moment state signal).request, answer⟩ :: exchanges)
      last request

namespace Talks

variable {state later last : σ} {signal answer : Signal} {exchanges more : List Exchange}
  {request lastRequest : Request}

/-- A talk goes on when its last request is answered. -/
theorem trans (hfirst : machine.Talks size state signal exchanges later request)
    (hanswer : request.AnsweredBy answer)
    (hrest : machine.Talks size later answer more last lastRequest) :
    machine.Talks size state signal (exchanges ++ ⟨request, answer⟩ :: more) last lastRequest := by
  induction hfirst with
  | asks state signal moment hsize => exact .hears state signal moment hsize hanswer hrest
  | hears state signal moment hsize hanswered _ ih =>
    exact .hears state signal moment hsize hanswered (ih hanswer hrest)

/-- What a plain machine asks for at the end of a talk is plain. -/
theorem isPlain (htalks : machine.Talks size state signal exchanges last request)
    (hplain : machine.IsPlain size) : request.IsPlain size := by
  induction htalks with
  | asks state signal moment hsize => exact hplain moment state signal hsize
  | hears _ _ _ _ _ _ ih => exact ih

end Talks

/-- What can follow a move. -/
inductive Continues (machine : Machine σ) (size : Nat) (move : Move σ) :
    List Exchange → σ → Request → Prop where
  | asked : Continues machine size move [] move.state move.request
  | answered {answer : Signal} {exchanges : List Exchange} {last : σ} {request : Request}
      (hanswer : move.request.AnsweredBy answer)
      (hrest : machine.Talks size move.state answer exchanges last request) :
    Continues machine size move (⟨move.request, answer⟩ :: exchanges) last request

variable {state last : σ} {signal : Signal} {exchanges : List Exchange} {status : Status}

/-- A talk begins with a move at some moment and continues from it. -/
theorem talks_iff {request : Request} :
    machine.Talks size state signal exchanges last request ↔ ∃ moment : Moment,
      moment.size = size ∧
        machine.Continues size (machine moment state signal) exchanges last request := by
  constructor
  · intro htalks
    cases htalks with
    | asks _ _ moment hsize => exact ⟨moment, hsize, .asked⟩
    | hears _ _ moment hsize hanswer hrest => exact ⟨moment, hsize, .answered hanswer hrest⟩
  · rintro ⟨moment, hsize, hcontinues⟩
    cases hcontinues with
    | asked => exact .asks state signal moment hsize
    | answered hanswer hrest => exact .hears state signal moment hsize hanswer hrest

/-- Nothing follows the end of an execution. -/
theorem continues_finish_iff {move : Move σ} {answer : Status}
    (hlast : move.request = .finish answer) :
    machine.Continues size move exchanges last (.finish status) ↔
      exchanges = [] ∧ last = move.state ∧ status = answer := by
  constructor
  · intro hcontinues
    generalize hrequest : Request.finish status = request at hcontinues
    cases hcontinues with
    | asked =>
      rw [hlast] at hrequest
      cases hrequest
      exact ⟨rfl, rfl, rfl⟩
    | answered hanswer =>
      rw [hlast] at hanswer
      cases hanswer
  · rintro ⟨rfl, rfl, rfl⟩
    exact hlast ▸ .asked

/-- An answer follows any other request. -/
theorem continues_ask_iff {move : Move σ} (hmore : move.request.isLast = false) :
    machine.Continues size move exchanges last (.finish status) ↔ ∃ answer rest,
      exchanges = ⟨move.request, answer⟩ :: rest ∧ move.request.AnsweredBy answer ∧
        machine.Talks size move.state answer rest last (.finish status) := by
  constructor
  · intro hcontinues
    generalize hrequest : Request.finish status = request at hcontinues
    cases hcontinues with
    | asked =>
      rw [← hrequest] at hmore
      cases hmore
    | answered hanswer hrest =>
      subst hrequest
      exact ⟨_, _, rfl, hanswer, hrest⟩
  · rintro ⟨answer, rest, rfl, hanswer, hrest⟩
    exact .answered hanswer hrest

end Machine

/-! ## What the engine does with a request -/

/-- What can come of a request, with what then happens to the children. -/
inductive Request.Meets (request : Request) : Reply → List Deed → Prop where
  | answered {answer : Signal} (hanswer : request.AnsweredBy answer) :
    Meets request (.signal answer) (Exchange.closing ⟨request, answer⟩)
  | waiting {run : Run} (hwaits : run.WaitsFor request) :
    Meets request (.stop (.waiting run)) []
  | failed (fault : Fault) (deeds : List Deed) : Meets request (.stop (.failed fault)) deeds

/-- How a stretch of execution ends at a request. -/
def Request.Leaves (request : Request) : Outcome → Prop
  | .answered status => request = .finish status
  | .waiting held => held.WaitsFor request
  | .failed _ => False

/-- What comes of running a child is its answer, or it is suspended, or it has failed. -/
theorem meets_replyOfChild (mark index : Nat) (outcome : Outcome) :
    (Request.run mark index).Meets (replyOfChild mark index outcome) (outcome.deeds index) := by
  cases outcome with
  | answered status => exact .answered (.run mark index status)
  | waiting run => exact .waiting (.child mark index run)
  | failed fault => exact .failed fault _

/-- What comes of a sleep is that it is over, or it goes on. -/
theorem meets_attend_sleep {μ : Type} (mark duration : Nat) (timer : Timer) (below : μ)
    (world : World) :
    (Request.sleep mark duration).Meets (attend (.sleep mark timer) below world).result [] := by
  obtain ⟨-, hattend⟩ | ⟨timer', _, -, hattend⟩ := attend_sleep mark timer below world
  · rw [hattend]
    exact .answered (.sleep mark duration)
  · rw [hattend]
    exact .waiting (.sleep mark duration timer')

/-- With its last request a node answers, or it crashes. -/
theorem serve_last {μ : Type} (crew : Crew μ) (size : Nat) {request : Request}
    (hlast : request.isLast) (below : μ) (world : World) :
    ∃ outcome, crew.serve size request below world =
        { result := .stop outcome, memory := below, world } ∧
      ((∀ fault, outcome ≠ .failed fault) → request.Leaves outcome ∧ request.deeds = []) := by
  cases request with
  | finish status => exact ⟨.answered status, rfl, fun _ => ⟨rfl, rfl⟩⟩
  | crash => exact ⟨.failed .crashed, rfl, fun hsound => absurd rfl (hsound .crashed)⟩
  | _ => cases hlast

section Node

variable {name : String} {kind : Kind κ} {children : List (Tree κ)}

/-- A plain request that is served is met, and the journal tells what has happened to the
children. -/
theorem exists_meets_serve {request : Request} (hplain : request.IsPlain children.length)
    (hmore : request.isLast = false) (below : Memories children) (world : World) :
    let served := (crewOf children).serve children.length request below world
    ∃ later, request.Meets served.result later ∧ deeds served.journal = request.deeds ++ later := by
  cases request with
  | finish status => cases hmore
  | crash => cases hmore
  | run mark index =>
    exact ⟨_, meets_replyOfChild mark index _,
      deeds_under_advanceChild hplain index none below world⟩
  | sleep mark duration =>
    exact ⟨[], meets_attend_sleep mark duration _ below world, congrArg deeds (journal_attend ..)⟩
  | resetChild child =>
    exact ⟨_, .answered (.resetChild child), deeds_under_resetChild hplain child world.now below⟩
  | runAll => exact hplain.elim
  | race child limit => exact hplain.elim
  | abortChild child => exact hplain.elim

/-- A plain request that is taken up is met, and the journal tells what has happened to the
children. -/
theorem meets_recheck {run : Run} {request : Request} (hplain : request.IsPlain children.length)
    (hwaits : run.WaitsFor request) (below : Memories children) (world : World) :
    let rechecked := (crewOf children).recheck run below world
    request.Meets rechecked.result (deeds rechecked.journal) := by
  cases hwaits with
  | child mark index run =>
    intro rechecked
    have hdeeds : deeds rechecked.journal =
        (advanceChild children index (some run) below world).result.deeds index :=
      deeds_under_advanceChild hplain index (some run) below world
    rw [hdeeds]
    exact meets_replyOfChild mark index _
  | sleep mark duration timer =>
    intro rechecked
    have hdeeds : deeds rechecked.journal = [] :=
      congrArg deeds (journal_attend (.sleep mark timer) below world)
    rw [hdeeds]
    exact meets_attend_sleep mark duration timer below world
  | race task child limit timer => exact hplain.elim
  | together slots => exact hplain.elim
  | crowd id slots called => exact hplain.elim

end Node

/-! ## Turns -/

namespace Crew

variable {μ : Type} (crew : Crew μ)

/-- What a node asks for while it is driven. -/
def driveRequests (name : String) (kind : Kind κ) (size : Nat) :
    Nat → Reply → Cell kind.State → μ → World → List Request
  | _, .stop _, _, _, _ => []
  | 0, .signal _, _, _, _ => []
  | fuel + 1, .signal signal, cell, below, world =>
    let moment : Moment := ⟨name, size, world.now, world.context cell.binding⟩
    let move := kind.respond moment cell.state signal
    let (world, binding) := world.write cell.binding move.writes
    let served := crew.serve size move.request below world
    move.request ::
      driveRequests name kind size fuel served.result ⟨move.state, binding⟩ served.memory
        served.world

/-- The requests from a signal on are that of the move and those after it. -/
theorem driveRequests_signal (name : String) (kind : Kind κ) (size fuel : Nat) (signal : Signal)
    (cell : Cell kind.State) (below : μ) (world : World) :
    crew.driveRequests name kind size (fuel + 1) (.signal signal) cell below world =
      let move := kind.respond ⟨name, size, world.now, world.context cell.binding⟩ cell.state signal
      let written := world.write cell.binding move.writes
      let served := crew.serve size move.request below written.1
      move.request :: crew.driveRequests name kind size fuel served.result ⟨move.state, written.2⟩
        served.memory served.world := rfl

/-- A node that stops asks for nothing more. -/
theorem driveRequests_stop (name : String) (kind : Kind κ) (size fuel : Nat) (outcome : Outcome)
    (cell : Cell kind.State) (below : μ) (world : World) :
    crew.driveRequests name kind size fuel (.stop outcome) cell below world = [] := by
  cases fuel <;> rfl

end Crew

/-- What the root of a tree asks for in a turn. -/
def requests : {tree : Tree κ} → Option Run → Memory tree → World → List Request
  | ⟨name, kind, children⟩, run, .node cell below, world =>
    let crew := crewOf children
    let size := children.length
    match run with
    | none =>
      crew.driveRequests name kind size (kind.allowance size) (.signal .started) cell below world
    | some run =>
      let rechecked := crew.recheck run below world
      crew.driveRequests name kind size (kind.allowance size) rechecked.result cell
        rechecked.memory rechecked.world

/-- A stretch of execution is part of a talk: from a signal in one state it has come to a request in
another, which the node made last. -/
structure Machine.Tells {σ : Type} (machine : Machine σ) (size : Nat) (state : σ)
    (signal : Signal) (exchanges : List Exchange) (last : σ) (request : Request) (outcome : Outcome)
    (requests : List Request) (deeds : List Deed) : Prop where
  /-- The talk leads from the signal to the request. -/
  talks : machine.Talks size state signal exchanges last request
  /-- The last request leaves this outcome. -/
  leaves : request.Leaves outcome
  /-- The requests are those of the talk, and the last one. -/
  requests_eq : requests = exchanges.map (·.request) ++ [request]
  /-- What happened to the children is what the requests say. -/
  deeds_eq : deeds = exchanges.flatMap Exchange.deeds ++ request.deeds

section Node

variable {name : String} {kind : Kind κ} {children : List (Tree κ)}

/-- Driving a node from a signal on is a part of a talk. -/
theorem tells_drive (hplain : Machine.IsPlain kind.respond children.length) (fuel : Nat)
    (signal : Signal) (cell : Cell kind.State) (below : Memories children) (world : World)
    (hsound : ∀ fault, ((crewOf children).drive name kind children.length fuel (.signal signal) cell
      below world).result ≠ .failed fault) :
    let crew := crewOf children
    let driven := crew.drive name kind children.length fuel (.signal signal) cell below world
    ∃ exchanges request,
      Machine.Tells kind.respond children.length cell.state signal exchanges
        driven.memory.1.state request driven.result
        (crew.driveRequests name kind children.length fuel (.signal signal) cell below world)
        (deeds driven.journal) := by
  induction fuel generalizing signal cell below world with
  | zero => exact absurd rfl (hsound .endless)
  | succ fuel ih =>
    dsimp only
    rw [Crew.drive_signal] at hsound ⊢
    rw [Crew.driveRequests_signal]
    dsimp only at hsound ⊢
    generalize hmoment : Moment.mk name children.length world.now (world.context cell.binding) =
      moment at hsound ⊢
    have hsize : moment.size = children.length := by rw [← hmoment]
    have hrequest := hplain moment cell.state signal hsize
    have hasks := @Machine.Talks.asks _ kind.respond children.length cell.state signal moment hsize
    have hhears :=
      @Machine.Talks.hears _ kind.respond children.length cell.state signal moment hsize
    generalize kind.respond moment cell.state signal = move at hsound hrequest hasks hhears ⊢
    generalize world.write cell.binding move.writes = written at hsound ⊢
    simp only [Progress.result_after, Progress.memory_after, Progress.journal_after, deeds_append,
      deeds_map_noticeAt, List.nil_append] at hsound ⊢
    cases hlast : move.request.isLast with
    | true =>
      obtain ⟨outcome, hserved, hleaves⟩ :=
        serve_last (crewOf children) children.length hlast below written.1
      rw [hserved] at hsound ⊢
      rw [Crew.drive_stop] at hsound ⊢
      rw [Crew.driveRequests_stop]
      obtain ⟨hleaves, hdeeds⟩ := hleaves hsound
      exact ⟨[], move.request, hasks, hleaves, rfl, hdeeds.symm⟩
    | false =>
      obtain ⟨later, hmeets, hdeeds⟩ := exists_meets_serve hrequest hlast below written.1
      rw [hdeeds]
      generalize (crewOf children).serve children.length move.request below written.1 = served
        at hsound hmeets hdeeds ⊢
      obtain ⟨result, memory, world', journal, spawned, again⟩ := served
      dsimp only at hsound hmeets hdeeds ⊢
      cases hmeets with
      | answered hanswer =>
        obtain ⟨exchanges, request, htells⟩ := ih _ _ _ _ hsound
        refine ⟨_, request, hhears hanswer htells.talks, htells.leaves, ?_, ?_⟩
        · rw [htells.requests_eq]
          rfl
        · rw [htells.deeds_eq]
          simp [Exchange.deeds]
      | waiting hwaits =>
        rw [Crew.drive_stop, Crew.driveRequests_stop]
        exact ⟨[], move.request, hasks, hwaits, rfl, by simp⟩
      | failed fault deeds =>
        rw [Crew.drive_stop] at hsound
        exact absurd rfl (hsound fault)

/-- The entries for the beginning and the end of an execution add no deeds of children. -/
theorem deeds_advance (run : Option Run) (cell : Cell kind.State) (below : Memories children)
    (world : World) :
    deeds (advance ⟨name, kind, children⟩ run (.node cell below) world).journal =
      deeds (turnOf name kind children run cell below world).journal := by
  rw [advance_eq]
  simp only [deeds_append, deeds_entryOf, deeds_exitEntry, List.nil_append, List.append_nil]

/-- A turn in which an execution begins is part of a talk that begins. -/
theorem tells_begin (hplain : Machine.IsPlain kind.respond children.length) (cell : Cell kind.State)
    (below : Memories children) (world : World) :
    let turn := advance ⟨name, kind, children⟩ none (.node cell below) world
    (∀ fault, turn.result ≠ .failed fault) →
      ∃ exchanges request,
        Machine.Tells kind.respond children.length cell.state .started exchanges
          turn.memory.state request turn.result
          (requests none (.node cell below : Memory ⟨name, kind, children⟩) world)
          (deeds turn.journal) := by
  intro turn hsound
  have hdeeds : deeds turn.journal = _ := deeds_advance none cell below world
  rw [hdeeds]
  exact tells_drive hplain _ .started cell below world hsound

/-- A turn in which an execution is taken up: it waits on, or what it waits for has happened. -/
theorem tells_resume (hplain : Machine.IsPlain kind.respond children.length) {run : Run}
    {request : Request} (hrequest : request.IsPlain children.length) (hwaits : run.WaitsFor request)
    (cell : Cell kind.State) (below : Memories children) (world : World) :
    let turn := advance ⟨name, kind, children⟩ (some run) (.node cell below) world
    let asked := requests (some run) (.node cell below : Memory ⟨name, kind, children⟩) world
    (∀ fault, turn.result ≠ .failed fault) →
      (∃ held, turn.result = .waiting held ∧ held.WaitsFor request ∧
        turn.memory.state = cell.state ∧ asked = [] ∧ deeds turn.journal = []) ∨
      ∃ answer exchanges later rest, request.AnsweredBy answer ∧
        Machine.Tells kind.respond children.length cell.state answer exchanges
          turn.memory.state later turn.result asked rest ∧
        deeds turn.journal = Exchange.closing ⟨request, answer⟩ ++ rest := by
  intro turn asked
  have hdeeds : deeds turn.journal = _ := deeds_advance (some run) cell below world
  rw [hdeeds]
  clear hdeeds
  have hmeets := meets_recheck hrequest hwaits below world
  simp only [turn, asked, requests, advance_eq, turnOf, Progress.andThen_eq, Memory.state,
    Progress.result_after, Progress.memory_after, Progress.journal_after, deeds_append]
  dsimp only at hmeets
  generalize (crewOf children).recheck run below world = rechecked at hmeets ⊢
  obtain ⟨reply, memory, world', journal, spawned, again⟩ := rechecked
  dsimp only at hmeets ⊢
  intro hsound
  generalize deeds journal = closing at hmeets
  cases hmeets with
  | answered hanswer =>
    obtain ⟨exchanges, later, htells⟩ := tells_drive hplain _ _ cell memory world' hsound
    exact .inr ⟨_, exchanges, later, _, hanswer, htells, rfl⟩
  | waiting hwaits =>
    rw [Crew.drive_stop, Crew.driveRequests_stop]
    exact .inl ⟨_, rfl, hwaits, rfl, rfl, rfl⟩
  | failed fault deeds =>
    rw [Crew.drive_stop] at hsound
    exact absurd rfl (hsound fault)

end Node

end BehaviorTree
