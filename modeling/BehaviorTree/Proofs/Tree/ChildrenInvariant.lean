import BehaviorTree.Proofs.Tree.SideBySide

/-!
# Conditions on all children together

The executions of several children work on the memory of all of them and on the shared contexts.
An upkeep is a condition on those, together with a condition on the suspended execution of each
child. If every operation on a child keeps it up, then so does everything that a node does with
its children, in whatever order it makes its requests (`Crew.Upholds.turn`).
-/

namespace BehaviorTree

variable {κ : Type} [Application κ] {ρ τ μ : Type}

namespace World

/-- Starting a timer leaves the shared contexts as they are. -/
@[simp] theorem contexts_startTimer (world : World) (pause : Pause) :
    (world.startTimer pause).2.contexts = world.contexts := by
  rw [startTimer]
  split <;> rfl

end World

/-- A condition on the memories of several children and on the shared contexts, and one on the
suspended execution of each child. -/
structure Upkeep (μ : Type) where
  /-- The condition on the memories and the shared contexts. -/
  holds : μ → List Context → Prop
  /-- The condition on the suspended execution of a child. -/
  allows : Nat → Run → μ → Prop

namespace Upkeep

/-- A stretch of execution keeps the upkeep: the condition holds afterwards, what was suspended
before may still be taken up, and so may what the result leaves suspended. -/
structure Keeps (upkeep : Upkeep μ) (waits : ρ → μ → Prop) (below : μ)
    (progress : Progress ρ μ) : Prop where
  /-- The condition holds afterwards. -/
  holds : upkeep.holds progress.memory progress.world.contexts
  /-- What may be taken up before may be taken up afterwards. -/
  allows : ∀ index run, upkeep.allows index run below → upkeep.allows index run progress.memory
  /-- What the result leaves suspended may be taken up. -/
  waits : waits progress.result progress.memory

variable (upkeep : Upkeep μ)

/-- The suspended executions of children that run side by side may be taken up. -/
def AllowsAll (slots : List (Slot Run)) (below : μ) : Prop :=
  ∀ index run, slots[index]? = some (.waiting run) → upkeep.allows index run below

/-- The same of the children from one with an index on. -/
def AllowsFrom (start : Nat) (slots : List (Slot Run)) (below : μ) : Prop :=
  ∀ offset run, slots[offset]? = some (.waiting run) → upkeep.allows (start + offset) run below

/-- The suspended execution of the parent may be taken up. -/
def AllowsRun : Run → μ → Prop
  | .child _ index run, below => upkeep.allows index run below
  | .paused _, _ => True
  | .together slots, below => upkeep.AllowsAll slots below
  | .crowd _ slots _, below => upkeep.AllowsAll slots below

/-- What a child leaves suspended may be taken up. -/
def ChildWaits (index : Nat) : Outcome → μ → Prop
  | .waiting run, below => upkeep.allows index run below
  | .answered _, _ => True
  | .failed _, _ => True

/-- What children that run side by side leave suspended may be taken up, from one with an index
on. -/
def SlotsWait (start : Nat) : Except Fault (List (Slot Run)) → μ → Prop
  | .ok slots, below => upkeep.AllowsFrom start slots below
  | .error _, _ => True

/-- What the children on a tour leave suspended may be taken up. -/
def TourWaits : Except Fault Tour → μ → Prop
  | .ok tour, below => upkeep.AllowsAll tour.slots below
  | .error _, _ => True

/-- What the parent leaves suspended may be taken up. -/
def RunWaits : Outcome → μ → Prop
  | .waiting run, below => upkeep.AllowsRun run below
  | .answered _, _ => True
  | .failed _, _ => True

/-- What a reply leaves suspended may be taken up. -/
def ReplyWaits : Reply → μ → Prop
  | .stop outcome, below => upkeep.RunWaits outcome below
  | .signal _, _ => True

variable {upkeep} {waits : ρ → μ → Prop} {below : μ} {world : World} {index : Nat} {run : Run}
  {slots : List (Slot Run)}

/-! ## Upkeeps that allow every run -/

/-- If every run is allowed, so is what a child leaves suspended. -/
theorem childWaits_of_forall (hallows : ∀ index run below, upkeep.allows index run below)
    (index : Nat) (outcome : Outcome) (below : μ) : upkeep.ChildWaits index outcome below := by
  cases outcome with
  | answered status => trivial
  | waiting run => exact hallows index run below
  | failed fault => trivial

/-- If every run is allowed, so is the suspended execution of the parent. -/
theorem allowsRun_of_forall (hallows : ∀ index run below, upkeep.allows index run below)
    (run : Run) (below : μ) : upkeep.AllowsRun run below := by
  cases run with
  | child mark index run => exact hallows index run below
  | paused pause => trivial
  | together slots => exact fun index run _ => hallows index run below
  | crowd id slots called => exact fun index run _ => hallows index run below

/-! ## Stretches of execution -/

namespace Keeps

/-- A stretch that changes neither the memory nor the contexts keeps every upkeep. -/
theorem still {progress : Progress ρ μ} (hholds : upkeep.holds below world.contexts)
    (hmemory : progress.memory = below) (hcontexts : progress.world.contexts = world.contexts)
    (hwaits : waits progress.result below) : upkeep.Keeps waits below progress := by
  subst hmemory
  exact ⟨hcontexts ▸ hholds, fun _ _ hallows => hallows, hwaits⟩

/-- What keeps the upkeep still does so seen from the parent. -/
theorem under {progress : Progress ρ μ} (hkeeps : upkeep.Keeps waits below progress) :
    upkeep.Keeps waits below (progress.under index) :=
  ⟨hkeeps.holds, hkeeps.allows, hkeeps.waits⟩

/-- What went before a stretch of execution takes nothing from the upkeep that it keeps. -/
theorem after {progress : Progress ρ μ} (hkeeps : upkeep.Keeps waits below progress)
    (journal : Journal) (spawned : List Spawn) (again : Bool) :
    upkeep.Keeps waits below (progress.after journal spawned again) :=
  ⟨hkeeps.holds, hkeeps.allows, hkeeps.waits⟩

/-- A map of results keeps the upkeep if what may be taken up stays so. -/
theorem map {progress : Progress ρ μ} {seen : τ → μ → Prop} {result : ρ → τ}
    (hkeeps : upkeep.Keeps waits below progress)
    (hseen : ∀ outcome below, waits outcome below → seen (result outcome) below) :
    upkeep.Keeps seen below (progress.map result id) :=
  ⟨hkeeps.holds, hkeeps.allows, hseen _ _ hkeeps.waits⟩

/-- Two stretches of execution, one after the other, keep an upkeep if each of them does. -/
theorem andThen {progress : Progress ρ μ} {later : τ → μ → Prop}
    {next : ρ → μ → World → Progress τ μ} (hkeeps : upkeep.Keeps waits below progress)
    (hnext : upkeep.Keeps later progress.memory
      (next progress.result progress.memory progress.world)) :
    upkeep.Keeps later below (progress.andThen next) :=
  ⟨hnext.holds, fun index run hallows => hnext.allows index run (hkeeps.allows index run hallows),
    hnext.waits⟩

end Keeps

/-! ## Children side by side -/

/-- One child may be put in another state if what that leaves suspended may be taken up. -/
theorem AllowsAll.set (hall : upkeep.AllowsAll slots below) {slot : Slot Run}
    (hslot : ∀ run, slot = .waiting run → upkeep.allows index run below) :
    upkeep.AllowsAll (slots.set index slot) below := by
  intro other run hother
  rw [List.getElem?_set] at hother
  split at hother
  · next heq =>
    subst heq
    split at hother
    · exact hslot run (Option.some.inj hother)
    · cases hother
  · exact hall other run hother

/-- Children that have not begun leave nothing to take up. -/
theorem allowsAll_replicate_fresh (size : Nat) (below : μ) :
    upkeep.AllowsAll (List.replicate size .fresh) below := by
  intro index run hrun
  rw [List.getElem?_replicate] at hrun
  split at hrun <;> cases hrun

/-- A stretch of execution that keeps the upkeep leaves the children as ready to be taken up as
before. -/
theorem AllowsAll.leads {progress : Progress ρ μ} (hall : upkeep.AllowsAll slots below)
    (hkeeps : upkeep.Keeps waits below progress) : upkeep.AllowsAll slots progress.memory :=
  fun index run hrun => hkeeps.allows index run (hall index run hrun)

/-- The run of a child on a tour may be taken up. -/
theorem AllowsAll.run? {tour : Tour} (hall : upkeep.AllowsAll tour.slots below)
    (hrun : tour.run? index = some run) : upkeep.allows index run below := by
  obtain ⟨slot, hslot, hwaiting⟩ := Option.bind_eq_some_iff.mp hrun
  cases slot with
  | waiting held =>
    cases hwaiting
    exact hall index run hslot
  | fresh => cases hwaiting
  | answered status => cases hwaiting

/-- All children are those from index zero on. -/
theorem allowsFrom_zero_iff : upkeep.AllowsFrom 0 slots below ↔ upkeep.AllowsAll slots below := by
  simp only [AllowsFrom, AllowsAll, Nat.zero_add]

/-- A stretch of execution that keeps the upkeep leaves the children from an index on as ready as
before. -/
theorem AllowsFrom.leads {start : Nat} {progress : Progress ρ μ}
    (hall : upkeep.AllowsFrom start slots below) (hkeeps : upkeep.Keeps waits below progress) :
    upkeep.AllowsFrom start slots progress.memory :=
  fun offset run hrun => hkeeps.allows _ run (hall offset run hrun)

/-- The suspended execution of the first child may be taken up. -/
theorem AllowsFrom.head {start : Nat} {slot : Slot Run}
    (hall : upkeep.AllowsFrom start (slot :: slots) below) (hrun : slot.run? = some run) :
    upkeep.allows start run below := by
  cases slot with
  | waiting held =>
    cases hrun
    exact hall 0 run rfl
  | fresh => cases hrun
  | answered status => cases hrun

/-- The suspended executions of the children after the first may be taken up. -/
theorem AllowsFrom.tail {start : Nat} {slot : Slot Run}
    (hall : upkeep.AllowsFrom start (slot :: slots) below) :
    upkeep.AllowsFrom (start + 1) slots below := by
  intro offset run hrun
  rw [Nat.add_right_comm]
  exact hall (offset + 1) run hrun

/-- A child whose suspended execution may be taken up joins those after it. -/
theorem AllowsFrom.cons {start : Nat} {slot : Slot Run}
    (hall : upkeep.AllowsFrom (start + 1) slots below)
    (hslot : ∀ run, slot = .waiting run → upkeep.allows start run below) :
    upkeep.AllowsFrom start (slot :: slots) below := by
  intro offset run hrun
  cases offset with
  | zero => exact hslot run (Option.some.inj hrun)
  | succ offset =>
    have hlater := hall offset run hrun
    rw [Nat.add_right_comm] at hlater
    exact hlater

/-- A child whose suspended execution may be taken up joins the result of those after it. -/
theorem SlotsWait.cons {start : Nat} {slot : Slot Run} {result : Except Fault (List (Slot Run))}
    (hslots : upkeep.SlotsWait (start + 1) result below)
    (hslot : ∀ run, slot = .waiting run → upkeep.allows start run below) :
    upkeep.SlotsWait start (result.map (slot :: ·)) below := by
  cases result with
  | error fault => trivial
  | ok slots => exact AllowsFrom.cons hslots hslot

/-! ## Replies -/

/-- What the reply to one child leaves suspended may be taken up if what the child leaves may. -/
theorem replyWaits_replyOfChild (mark : Nat) {outcome : Outcome}
    (hwaits : upkeep.ChildWaits index outcome below) :
    upkeep.ReplyWaits (replyOfChild mark index outcome) below := by
  cases outcome with
  | answered status => trivial
  | waiting run => exact hwaits
  | failed fault => trivial

/-- What the reply to all children leaves suspended may be taken up if what the children leave
may. -/
theorem replyWaits_replyOfAll {result : Except Fault (List (Slot Run))}
    (hwaits : upkeep.SlotsWait 0 result below) : upkeep.ReplyWaits (replyOfAll result) below := by
  cases result with
  | error fault => trivial
  | ok slots =>
    rw [replyOfAll]
    split
    · trivial
    · exact allowsFrom_zero_iff.mp hwaits

/-- What the reply to a tour leaves suspended may be taken up if what the tour leaves may. -/
theorem replyWaits_replyOfTour {result : Except Fault Tour}
    (hwaits : upkeep.TourWaits result below) : upkeep.ReplyWaits (replyOfTour result) below := by
  cases result with
  | error fault => trivial
  | ok tour =>
    rw [replyOfTour]
    split
    · trivial
    · exact hwaits

/-- Looking at a pause touches neither memory nor contexts. -/
theorem keeps_attend (pause : Pause) (hholds : upkeep.holds below world.contexts) :
    upkeep.Keeps upkeep.ReplyWaits below (attend pause below world) := by
  unfold attend
  split
  · exact .still hholds rfl rfl trivial
  · split
    · exact .still hholds rfl rfl trivial
    · dsimp only
      split
      · exact .still hholds rfl rfl trivial
      · exact .still hholds rfl (World.contexts_startTimer world pause) trivial

end Upkeep

namespace Crew

/-- The turn of a node with any crew. -/
def turn (crew : Crew μ) (name : String) (kind : Kind κ) (size : Nat) (run : Option Run)
    (cell : Cell kind.State) (below : μ) (world : World) :
    Progress Outcome (Cell kind.State × μ) :=
  match run with
  | none => crew.drive name kind size (kind.allowance size) (.signal .started) cell below world
  | some run =>
    (crew.recheck run below world).andThen
      (crew.drive name kind size (kind.allowance size) · cell · ·)

/-- The turn of a node is its turn with the crew of its children. -/
theorem turnOf_eq (name : String) (kind : Kind κ) (children : List (Tree κ)) (run : Option Run)
    (cell : Cell kind.State) (below : Memories children) (world : World) :
    turnOf name kind children run cell below world =
      (crewOf children).turn name kind children.length run cell below world := rfl

variable {crew : Crew μ} {upkeep : Upkeep μ} {below : μ} {world : World}

/-- Every operation on one child keeps an upkeep, and all children together are advanced one after
the other. -/
structure Upholds (crew : Crew μ) (upkeep : Upkeep μ) : Prop where
  /-- An execution of a child keeps the upkeep. -/
  advance : ∀ index run? below world, upkeep.holds below world.contexts →
    (∀ run, run? = some run → upkeep.allows index run below) →
      upkeep.Keeps (upkeep.ChildWaits index) below (crew.advance index run? below world)
  /-- The children are advanced one after the other. -/
  sideBySide : ∃ count, crew.advanceAll = advanceEach crew.advance count 0
  /-- An abort keeps the condition, and what is suspended may still be taken up. -/
  abort : ∀ now index below contexts, upkeep.holds below contexts →
    upkeep.holds (crew.abort now index below).1 contexts ∧ ∀ index' run,
      upkeep.allows index' run below → upkeep.allows index' run (crew.abort now index below).1
  /-- A reset keeps the condition, and what is suspended may still be taken up. -/
  reset : ∀ now index below contexts, upkeep.holds below contexts →
    upkeep.holds (crew.reset now index below).1 contexts ∧ ∀ index' run,
      upkeep.allows index' run below → upkeep.allows index' run (crew.reset now index below).1

namespace Upholds

open Upkeep

/-- A child that is advanced leaves its slot in order. -/
theorem slot_waits {index : Nat} {outcome : Outcome} {slot : Slot Run} {run : Run}
    (hwaits : upkeep.ChildWaits index outcome below) (houtcome : outcome.slot = .ok slot)
    (hslot : slot = .waiting run) : upkeep.allows index run below := by
  subst hslot
  cases outcome with
  | waiting held =>
    cases houtcome
    exact hwaits
  | answered status => cases houtcome
  | failed fault => cases houtcome

/-- Advancing children one after the other keeps the upkeep. -/
theorem advanceEach (hcrew : crew.Upholds upkeep) (count start : Nat) (slots : List (Slot Run))
    (hholds : upkeep.holds below world.contexts) (hall : upkeep.AllowsFrom start slots below) :
    upkeep.Keeps (upkeep.SlotsWait start) below
      (BehaviorTree.advanceEach crew.advance count start slots below world) := by
  induction count generalizing start slots below world with
  | zero => exact .still hholds rfl rfl fun offset run hrun => by cases hrun
  | succ count ih =>
    cases slots with
    | nil => exact .still hholds rfl rfl hall
    | cons slot slots =>
      rw [BehaviorTree.advanceEach]
      split
      · next hanswered =>
        have hslot : ∀ run, slot = .waiting run → upkeep.allows start run below := by
          rintro run rfl
          cases hanswered
        have hrest := ih (start + 1) slots hholds hall.tail
        exact ⟨hrest.holds, hrest.allows,
          hrest.waits.cons fun run hrun => hrest.allows start run (hslot run hrun)⟩
      · have hchild := hcrew.advance start slot.run? below world hholds fun run hrun =>
          hall.head hrun
        generalize crew.advance start slot.run? below world = child at hchild
        refine hchild.under.andThen ?_
        split
        · exact .still hchild.holds rfl rfl trivial
        · next later hlater =>
          have hrest := ih (start + 1) slots hchild.holds (hall.tail.leads hchild)
          exact ⟨hrest.holds, hrest.allows, hrest.waits.cons fun run hrun =>
            hrest.allows start run (slot_waits hchild.waits hlater hrun)⟩

/-- Advancing all children keeps the upkeep. -/
theorem advanceAll (hcrew : crew.Upholds upkeep) (slots : List (Slot Run))
    (hholds : upkeep.holds below world.contexts) (hall : upkeep.AllowsAll slots below) :
    upkeep.Keeps (upkeep.SlotsWait 0) below (crew.advanceAll slots below world) := by
  obtain ⟨count, heach⟩ := hcrew.sideBySide
  rw [heach]
  exact hcrew.advanceEach count 0 slots hholds (allowsFrom_zero_iff.mpr hall)

/-- Advancing a child of a crowd keeps the upkeep. -/
theorem advanceMember (hcrew : crew.Upholds upkeep) (tour : Tour) (index : Nat)
    (hholds : upkeep.holds below world.contexts) (hall : upkeep.AllowsAll tour.slots below) :
    upkeep.Keeps (upkeep.ChildWaits index) below (crew.advanceMember tour index below world) := by
  have hkeeps := hcrew.advance index (tour.run? index) below
    (world.handTo (.member tour.crowd index)) hholds fun run hrun => hall.run? hrun
  exact ⟨hkeeps.holds, hkeeps.allows, hkeeps.waits⟩

/-- A tour of the called children keeps the upkeep. -/
theorem advanceCalled (hcrew : crew.Upholds upkeep) (fuel : Nat) (tour : Tour)
    (hholds : upkeep.holds below world.contexts) (hall : upkeep.AllowsAll tour.slots below) :
    upkeep.Keeps upkeep.TourWaits below (crew.advanceCalled fuel tour below world) := by
  induction fuel generalizing tour below world with
  | zero => exact .still hholds rfl rfl hall
  | succ fuel ih =>
    rw [Crew.advanceCalled]
    split
    · exact .still hholds rfl rfl hall
    · next index called hcalled =>
      dsimp only
      split
      · exact ih _ hholds hall
      · have hmember := hcrew.advanceMember { tour with called } index hholds hall
        generalize crew.advanceMember { tour with called } index below world = member at hmember
        have hlater := hall.leads hmember
        refine hmember.under.andThen ?_
        split
        · exact .still hmember.holds rfl rfl trivial
        · exact ih _ hmember.holds (hlater.set fun run hrun => by cases hrun)
        · next run hresult =>
          have hrun : upkeep.allows index run member.memory := by
            have hwaits := hmember.waits
            rw [Progress.result_under] at hresult
            rw [hresult] at hwaits
            exact hwaits
          have hsuspended :
              upkeep.AllowsAll (tour.slots.set index (.waiting run)) member.memory := by
            refine hlater.set fun held hheld => ?_
            cases hheld
            exact hrun
          split
          · exact .still hmember.holds rfl rfl hsuspended
          · exact ih _ hmember.holds hsuspended

/-- Beginning all children at once keeps the upkeep. -/
theorem beginAll (hcrew : crew.Upholds upkeep) (size : Nat)
    (hholds : upkeep.holds below world.contexts) :
    upkeep.Keeps upkeep.ReplyWaits below (crew.beginAll size below world) := by
  rw [Crew.beginAll]
  split
  · exact (hcrew.advanceAll _ hholds (allowsAll_replicate_fresh size below)).map
      fun _ _ => replyWaits_replyOfAll
  · have hformed : upkeep.holds below world.formCrowd.2.contexts := hholds
    exact (hcrew.advanceCalled _ _ hformed (allowsAll_replicate_fresh size below)).map
      fun _ _ => replyWaits_replyOfTour

/-- Serving a request keeps the upkeep. -/
theorem serve (hcrew : crew.Upholds upkeep) (size : Nat) (request : Request)
    (hholds : upkeep.holds below world.contexts) :
    upkeep.Keeps upkeep.ReplyWaits below (crew.serve size request below world) := by
  cases request with
  | finish status => exact .still hholds rfl rfl trivial
  | crash => exact .still hholds rfl rfl trivial
  | run mark index =>
    exact (hcrew.advance index none below world hholds nofun).under.map fun _ _ =>
      replyWaits_replyOfChild mark
  | runAll => exact hcrew.beginAll size hholds
  | sleep mark duration => exact keeps_attend _ hholds
  | race index limit =>
    have hstarted : upkeep.holds below world.startTask.2.contexts := hholds
    exact (keeps_attend _ hstarted).after [] _ false
  | resetChild index =>
    obtain ⟨hafter, hallows⟩ := hcrew.reset world.now index below world.contexts hholds
    exact ⟨hafter, hallows, trivial⟩
  | abortChild index =>
    obtain ⟨hafter, hallows⟩ := hcrew.abort world.now index below world.contexts hholds
    exact ⟨hafter, hallows, trivial⟩

/-- Taking up a suspended execution that is allowed keeps the upkeep. -/
theorem recheck (hcrew : crew.Upholds upkeep) {run : Run}
    (hholds : upkeep.holds below world.contexts) (hrun : upkeep.AllowsRun run below) :
    upkeep.Keeps upkeep.ReplyWaits below (crew.recheck run below world) := by
  cases run with
  | child mark index run =>
    have hsome : ∀ held, some run = some held → upkeep.allows index held below := by
      intro held hheld
      cases hheld
      exact hrun
    exact (hcrew.advance index (some run) below world hholds hsome).under.map fun _ _ =>
      replyWaits_replyOfChild mark
  | paused pause => exact keeps_attend pause hholds
  | together slots =>
    exact (hcrew.advanceAll slots hholds hrun).map fun _ _ => replyWaits_replyOfAll
  | crowd id slots called =>
    exact (hcrew.advanceCalled _ (.ofSlots id slots called) hholds hrun).map fun _ _ =>
      replyWaits_replyOfTour

variable {bound : Binding → Prop}

/-- Whatever requests the node makes, its children keep the upkeep, and the node keeps its own
condition on its binding, provided that writing through the binding keeps both. -/
theorem drive (hcrew : crew.Upholds upkeep)
    (hwrite : ∀ binding writes below (world : World), bound binding →
      upkeep.holds below world.contexts → bound (world.write binding writes).2 ∧
        upkeep.holds below (world.write binding writes).1.contexts)
    (name : String) (kind : Kind κ) (size fuel : Nat) {reply : Reply} {cell : Cell kind.State}
    (hbound : bound cell.binding) (hholds : upkeep.holds below world.contexts)
    (hreply : upkeep.ReplyWaits reply below) :
    let driven := crew.drive name kind size fuel reply cell below world
    bound driven.memory.1.binding ∧
      upkeep.Keeps upkeep.RunWaits below (driven.map id Prod.snd) := by
  induction fuel generalizing reply cell below world with
  | zero =>
    cases reply with
    | stop outcome => exact ⟨hbound, .still hholds rfl rfl hreply⟩
    | signal signal => exact ⟨hbound, .still hholds rfl rfl trivial⟩
  | succ fuel ih =>
    cases reply with
    | stop outcome => exact ⟨hbound, .still hholds rfl rfl hreply⟩
    | signal signal =>
      rw [Crew.drive_signal]
      generalize kind.respond _ cell.state signal = move
      obtain ⟨hwritten, hholds⟩ := hwrite cell.binding move.writes below world hbound hholds
      have hserved := hcrew.serve size move.request hholds
      have hmoved : bound (⟨move.state, _⟩ : Cell kind.State).binding := hwritten
      obtain ⟨hbound, hdriven⟩ := ih hmoved hserved.holds hserved.waits
      exact ⟨hbound, hdriven.holds,
        fun index run hallows => hdriven.allows index run (hserved.allows index run hallows),
        hdriven.waits⟩

/-- A turn of the node, whether an execution begins in it or is taken up. -/
theorem turn (hcrew : crew.Upholds upkeep) (bound : Binding → Prop)
    (hwrite : ∀ binding writes below (world : World), bound binding →
      upkeep.holds below world.contexts → bound (world.write binding writes).2 ∧
        upkeep.holds below (world.write binding writes).1.contexts)
    (name : String) (kind : Kind κ) (size : Nat) {run : Option Run} {cell : Cell kind.State}
    (hbound : bound cell.binding) (hholds : upkeep.holds below world.contexts)
    (hrun : ∀ held, run = some held → upkeep.AllowsRun held below) :
    let turn := crew.turn name kind size run cell below world
    bound turn.memory.1.binding ∧ upkeep.Keeps upkeep.RunWaits below (turn.map id Prod.snd) := by
  cases run with
  | none => exact hcrew.drive hwrite name kind size _ hbound hholds trivial
  | some run =>
    have hchecked := hcrew.recheck hholds (hrun run rfl)
    obtain ⟨hbound, hdriven⟩ :=
      hcrew.drive hwrite name kind size (kind.allowance size) hbound hchecked.holds hchecked.waits
    exact ⟨hbound, hdriven.holds,
      fun index run hallows => hdriven.allows index run (hchecked.allows index run hallows),
      hdriven.waits⟩

end Upholds

end Crew

end BehaviorTree
