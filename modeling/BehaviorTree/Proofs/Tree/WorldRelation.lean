import BehaviorTree.Proofs.Tree.Binding
import BehaviorTree.Proofs.Tree.Tour

/-!
# How the world changes in the course of an execution

An execution changes the world step by step: it writes to contexts, ends waits and puts them off,
starts timers and tasks, forms crowds and hands the turn to their children. A relation between
worlds that holds along each of these steps holds along every stretch of execution
(`Course.advance`).
-/

namespace BehaviorTree

variable {κ : Type} [Application κ] {μ : Type}

/-- A relation between worlds that holds along the steps of an execution. -/
structure Course where
  /-- The relation from the earlier world to the later one. -/
  leads : World → World → Prop
  /-- It holds if nothing happens. -/
  refl : ∀ world, leads world world
  /-- It holds along two steps if it holds along each. -/
  trans : ∀ {world middle later}, leads world middle → leads middle later → leads world later
  /-- A write to the blackboard keeps to it. -/
  write : ∀ world binding writes, leads world (world.write binding writes).1
  /-- So does a wait that is put off because none may end any more. -/
  putOffWait : ∀ {world : World}, world.waitsLeft = 0 → leads world world.putOffWait
  /-- So does the end of a wait. -/
  endWait : ∀ world, leads world world.endWait
  /-- So does the start of a timer. -/
  startTimer : ∀ world pause, leads world (world.startTimer pause).2
  /-- So does the start of a task. -/
  startTask : ∀ world, leads world world.startTask.2
  /-- So does the forming of a crowd. -/
  formCrowd : ∀ world, leads world world.formCrowd.2
  /-- A child of a crowd has the turn for a while. -/
  handTo : ∀ {world later} party, leads (world.handTo party) later →
    leads world (later.handTo world.present)

namespace Course

variable (course : Course)

/-- The relation holds along the attention to a pause. -/
theorem attend (pause : Pause) (below : μ) (world : World) :
    course.leads world (attend pause below world).world := by
  unfold BehaviorTree.attend
  split
  · next hnone => exact course.putOffWait hnone
  · split
    · exact course.endWait world
    · dsimp only
      split
      · exact course.endWait world
      · exact course.startTimer world pause

/-- The relation holds along every operation on one child, and all children together are advanced
one after the other. -/
structure Leads (crew : Crew μ) : Prop where
  /-- The relation holds along every execution of a child. -/
  advance : ∀ index run below world,
    course.leads world (crew.advance index run below world).world
  /-- The children are advanced one after the other. -/
  sideBySide : ∃ count, crew.advanceAll = advanceEach crew.advance count 0

namespace Leads

variable {course} {crew : Crew μ}

/-- The relation holds along a turn for each of several children. -/
theorem advanceEach (hcrew : course.Leads crew) (count start : Nat) (slots : List (Slot Run))
    (below : μ) (world : World) :
    course.leads world
      (BehaviorTree.advanceEach crew.advance count start slots below world).world := by
  induction count generalizing start slots below world with
  | zero => exact course.refl world
  | succ count ih =>
    cases slots with
    | nil => exact course.refl world
    | cons slot slots =>
      rw [BehaviorTree.advanceEach]
      split
      · exact ih (start + 1) slots below world
      · have hchild := hcrew.advance start slot.run? below world
        rw [Progress.andThen_eq, Progress.world_after]
        split
        · exact hchild
        · exact course.trans hchild (ih (start + 1) slots _ _)

/-- The relation holds along what follows when the first child has had its turn. -/
theorem afterFirst (hcrew : course.Leads crew) (count start : Nat) (slots : List (Slot Run))
    (below : μ) (world : World) :
    course.leads (crew.advance start none below world).world
      (BehaviorTree.advanceEach crew.advance (count + 1) start (.fresh :: slots) below
        world).world := by
  rw [advanceEach_cons rfl, Progress.andThen_eq, Progress.world_after]
  split
  · exact course.refl _
  · exact hcrew.advanceEach count (start + 1) slots _ _

/-- The relation holds along a turn for all children. -/
theorem advanceAll (hcrew : course.Leads crew) (slots : List (Slot Run)) (below : μ)
    (world : World) : course.leads world (crew.advanceAll slots below world).world := by
  obtain ⟨count, heach⟩ := hcrew.sideBySide
  rw [heach]
  exact hcrew.advanceEach count 0 slots below world

/-- The relation holds along a turn for a child of a crowd. -/
theorem advanceMember (hcrew : course.Leads crew) (tour : Tour) (index : Nat) (below : μ)
    (world : World) :
    course.leads world (crew.advanceMember tour index below world).world :=
  course.handTo _ (hcrew.advance index (tour.run? index) below _)

/-- The relation holds along a tour of the called children. -/
theorem advanceCalled (hcrew : course.Leads crew) (fuel : Nat) (tour : Tour) (below : μ)
    (world : World) : course.leads world (crew.advanceCalled fuel tour below world).world := by
  induction fuel generalizing tour below world with
  | zero => exact course.refl world
  | succ fuel ih =>
    rw [Crew.advanceCalled]
    split
    · exact course.refl world
    · next index called hcalled =>
      dsimp only
      split
      · exact ih _ below world
      · have hmember := hcrew.advanceMember { tour with called } index below world
        rw [Progress.andThen_eq, Progress.world_after]
        split
        · exact hmember
        · exact course.trans hmember (ih _ _ _)
        · split
          · exact hmember
          · exact course.trans hmember (ih _ _ _)

/-- What follows in a tour when a child has had the turn. -/
theorem afterMember (hcrew : course.Leads crew) {tour : Tour} {index : Nat} {called : List Nat}
    (hcalled : tour.called = index :: called) (hanswer : tour.hasAnswer index = false) (fuel : Nat)
    (below : μ) (world : World) :
    course.leads (crew.advanceMember { tour with called } index below world).world
      (crew.advanceCalled (fuel + 1) tour below world).world := by
  rw [Crew.advanceCalled_member hcalled hanswer]
  dsimp only
  rw [Progress.world_after]
  split
  · exact course.refl _
  · exact hcrew.advanceCalled fuel _ _ _
  · split
    · exact course.refl _
    · exact hcrew.advanceCalled fuel _ _ _

/-- The relation holds along the service of a request. -/
theorem serve (hcrew : course.Leads crew) (size : Nat) (request : Request) (below : μ)
    (world : World) : course.leads world (crew.serve size request below world).world := by
  cases request with
  | finish status => exact course.refl world
  | crash => exact course.refl world
  | run mark index => exact hcrew.advance index none below world
  | runAll =>
    rw [Crew.serve, Crew.beginAll]
    split
    · exact hcrew.advanceAll _ below world
    · exact course.trans (course.formCrowd world) (hcrew.advanceCalled _ _ below _)
  | sleep mark duration => exact course.attend _ below world
  | race index limit => exact course.trans (course.startTask world) (course.attend _ below _)
  | resetChild index => exact course.refl world
  | abortChild index => exact course.refl world

/-- The relation holds along the taking up of a suspended execution. -/
theorem recheck (hcrew : course.Leads crew) (run : Run) (below : μ) (world : World) :
    course.leads world (crew.recheck run below world).world := by
  cases run with
  | child mark index run => exact hcrew.advance index (some run) below world
  | paused pause => exact course.attend pause below world
  | together slots => exact hcrew.advanceAll slots below world
  | crowd id slots called => exact hcrew.advanceCalled _ _ below world

/-- The relation holds along a drive of a node. -/
theorem drive (hcrew : course.Leads crew) (name : String) (kind : Kind κ) (size fuel : Nat)
    (reply : Reply) (cell : Cell kind.State) (below : μ) (world : World) :
    course.leads world (crew.drive name kind size fuel reply cell below world).world := by
  induction fuel generalizing reply cell below world with
  | zero => cases reply <;> exact course.refl world
  | succ fuel ih =>
    cases reply with
    | stop outcome => exact course.refl world
    | signal signal =>
      rw [Crew.drive_signal]
      generalize kind.respond _ cell.state signal = move
      have hwritten := course.write world cell.binding move.writes
      have hserved := hcrew.serve size move.request below (world.write cell.binding move.writes).1
      exact course.trans hwritten (course.trans hserved (ih _ _ _ _))

/-- The relation holds along a turn of a node. -/
theorem turn (hcrew : course.Leads crew) (name : String) (kind : Kind κ) (size : Nat)
    (run : Option Run) (cell : Cell kind.State) (below : μ) (world : World) :
    course.leads world (crew.turn name kind size run cell below world).world := by
  cases run with
  | none => exact hcrew.drive name kind size _ (.signal .started) cell below world
  | some run =>
    exact course.trans (hcrew.recheck run below world) (hcrew.drive name kind size _ _ cell _ _)

end Leads

/-- The relation holds along a stretch of execution of one child if it does for each tree. -/
theorem advanceChild {trees : List (Tree κ)}
    (htrees : ∀ tree ∈ trees, ∀ run (memory : Memory tree) world,
      course.leads world (advance tree run memory world).world)
    (index : Nat) (run : Option Run) (below : Memories trees) (world : World) :
    course.leads world (advanceChild trees index run below world).world := by
  induction trees generalizing index with
  | nil =>
    cases below
    exact course.refl world
  | cons tree trees ih =>
    cases below with
    | cons first rest =>
      cases index with
      | zero => exact htrees tree (by simp) run first world
      | succ index =>
        exact ih (fun tree hmem => htrees tree (List.mem_cons_of_mem _ hmem)) index rest

/-- The relation holds along every stretch of execution. -/
theorem advance (tree : Tree κ) (run : Option Run) (memory : Memory tree) (world : World) :
    course.leads world (advance tree run memory world).world := by
  induction tree using Tree.nodeInduction generalizing run world with
  | node name kind children ih =>
    cases memory with
    | node cell below =>
      have hcrew : course.Leads (crewOf children) :=
        ⟨course.advanceChild fun tree hmem run memory world => ih tree hmem run memory world,
          children.length, advanceAll_eq children⟩
      rw [advance_eq, Crew.turnOf_eq]
      exact hcrew.turn name kind children.length run cell below world

/-- The crew of children has stretches of execution along which the relation holds. -/
theorem leads_crewOf (children : List (Tree κ)) : course.Leads (crewOf children) where
  advance := course.advanceChild fun tree _ => course.advance tree
  sideBySide := ⟨children.length, advanceAll_eq children⟩

end Course

/-! ## Delays -/

namespace World

/-- How often a wait has held an execution up: it was put off, or its timer was started. -/
def delays (world : World) : Nat := world.putOff.length + world.timersStarted

end World

/-- What has held an execution up is not forgotten. -/
def Course.delayed : Course where
  leads := fun world later => world.delays ≤ later.delays
  refl := fun _ => Nat.le_refl _
  trans := Nat.le_trans
  write := by
    intro world binding writes
    cases binding <;> exact Nat.le_refl _
  putOffWait := by
    intro world _
    simp [World.delays, World.putOffWait]
  endWait := fun _ => Nat.le_refl _
  startTimer := by
    intro world pause
    rw [World.startTimer]
    split
    · exact Nat.le_refl _
    · exact Nat.le_succ _
  startTask := fun _ => Nat.le_refl _
  formCrowd := fun _ => Nat.le_refl _
  handTo := fun _ hle => hle

/-! ## Waits that are put off -/

/-- In the course of a turn the time stands still and the waits that are left become fewer. As long
as there are any, no wait is put off. -/
structure World.Elapses (world later : World) : Prop where
  /-- The time is the same. -/
  now_eq : later.now = world.now
  /-- No more waits are left than before. -/
  waitsLeft_le : later.waitsLeft ≤ world.waitsLeft
  /-- A wait that was put off before is still put off. -/
  putOff_subset : ∀ party ∈ world.putOff, party ∈ later.putOff
  /-- If waits are left, no other wait has been put off. -/
  putOff_eq : 0 < later.waitsLeft → later.putOff = world.putOff

/-- Every step of an execution lets waits elapse and no time pass. -/
def Course.elapsing : Course where
  leads := World.Elapses
  refl := fun _ => ⟨rfl, Nat.le_refl _, fun _ hmem => hmem, fun _ => rfl⟩
  trans := fun hfirst hrest => ⟨hrest.now_eq.trans hfirst.now_eq,
    Nat.le_trans hrest.waitsLeft_le hfirst.waitsLeft_le,
    fun party hmem => hrest.putOff_subset party (hfirst.putOff_subset party hmem),
    fun hleft => (hrest.putOff_eq hleft).trans
      (hfirst.putOff_eq (Nat.lt_of_lt_of_le hleft hrest.waitsLeft_le))⟩
  write := by
    intro world binding writes
    cases binding <;> exact ⟨rfl, Nat.le_refl _, fun _ hmem => hmem, fun _ => rfl⟩
  putOffWait := fun {world} hnone => ⟨rfl, Nat.le_refl _,
    fun _ hmem => List.mem_append_left _ hmem,
    fun hleft => absurd hnone (Nat.pos_iff_ne_zero.mp hleft)⟩
  endWait := fun _ => ⟨rfl, Nat.sub_le _ _, fun _ hmem => hmem, fun _ => rfl⟩
  startTimer := by
    intro world pause
    rw [World.startTimer]
    split <;> exact ⟨rfl, Nat.le_refl _, fun _ hmem => hmem, fun _ => rfl⟩
  startTask := fun _ => ⟨rfl, Nat.le_refl _, fun _ hmem => hmem, fun _ => rfl⟩
  formCrowd := fun _ => ⟨rfl, Nat.le_refl _, fun _ hmem => hmem, fun _ => rfl⟩
  handTo := fun _ helapses => ⟨helapses.now_eq, helapses.waitsLeft_le, helapses.putOff_subset,
    helapses.putOff_eq⟩

end BehaviorTree
