import BehaviorTree.Proofs.Tree.Binding

/-!
# Numbers for timers and tasks

Timers and tasks are numbered in the order in which they are started. A stretch of execution takes
no time and takes new numbers only: whatever it waits for was waited for before, or was started in
the course of it (`numbers_advance`, `numbers_advanceAt`).
-/

namespace BehaviorTree

variable {κ : Type} [Application κ] {μ ν ρ τ : Type}

/-! ## What is waited for -/

/-- The started timers that an outcome waits for. -/
def Outcome.timers : Outcome → List Timer
  | .waiting run => run.timers
  | .answered _ | .failed _ => []

/-- The started timers that a reply waits for. -/
def Reply.timers : Reply → List Timer
  | .stop outcome => outcome.timers
  | .signal _ => []

/-- The started timers that children side by side wait for. -/
def timersOfAll : Except Fault (List (Slot Run)) → List Timer
  | .ok slots => slotTimers slots
  | .error _ => []

/-- The started timers that a tour waits for. -/
def timersOfTour : Except Fault Tour → List Timer
  | .ok tour => slotTimers tour.slots
  | .error _ => []

/-- The started timers that an execution waits for, if one is suspended. -/
def timersOf (run : Option Run) : List Timer := (run.map Run.timers).getD []

/-- A timer is waited for by children if one of them is suspended and waits for it. -/
theorem mem_slotTimers {timer : Timer} {slots : List (Slot Run)} :
    timer ∈ slotTimers slots ↔ ∃ run, .waiting run ∈ slots ∧ timer ∈ run.timers := by
  induction slots with
  | nil => simp [slotTimers]
  | cons slot slots ih => cases slot <;> simp [slotTimers, ih, or_and_right, exists_or]

/-- The timers of children are those of the first and those of the others. -/
theorem timersOf_run? (slot : Slot Run) (slots : List (Slot Run)) :
    slotTimers (slot :: slots) = timersOf slot.run? ++ slotTimers slots := by
  cases slot <;> simp [slotTimers, timersOf, Slot.run?]

/-- A child of a crowd waits for nothing that the crowd does not wait for. -/
theorem mem_slotTimers_of_run? {tour : Tour} {index : Nat} {timer : Timer}
    (hmem : timer ∈ timersOf (tour.run? index)) : timer ∈ slotTimers tour.slots := by
  rw [Tour.run?] at hmem
  cases hslot : tour.slots[index]? with
  | none => simp [hslot, timersOf] at hmem
  | some slot =>
    cases slot with
    | fresh => simp [hslot, timersOf, Slot.run?] at hmem
    | answered status => simp [hslot, timersOf, Slot.run?] at hmem
    | waiting run =>
      have htimer : timer ∈ run.timers := by simpa [hslot, timersOf, Slot.run?] using hmem
      exact mem_slotTimers.mpr ⟨run, List.mem_of_getElem? hslot, htimer⟩

/-- After one child has had its turn, the others wait for what they waited for. -/
theorem mem_slotTimers_set {slots : List (Slot Run)} {index : Nat} {slot : Slot Run} {timer : Timer}
    (hmem : timer ∈ slotTimers (slots.set index slot)) :
    timer ∈ slotTimers slots ∨ timer ∈ timersOf slot.run? := by
  obtain ⟨run, hrun, htimer⟩ := mem_slotTimers.mp hmem
  rcases List.mem_or_eq_of_mem_set hrun with hrun | rfl
  · exact .inl (mem_slotTimers.mpr ⟨run, hrun, htimer⟩)
  · exact .inr (by simpa [timersOf, Slot.run?] using htimer)

/-! ## Worlds -/

namespace World

/-- The later world has the same time, and its numbers have not been taken back. Nobody puts a wait
off but whoever has the turn and the children of crowds. -/
structure Grows (world later : World) : Prop where
  /-- The time is the same. -/
  now_eq : later.now = world.now
  /-- The results of tasks are the same. -/
  results_eq : later.results = world.results
  /-- The same party has the turn. -/
  present_eq : later.present = world.present
  /-- No number of a timer has been taken back. -/
  timers_le : world.timersStarted ≤ later.timersStarted
  /-- No number of a task has been taken back. -/
  tasks_le : world.tasksStarted ≤ later.tasksStarted
  /-- A wait put off is an old one, or that of whoever has the turn or of a child in a crowd. -/
  putOff : ∀ party ∈ later.putOff,
    party ∈ world.putOff ∨ party = world.present ∨ ∃ crowd index, party = .member crowd index

/-- A world grows into itself. -/
theorem Grows.refl (world : World) : world.Grows world :=
  ⟨rfl, rfl, rfl, Nat.le_refl _, Nat.le_refl _, fun _ hmem => .inl hmem⟩

/-- Growth of a world can be put together. -/
theorem Grows.trans {world middle later : World} (hfirst : world.Grows middle)
    (hrest : middle.Grows later) : world.Grows later where
  now_eq := hrest.now_eq.trans hfirst.now_eq
  results_eq := hrest.results_eq.trans hfirst.results_eq
  present_eq := hrest.present_eq.trans hfirst.present_eq
  timers_le := Nat.le_trans hfirst.timers_le hrest.timers_le
  tasks_le := Nat.le_trans hfirst.tasks_le hrest.tasks_le
  putOff := by
    intro party hmem
    rcases hrest.putOff party hmem with hmem | hpresent | hmember
    · exact hfirst.putOff party hmem
    · exact .inr (.inl (hpresent.trans hfirst.present_eq))
    · exact .inr (.inr hmember)

/-- Writing to a context takes no number and no time. -/
theorem grows_write (world : World) (binding : Binding) (writes : List (String × Value)) :
    world.Grows (world.write binding writes).1 := by
  cases binding with
  | own context => exact .refl world
  | shared id => exact ⟨rfl, rfl, rfl, Nat.le_refl _, Nat.le_refl _, fun _ hmem => .inl hmem⟩

/-- Forming a crowd takes no time and no number of a timer or task. -/
theorem grows_formCrowd (world : World) : world.Grows world.formCrowd.2 :=
  ⟨rfl, rfl, rfl, Nat.le_refl _, Nat.le_refl _, fun _ hmem => .inl hmem⟩

/-- Starting a task takes the next number of a task. -/
theorem grows_startTask (world : World) : world.Grows world.startTask.2 :=
  ⟨rfl, rfl, rfl, Nat.le_refl _, Nat.le_succ _, fun _ hmem => .inl hmem⟩

/-- A world grows while a child of a crowd has the turn. -/
theorem Grows.handTo {world later : World} {crowd index : Nat}
    (hgrows : (world.handTo (.member crowd index)).Grows later) :
    world.Grows (later.handTo world.present) where
  now_eq := hgrows.now_eq
  results_eq := hgrows.results_eq
  present_eq := rfl
  timers_le := hgrows.timers_le
  tasks_le := hgrows.tasks_le
  putOff := by
    intro party hmem
    rcases hgrows.putOff party hmem with hmem | hpresent | hmember
    · exact .inl hmem
    · exact .inr (.inr ⟨crowd, index, hpresent⟩)
    · exact .inr (.inr hmember)

end World

/-- The timer was started in between. -/
def Timer.StartedBetween (world later : World) (timer : Timer) : Prop :=
  ∃ order, timer.order = some order ∧ world.timersStarted ≤ order ∧ order < later.timersStarted

/-- The task was started in between, and it executes a tree below the root. -/
structure Spawn.StartedBetween (world later : World) (spawn : Spawn) : Prop where
  /-- The number of the task was not given away before. -/
  le_task : world.tasksStarted ≤ spawn.task
  /-- It has been given away since. -/
  task_lt : spawn.task < later.tasksStarted
  /-- The tree is below the root. -/
  path_ne_nil : spawn.path ≠ []

section

variable {world middle later : World}

/-- A timer that was started before a later world was started before the ones after it. -/
theorem Timer.StartedBetween.mono {timer : Timer} (hstarted : timer.StartedBetween world middle)
    (hgrows : middle.Grows later) : timer.StartedBetween world later := by
  obtain ⟨order, horder, hle, hlt⟩ := hstarted
  exact ⟨order, horder, hle, Nat.lt_of_lt_of_le hlt hgrows.timers_le⟩

/-- A timer that was started after a world was started after the ones before it. -/
theorem Timer.StartedBetween.before {timer : Timer} (hgrows : world.Grows middle)
    (hstarted : timer.StartedBetween middle later) : timer.StartedBetween world later := by
  obtain ⟨order, horder, hle, hlt⟩ := hstarted
  exact ⟨order, horder, Nat.le_trans hgrows.timers_le hle, hlt⟩

/-- A task that was started before a later world was started before the ones after it. -/
theorem Spawn.StartedBetween.mono {spawn : Spawn} (hstarted : spawn.StartedBetween world middle)
    (hgrows : middle.Grows later) : spawn.StartedBetween world later :=
  { hstarted with task_lt := Nat.lt_of_lt_of_le hstarted.task_lt hgrows.tasks_le }

/-- A task that was started after a world was started after the ones before it. -/
theorem Spawn.StartedBetween.before {spawn : Spawn} (hgrows : world.Grows middle)
    (hstarted : spawn.StartedBetween middle later) : spawn.StartedBetween world later :=
  { hstarted with le_task := Nat.le_trans hgrows.tasks_le hstarted.le_task }

end

/-! ## Stretches of execution -/

namespace Progress

/-- A stretch of execution begins in a world while some timers are waited for. The result waits for
some of these and for timers started in between, and tasks are started under new numbers. -/
structure Numbers (waits : ρ → List Timer) (held : List Timer) (world : World)
    (progress : Progress ρ μ) : Prop where
  /-- The numbers in the world only grow. -/
  grows : world.Grows progress.world
  /-- A timer that is waited for was waited for before, or was started in between. -/
  timers : ∀ timer ∈ waits progress.result,
    timer ∈ held ∨ timer.StartedBetween world progress.world
  /-- The tasks were started in between. -/
  spawned : ∀ spawn ∈ progress.spawned, spawn.StartedBetween world progress.world

namespace Numbers

variable {waits : ρ → List Timer} {held : List Timer} {world : World} {progress : Progress ρ μ}

/-- A stretch that starts no timer and no task takes no new numbers. -/
theorem still (hgrows : world.Grows progress.world)
    (htimers : ∀ timer ∈ waits progress.result, timer ∈ held) (hspawned : progress.spawned = []) :
    progress.Numbers waits held world := by
  refine ⟨hgrows, fun timer hmem => .inl (htimers timer hmem), ?_⟩
  rw [hspawned]
  exact List.forall_mem_nil _

/-- Nothing is started, and nothing is waited for any more. -/
theorem ended (hgrows : world.Grows progress.world) (htimers : waits progress.result = [])
    (hspawned : progress.spawned = []) : progress.Numbers waits held world := by
  refine .still hgrows (fun timer hmem => ?_) hspawned
  rw [htimers] at hmem
  cases hmem

/-- A stretch of execution takes new numbers only, also seen from the parent. -/
theorem under (hnumbers : progress.Numbers waits held world) (index : Nat) :
    (progress.under index).Numbers waits held world := by
  refine ⟨hnumbers.grows, hnumbers.timers, fun spawn hmem => ?_⟩
  obtain ⟨inner, hinner, rfl⟩ := List.mem_map.mp hmem
  exact { hnumbers.spawned inner hinner with path_ne_nil := List.cons_ne_nil _ _ }

/-- The result may be looked at in another way, and more may have been waited for. -/
theorem map (hnumbers : progress.Numbers waits held world) {waits' : τ → List Timer}
    {held' : List Timer} (result : ρ → τ) (memory : μ → ν)
    (hheld : ∀ timer ∈ held, timer ∈ held')
    (hwaits : ∀ timer ∈ waits' (result progress.result),
      timer ∈ held' ∨ timer ∈ waits progress.result) :
    (progress.map result memory).Numbers waits' held' world := by
  refine ⟨hnumbers.grows, fun timer hmem => ?_, hnumbers.spawned⟩
  rcases hwaits timer hmem with hmem | hmem
  · exact .inl hmem
  · exact (hnumbers.timers timer hmem).imp_left (hheld timer)

/-- Two stretches, one after the other, take new numbers only. -/
theorem next {later : Progress τ ν} {waits' : τ → List Timer} {held' : List Timer}
    (hnumbers : progress.Numbers waits held world)
    (hheld : ∀ timer ∈ held', timer ∈ held ∨ timer.StartedBetween world progress.world)
    (hlater : later.Numbers waits' held' progress.world) (journal : Journal) (again : Bool) :
    (later.after journal progress.spawned again).Numbers waits' held world := by
  refine ⟨hnumbers.grows.trans hlater.grows, fun timer hmem => ?_, fun spawn hmem => ?_⟩
  · rcases hlater.timers timer hmem with hmem | hstarted
    · exact (hheld timer hmem).imp_right fun hstarted => hstarted.mono hlater.grows
    · exact .inr (hstarted.before hnumbers.grows)
  · rcases List.mem_append.mp hmem with hmem | hmem
    · exact (hnumbers.spawned spawn hmem).mono hlater.grows
    · exact (hlater.spawned spawn hmem).before hnumbers.grows

/-- Two stretches of execution take new numbers only if each of them does. -/
theorem andThen {next : ρ → μ → World → Progress τ ν} {waits' : τ → List Timer}
    {held' : List Timer} (hnumbers : progress.Numbers waits held world)
    (hheld : ∀ timer ∈ held', timer ∈ held ∨ timer.StartedBetween world progress.world)
    (hnext : (next progress.result progress.memory progress.world).Numbers waits' held'
      progress.world) : (progress.andThen next).Numbers waits' held world :=
  hnumbers.next hheld hnext progress.journal progress.again

/-- What takes new numbers only does so since an earlier world. -/
theorem before {earlier : World} (hnumbers : progress.Numbers waits held world)
    (hgrows : earlier.Grows world) : progress.Numbers waits held earlier where
  grows := hgrows.trans hnumbers.grows
  timers := fun timer hmem => (hnumbers.timers timer hmem).imp_right fun hstarted =>
    hstarted.before hgrows
  spawned := fun spawn hmem => (hnumbers.spawned spawn hmem).before hgrows

end Numbers

end Progress

open Progress

/-- Starting a timer takes a new number. -/
theorem numbers_startTimer (pause : Pause) (below : μ) (world : World) :
    ({ result := .stop (.waiting (.paused (world.startTimer pause).1)), memory := below,
       world := (world.startTimer pause).2 } : Progress Reply μ).Numbers Reply.timers
      (Run.paused pause).timers world := by
  rw [World.startTimer]
  split
  · exact .still (.refl world) (fun _ hmem => hmem) rfl
  · refine ⟨⟨rfl, rfl, rfl, Nat.le_succ _, Nat.le_refl _, fun _ hmem => .inl hmem⟩, ?_,
      List.forall_mem_nil _⟩
    intro timer hmem
    refine .inr ⟨world.timersStarted, ?_, Nat.le_refl _, Nat.lt_succ_self _⟩
    cases pause with
    | sleep mark held =>
      have htimer : timer = { held with order := some world.timersStarted } := by
        simpa [Reply.timers, Outcome.timers, Run.timers, Pause.started, Pause.timer] using hmem
      rw [htimer]
    | race task held =>
      have htimer : timer = { held with order := some world.timersStarted } := by
        simpa [Reply.timers, Outcome.timers, Run.timers, Pause.started, Pause.timer] using hmem
      rw [htimer]

/-- Attending to a pause waits for its timer or for one with a new number. -/
theorem numbers_attend (pause : Pause) (below : μ) (world : World) :
    (attend pause below world).Numbers Reply.timers (Run.paused pause).timers world := by
  unfold attend
  split
  · refine .still ⟨rfl, rfl, rfl, Nat.le_refl _, Nat.le_refl _, fun party hmem => ?_⟩
      (fun _ hmem => hmem) rfl
    rcases List.mem_append.mp hmem with hmem | hmem
    · exact .inl hmem
    · exact .inr (.inl (List.mem_singleton.mp hmem))
  · have hended : world.Grows world.endWait :=
      ⟨rfl, rfl, rfl, Nat.le_refl _, Nat.le_refl _, fun _ hmem => .inl hmem⟩
    split
    · exact .ended hended rfl rfl
    · dsimp only
      split
      · exact .ended hended rfl rfl
      · exact numbers_startTimer pause below world

namespace Crew

variable {crew : Crew μ} {below : μ} {world : World}

/-- Every operation on one child takes new numbers only, and all children together are advanced one
after the other. -/
structure Numbers (crew : Crew μ) : Prop where
  /-- An execution of a child takes new numbers only. -/
  advance : ∀ index run below world,
    (crew.advance index run below world).Numbers Outcome.timers (timersOf run) world
  /-- The children are advanced one after the other. -/
  sideBySide : ∃ count, crew.advanceAll = advanceEach crew.advance count 0

/-- A child before the others does not wait for more than its slot says. -/
theorem numbers_cons {progress : Progress (Except Fault (List (Slot Run))) μ}
    {slots : List (Slot Run)} (hrest : progress.Numbers timersOfAll (slotTimers slots) world)
    (slot : Slot Run) :
    (progress.map (·.map (slot :: ·)) id).Numbers timersOfAll
      (timersOf slot.run? ++ slotTimers slots) world := by
  refine hrest.map _ _ (fun _ hmem => List.mem_append_right _ hmem) fun timer hmem => ?_
  cases hresult : progress.result with
  | error fault =>
    rw [hresult] at hmem
    cases hmem
  | ok later =>
    rw [hresult] at hmem
    have hsplit : timer ∈ timersOf slot.run? ∨ timer ∈ slotTimers later := by
      simpa [Except.map, timersOfAll, timersOf_run?] using hmem
    exact hsplit.imp_left (List.mem_append_left _)

namespace Numbers

/-- Advancing children one after the other takes new numbers only. -/
theorem advanceEach (hcrew : crew.Numbers) (count start : Nat) (slots : List (Slot Run))
    (below : μ) (world : World) :
    (BehaviorTree.advanceEach crew.advance count start slots below world).Numbers timersOfAll
      (slotTimers slots) world := by
  have hnone : ∀ timer ∈ timersOfAll (.ok []), timer ∈ slotTimers slots := by
    simp [timersOfAll, slotTimers]
  induction count generalizing start slots below world with
  | zero => exact .still (.refl world) hnone rfl
  | succ count ih =>
    cases slots with
    | nil => exact .still (.refl world) hnone rfl
    | cons slot slots =>
      have hrest := fun start below world =>
        ih start slots below world (by simp [timersOfAll, slotTimers])
      rw [BehaviorTree.advanceEach, timersOf_run?]
      split
      · exact numbers_cons (hrest _ _ _) slot
      · have hchild := hcrew.advance start slot.run? below world
        generalize crew.advance start slot.run? below world = child at hchild
        have hheld : ∀ timer ∈ Outcome.timers child.result ++ slotTimers slots,
            timer ∈ timersOf slot.run? ++ slotTimers slots ∨
              timer.StartedBetween world child.world := by
          intro timer hmem
          rcases List.mem_append.mp hmem with hmem | hmem
          · exact (hchild.timers timer hmem).imp_left (List.mem_append_left _)
          · exact .inl (List.mem_append_right _ hmem)
        have hunder : (child.under start).Numbers Outcome.timers
            (timersOf slot.run? ++ slotTimers slots) world :=
          { hchild.under start with
            timers := fun timer hmem => hheld timer (List.mem_append_left _ hmem) }
        refine hunder.andThen hheld ?_
        rw [Progress.result_under]
        cases child.result with
        | failed fault => exact .ended (.refl _) rfl rfl
        | answered status => exact numbers_cons (hrest _ _ _) (.answered status)
        | waiting run => exact numbers_cons (hrest _ _ _) (.waiting run)

/-- Advancing all children takes new numbers only. -/
theorem advanceAll (hcrew : crew.Numbers) (slots : List (Slot Run)) (below : μ) (world : World) :
    (crew.advanceAll slots below world).Numbers timersOfAll (slotTimers slots) world := by
  obtain ⟨count, heach⟩ := hcrew.sideBySide
  rw [heach]
  exact hcrew.advanceEach count 0 slots below world

/-- Advancing a child of a crowd takes new numbers only. -/
theorem advanceMember (hcrew : crew.Numbers) (tour : Tour) (index : Nat) (below : μ)
    (world : World) :
    (crew.advanceMember tour index below world).Numbers Outcome.timers
      (slotTimers tour.slots) world := by
  have hchild := hcrew.advance index (tour.run? index) below
    (world.handTo (.member tour.crowd index))
  refine ⟨hchild.grows.handTo, fun timer hmem => ?_, fun spawn hmem => ?_⟩
  · exact (hchild.timers timer hmem).imp_left mem_slotTimers_of_run?
  · have hstarted := hchild.spawned spawn hmem
    exact ⟨hstarted.le_task, hstarted.task_lt, hstarted.path_ne_nil⟩

/-- A tour of the called children takes new numbers only. -/
theorem advanceCalled (hcrew : crew.Numbers) (fuel : Nat) (tour : Tour) (below : μ)
    (world : World) :
    (crew.advanceCalled fuel tour below world).Numbers timersOfTour (slotTimers tour.slots)
      world := by
  induction fuel generalizing tour below world with
  | zero => exact .still (.refl world) (fun _ hmem => hmem) rfl
  | succ fuel ih =>
    rw [Crew.advanceCalled]
    split
    · exact .still (.refl world) (fun _ hmem => hmem) rfl
    · next index called hcalled =>
      dsimp only
      split
      · exact ih { tour with called } below world
      · have hmember := hcrew.advanceMember { tour with called } index below world
        generalize crew.advanceMember { tour with called } index below world = member at hmember
        have hheld : ∀ slot : Slot Run,
            (∀ timer ∈ timersOf slot.run?, timer ∈ Outcome.timers member.result) →
            ∀ timer ∈ slotTimers (tour.slots.set index slot), timer ∈ slotTimers tour.slots ∨
              timer.StartedBetween world member.world := by
          intro slot hslot timer hmem
          rcases mem_slotTimers_set hmem with hmem | hmem
          · exact .inl hmem
          · exact hmember.timers timer (hslot timer hmem)
        cases hresult : member.result with
        | failed fault =>
          refine (hmember.under index).andThen (fun _ hmem => .inl hmem) ?_
          rw [Progress.result_under, hresult]
          exact .ended (.refl _) rfl rfl
        | answered status =>
          refine (hmember.under index).andThen (hheld (.answered status) (List.forall_mem_nil _)) ?_
          rw [Progress.result_under, hresult]
          exact ih (Tour.answer { tour with called } index status) _ _
        | waiting run =>
          refine (hmember.under index).andThen (hheld (.waiting run) fun timer hmem => ?_) ?_
          · rw [hresult]
            exact hmem
          · rw [Progress.result_under, hresult]
            dsimp only
            split
            · exact .still (.refl _) (fun _ hmem => hmem) rfl
            · exact ih (Tour.suspend { tour with called } index run member.again) _ _

/-- The reply to one child waits for the timers that the child waits for. -/
theorem timers_replyOfChild (mark index : Nat) (outcome : Outcome) :
    (replyOfChild mark index outcome).timers = outcome.timers := by
  cases outcome with
  | answered status => rfl
  | waiting run => simp [replyOfChild, Reply.timers, Outcome.timers, Run.timers]
  | failed fault => rfl

/-- The reply to all children waits for timers that the children wait for. -/
theorem timers_replyOfAll {result : Except Fault (List (Slot Run))} {timer : Timer}
    (hmem : timer ∈ (replyOfAll result).timers) : timer ∈ timersOfAll result := by
  cases result with
  | error fault => cases hmem
  | ok slots =>
    rw [replyOfAll] at hmem
    split at hmem
    · cases hmem
    · simpa [Reply.timers, Outcome.timers, Run.timers, timersOfAll] using hmem

/-- The reply to a tour waits for timers that the tour waits for. -/
theorem timers_replyOfTour {result : Except Fault Tour} {timer : Timer}
    (hmem : timer ∈ (replyOfTour result).timers) : timer ∈ timersOfTour result := by
  cases result with
  | error fault => cases hmem
  | ok tour =>
    rw [replyOfTour] at hmem
    split at hmem
    · cases hmem
    · simpa [Reply.timers, Outcome.timers, Run.timers, timersOfTour] using hmem

/-- Serving a request takes new numbers only. -/
theorem serve (hcrew : crew.Numbers) (size : Nat) (request : Request) (below : μ)
    (world : World) :
    (crew.serve size request below world).Numbers Reply.timers [] world := by
  cases request with
  | finish status => exact .ended (.refl world) rfl rfl
  | crash => exact .ended (.refl world) rfl rfl
  | run mark index =>
    refine ((hcrew.advance index none below world).under index).map _ _ (fun _ hmem => hmem) ?_
    intro timer hmem
    rw [timers_replyOfChild] at hmem
    exact .inr hmem
  | runAll =>
    have hfresh : slotTimers (List.replicate size .fresh) = [] := by
      refine List.eq_nil_iff_forall_not_mem.mpr fun timer hmem => ?_
      obtain ⟨run, hrun, -⟩ := mem_slotTimers.mp hmem
      cases List.eq_of_mem_replicate hrun
    rw [Crew.serve, beginAll]
    split
    · have hall := hcrew.advanceAll (List.replicate size .fresh) below world
      rw [hfresh] at hall
      exact hall.map _ _ (fun _ hmem => hmem) fun _ hmem => .inr (timers_replyOfAll hmem)
    · let tour : Tour := .ofSlots world.formCrowd.1 (List.replicate size .fresh) (List.range size)
      have htour := hcrew.advanceCalled tour.bound tour below world.formCrowd.2
      have hslots : slotTimers tour.slots = [] := hfresh
      rw [hslots] at htour
      have hreply : ((crew.advanceCalled tour.bound tour below world.formCrowd.2).map replyOfTour
          id).Numbers Reply.timers [] world.formCrowd.2 :=
        htour.map _ _ (fun _ hmem => hmem) fun _ hmem => .inr (timers_replyOfTour hmem)
      exact hreply.before world.grows_formCrowd
  | sleep mark duration =>
    exact numbers_attend (.sleep mark ⟨world.now + duration, none⟩) below world
  | race index limit =>
    have hattended := numbers_attend (.race world.startTask.1 ⟨world.now + limit, none⟩) below
      world.startTask.2
    have hraced := hattended.before world.grows_startTask
    refine ⟨hraced.grows, hraced.timers, fun spawn hmem => ?_⟩
    rcases List.mem_append.mp hmem with hmem | hmem
    · obtain rfl := List.mem_singleton.mp hmem
      exact ⟨Nat.le_refl _, hattended.grows.tasks_le, List.cons_ne_nil _ _⟩
    · exact hraced.spawned spawn hmem
  | resetChild index => exact .ended (.refl world) rfl rfl
  | abortChild index => exact .ended (.refl world) rfl rfl

/-- Taking up a suspended execution takes new numbers only. -/
theorem recheck (hcrew : crew.Numbers) (run : Run) (below : μ) (world : World) :
    (crew.recheck run below world).Numbers Reply.timers run.timers world := by
  cases run with
  | child mark index run =>
    have hchild := (hcrew.advance index (some run) below world).under index
    refine hchild.map _ _ (fun timer hmem => ?_) fun timer hmem => ?_
    · simpa [timersOf, Run.timers] using hmem
    · rw [timers_replyOfChild] at hmem
      exact .inr hmem
  | paused pause => exact numbers_attend pause below world
  | together slots =>
    refine (hcrew.advanceAll slots below world).map _ _ (fun timer hmem => ?_) fun _ hmem =>
      .inr (timers_replyOfAll hmem)
    simpa [Run.timers] using hmem
  | crowd id slots called =>
    refine (hcrew.advanceCalled _ (.ofSlots id slots called) below world).map _ _
      (fun timer hmem => ?_) fun _ hmem => .inr (timers_replyOfTour hmem)
    simpa [Run.timers, Tour.ofSlots] using hmem

/-- Driving a node takes new numbers only. -/
theorem drive (hcrew : crew.Numbers) (name : String) (kind : Kind κ) (size fuel : Nat)
    (reply : Reply) (cell : Cell kind.State) (below : μ) (world : World) :
    (crew.drive name kind size fuel reply cell below world).Numbers Outcome.timers reply.timers
      world := by
  induction fuel generalizing reply cell below world with
  | zero =>
    cases reply with
    | stop outcome => exact .still (.refl world) (fun _ hmem => hmem) rfl
    | signal signal => exact .ended (.refl world) rfl rfl
  | succ fuel ih =>
    cases reply with
    | stop outcome =>
      rw [Crew.drive_stop]
      exact .still (.refl world) (fun _ hmem => hmem) rfl
    | signal signal =>
      rw [Crew.drive_signal]
      generalize kind.respond _ cell.state signal = move
      have hwritten := world.grows_write cell.binding move.writes
      have hserved := hcrew.serve size move.request below (world.write cell.binding move.writes).1
      exact (hserved.next hserved.timers (ih _ _ _ _) _ _).before hwritten

/-- A turn of a node takes new numbers only. -/
theorem turn (hcrew : crew.Numbers) (name : String) (kind : Kind κ) (size : Nat)
    (run : Option Run) (cell : Cell kind.State) (below : μ) (world : World) :
    (crew.turn name kind size run cell below world).Numbers Outcome.timers (timersOf run)
      world := by
  cases run with
  | none => exact hcrew.drive name kind size _ (.signal .started) cell below world
  | some run =>
    have hchecked := hcrew.recheck run below world
    have hdriven := hcrew.drive name kind size (kind.allowance size)
      (crew.recheck run below world).result cell (crew.recheck run below world).memory
      (crew.recheck run below world).world
    exact hchecked.next hchecked.timers hdriven _ _

end Numbers

end Crew

/-! ## Trees -/

/-- Every turn of a tree takes new numbers only. -/
def Tree.TakesNumbers (tree : Tree κ) : Prop :=
  ∀ run (memory : Memory tree) (world : World),
    (advance tree run memory world).Numbers Outcome.timers (timersOf run) world

/-- A stretch of execution of one child takes new numbers only if one of each tree does. -/
theorem numbers_advanceChild {trees : List (Tree κ)} (htrees : ∀ tree ∈ trees, tree.TakesNumbers)
    (index : Nat) (run : Option Run) (below : Memories trees) (world : World) :
    (advanceChild trees index run below world).Numbers Outcome.timers (timersOf run) world := by
  induction trees generalizing index with
  | nil =>
    cases below
    exact .ended (.refl world) rfl rfl
  | cons tree trees ih =>
    cases below with
    | cons first rest =>
      cases index with
      | zero =>
        exact (htrees tree (by simp) run first world).map id _ (fun _ hmem => hmem) fun _ hmem =>
          .inr hmem
      | succ index =>
        have hrest := ih (fun tree hmem => htrees tree (List.mem_cons_of_mem _ hmem)) index rest
        exact hrest.map id _ (fun _ hmem => hmem) fun _ hmem => .inr hmem

/-- Every turn takes new numbers only. -/
theorem numbers_advance (tree : Tree κ) : tree.TakesNumbers := by
  induction tree using Tree.nodeInduction with
  | node name kind children ih =>
    intro run memory world
    cases memory with
    | node cell below =>
      have hcrew : (crewOf children).Numbers :=
        ⟨numbers_advanceChild ih, children.length, advanceAll_eq children⟩
      have hturn := hcrew.turn name kind children.length run cell below world
      rw [advance_eq, Crew.turnOf_eq]
      exact ⟨hturn.grows, hturn.timers, hturn.spawned⟩

/-- A turn of a tree inside takes new numbers only. -/
theorem numbers_advanceAt {tree : Tree κ} (path : Path) (run : Option Run) (memory : Memory tree)
    (world : World) :
    (advanceAt tree path run memory world).Numbers Outcome.timers (timersOf run) world := by
  induction path generalizing tree with
  | nil =>
    rw [advanceAt_nil]
    exact numbers_advance tree run memory world
  | cons index path ih =>
    have hinner : ∀ (trees : List (Tree κ)) (index : Nat) (below : Memories trees),
        (advanceAt.advanceIn trees index path run below world).Numbers Outcome.timers
          (timersOf run) world := by
      intro trees
      induction trees with
      | nil =>
        intro index below
        cases below
        exact .ended (.refl world) rfl rfl
      | cons first trees ihTrees =>
        intro index below
        cases below with
        | cons memory rest =>
          cases index with
          | zero => exact (ih memory).map id _ (fun _ hmem => hmem) fun _ hmem => .inr hmem
          | succ index =>
            exact (ihTrees index rest).map id _ (fun _ hmem => hmem) fun _ hmem => .inr hmem
    cases memory with
    | node cell below =>
      exact ((hinner _ index below).under index).map id _ (fun _ hmem => hmem) fun _ hmem =>
        .inr hmem

end BehaviorTree
