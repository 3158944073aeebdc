import BehaviorTree.Proofs.Tree.WorldRelation
import BehaviorTree.Proofs.Tree.Footprint
import BehaviorTree.Proofs.Tree.View

/-!
# Executions that do not wait

An execution may go on without ever being held up: no wait is put off and no timer is started. Then
it ends at once, and what it leaves of the world is an effect: it writes to the shared context, ends
some waits, and takes numbers for tasks and crowds. The same execution has the same effect in every
world of the same time in which the shared context holds the same under the keys that the tree reads
and as many waits may end (`Tree.repeats`).
-/

namespace BehaviorTree

variable {κ : Type} [Application κ] {ρ τ μ ν : Type}

/-! ## Effects -/

/-- What an execution that does not wait leaves of the world. -/
structure Effect where
  /-- What is written to the shared context, in order. -/
  writes : List (String × Value) := []
  /-- The number of waits that end. -/
  waits : Nat := 0
  /-- The number of tasks that are started. -/
  tasks : Nat := 0
  /-- The number of crowds that are formed. -/
  crowds : Nat := 0

namespace Effect

/-- The world after an effect. The writes go to the shared context with a number. -/
def on (number : Nat) (effect : Effect) (world : World) : World :=
  { world with
    contexts := world.contexts.modify number (·.setAll effect.writes)
    waitsLeft := world.waitsLeft - effect.waits
    tasksStarted := world.tasksStarted + effect.tasks
    crowdsFormed := world.crowdsFormed + effect.crowds }

/-- One effect after the other. -/
def andThen (first second : Effect) : Effect where
  writes := first.writes ++ second.writes
  waits := first.waits + second.waits
  tasks := first.tasks + second.tasks
  crowds := first.crowds + second.crowds

/-- Without an effect the world stays as it is. -/
theorem on_nothing (number : Nat) (world : World) : ({} : Effect).on number world = world := by
  have hcontexts : world.contexts.modify number (·.setAll []) = world.contexts :=
    List.modify_id number world.contexts
  rw [on, hcontexts]
  rfl

/-- The effect of two effects is that of the second after the first. -/
theorem on_andThen (number : Nat) (first second : Effect) (world : World) :
    (first.andThen second).on number world = second.on number (first.on number world) := by
  have hcontexts : world.contexts.modify number (·.setAll (first.writes ++ second.writes)) =
      (world.contexts.modify number (·.setAll first.writes)).modify number
        (·.setAll second.writes) := by
    rw [List.modify_modify_eq]
    congr 1
    funext context
    exact List.foldl_append
  simp only [on, andThen, hcontexts, Nat.sub_sub, Nat.add_assoc]

end Effect

namespace World

/-- There is a shared context with this number, and no result of a task that has not been
started. -/
structure IsReady (number : Nat) (world : World) : Prop where
  /-- The shared context exists. -/
  id_lt : number < world.contexts.length
  /-- No result is known of a task that has not been started. -/
  fresh : ∀ task, world.tasksStarted ≤ task → world.result? task = none

/-- The same time in two worlds, and the same under some keys of the shared context. -/
structure Suits (number : Nat) (keys : List String) (world other : World) : Prop where
  /-- The first world is ready. -/
  ready : world.IsReady number
  /-- The second world is ready. -/
  otherReady : other.IsReady number
  /-- It is the same time in both. -/
  now_eq : other.now = world.now
  /-- The shared context has the same values under the keys. -/
  agrees : (world.context (.shared number)).Agrees keys (other.context (.shared number))

variable {number : Nat} {keys : List String} {world other : World}

/-- An effect leaves a world ready. -/
theorem IsReady.on (hready : world.IsReady number) (effect : Effect) :
    (effect.on number world).IsReady number where
  id_lt := by
    rw [Effect.on, List.length_modify]
    exact hready.id_lt
  fresh := fun task hle => hready.fresh task (Nat.le_trans (Nat.le_add_right _ _) hle)

/-- A world is ready whoever has the turn. -/
theorem IsReady.handTo (hready : world.IsReady number) (party : Party) :
    (world.handTo party).IsReady number := ⟨hready.id_lt, hready.fresh⟩

/-- An effect puts its writes into the shared context. -/
theorem IsReady.context_on (hready : world.IsReady number) (effect : Effect) :
    (effect.on number world).context (.shared number) =
      (world.context (.shared number)).setAll effect.writes := by
  have hlt := hready.id_lt
  simp [context, Effect.on, hlt]

/-- A world that is ready suits itself. -/
theorem IsReady.suits (hready : world.IsReady number) (keys : List String) :
    world.Suits number keys world := ⟨hready, hready, rfl, fun _ _ => rfl⟩

/-- The same effect leaves worlds suited to each other. -/
theorem Suits.on (hsuits : world.Suits number keys other) (effect : Effect) :
    (effect.on number world).Suits number keys (effect.on number other) where
  ready := hsuits.ready.on effect
  otherReady := hsuits.otherReady.on effect
  now_eq := hsuits.now_eq
  agrees := by
    rw [hsuits.ready.context_on, hsuits.otherReady.context_on]
    exact hsuits.agrees.setAll effect.writes

/-- Worlds that suit each other under some keys do so under fewer. -/
theorem Suits.mono {fewer : List String} (hsuits : world.Suits number keys other)
    (hfewer : fewer ⊆ keys) : world.Suits number fewer other :=
  { hsuits with agrees := hsuits.agrees.mono hfewer }

end World

/-! ## Repetition -/

/-- What a stretch of execution comes to, apart from its journal. -/
structure Progress.EndsWith (progress : Progress ρ μ) (result : ρ) (memory : μ) (world : World) :
    Prop where
  /-- It has this result. -/
  result_eq : progress.result = result
  /-- It leaves this memory. -/
  memory_eq : progress.memory = memory
  /-- It leaves this world. -/
  world_eq : progress.world = world

/-- Two stretches of execution come to the same, apart from their journals. -/
def Progress.EndsLike (progress other : Progress ρ μ) : Prop :=
  progress.EndsWith other.result other.memory other.world

/-- A stretch of execution comes to the same as itself. -/
theorem Progress.EndsLike.rfl {progress : Progress ρ μ} : progress.EndsLike progress :=
  ⟨Eq.refl _, Eq.refl _, Eq.refl _⟩

/-- Stretches of execution that come to the same do so under maps of results and memories. -/
theorem Progress.EndsLike.map {progress other : Progress ρ μ} (hlike : progress.EndsLike other)
    (result : ρ → τ) (memory : μ → ν) :
    (progress.map result memory).EndsLike (other.map result memory) :=
  ⟨congrArg result hlike.result_eq, congrArg memory hlike.memory_eq, hlike.world_eq⟩

/-- Seen from the parent, a stretch of execution comes to the same. -/
theorem Progress.EndsWith.under {progress : Progress ρ μ} {result : ρ} {memory : μ}
    {world : World} (hends : progress.EndsWith result memory world) (index : Nat) :
    (progress.under index).EndsWith result memory world :=
  ⟨hends.result_eq, hends.memory_eq, hends.world_eq⟩

/-- What follows a stretch of execution begins where that has ended. -/
theorem Progress.EndsWith.andThen {progress : Progress ρ μ} {result : ρ} {memory : μ}
    {world : World} (hends : progress.EndsWith result memory world)
    (next : ρ → μ → World → Progress τ ν) :
    (progress.andThen next).EndsLike (next result memory world) := by
  rw [Progress.andThen_eq, hends.result_eq, hends.memory_eq, hends.world_eq]
  exact ⟨rfl, rfl, rfl⟩

/-- A stretch of execution that begins in a world ends with an effect on the shared context with a
number, and wherever it is repeated it ends in the same way with the same effect. It reads and
writes nothing but the given keys. -/
structure Repeats (number : Nat) (reads written : List String) (ended : ρ → Prop)
    (go : World → Progress ρ μ) (world : World) (effect : Effect) : Prop where
  /-- The world is ready. -/
  ready : world.IsReady number
  /-- The result is an end. -/
  ended : ended (go world).result
  /-- The waits that it takes are left in the world. -/
  waits_le : effect.waits ≤ world.waitsLeft
  /-- Only the given keys are written. -/
  written : ∀ write ∈ effect.writes, write.1 ∈ written
  /-- In every world that suits, the end and the effect are the same. -/
  same : ∀ other, world.Suits number reads other → effect.waits ≤ other.waitsLeft →
    (go other).EndsWith (go world).result (go world).memory (effect.on number other)

namespace Repeats

variable {number : Nat} {reads written : List String} {ended : ρ → Prop} {ends : τ → Prop}
  {go : World → Progress ρ μ} {world : World} {effect : Effect}

/-- A stretch of execution that can be repeated leaves the world as its effect does. -/
theorem world_eq (hrepeats : Repeats number reads written ended go world effect) :
    (go world).world = effect.on number world :=
  (hrepeats.same world (hrepeats.ready.suits reads) hrepeats.waits_le).world_eq

/-- A stretch that leaves the world as it is can be repeated without any effect. -/
theorem still (hready : world.IsReady number) {result : ρ} {memory : μ} {journal : World → Journal}
    (hended : ended result) :
    Repeats number reads written ended
      (fun world => { result, memory, world, journal := journal world }) world {} where
  ready := hready
  ended := hended
  waits_le := Nat.zero_le _
  written := List.forall_mem_nil _
  same := fun other _ _ => ⟨rfl, rfl, (Effect.on_nothing number other).symm⟩

/-- An effect comes first, and the rest of the stretch is repeated after it. -/
theorem after {inner : World → Progress ρ μ} {first : Effect}
    (hready : world.IsReady number) (hwaits : first.waits ≤ world.waitsLeft)
    (hwritten : ∀ write ∈ first.writes, write.1 ∈ written)
    (hfirst : ∀ other, world.Suits number reads other → first.waits ≤ other.waitsLeft →
      (go other).EndsLike (inner (first.on number other)))
    (hinner : Repeats number reads written ended inner (first.on number world) effect) :
    Repeats number reads written ended go world (first.andThen effect) := by
  have hself := hfirst world (hready.suits reads) hwaits
  have hleft : effect.waits ≤ world.waitsLeft - first.waits := hinner.waits_le
  refine ⟨hready, ?_, ?_, fun write hmem => ?_, fun other hsuits hle => ?_⟩
  · rw [hself.result_eq]
    exact hinner.ended
  · have hsum : (first.andThen effect).waits = first.waits + effect.waits := rfl
    omega
  · rcases List.mem_append.mp hmem with hmem | hmem
    · exact hwritten write hmem
    · exact hinner.written write hmem
  · have hsum : first.waits + effect.waits ≤ other.waitsLeft := hle
    have hother := hfirst other hsuits (by omega)
    have hleft : (first.on number other).waitsLeft = other.waitsLeft - first.waits := rfl
    have hrest : effect.waits ≤ (first.on number other).waitsLeft := by omega
    have hsame := hinner.same (first.on number other) (hsuits.on first) hrest
    refine ⟨?_, ?_, ?_⟩
    · rw [hother.result_eq, hsame.result_eq, hself.result_eq]
    · rw [hother.memory_eq, hsame.memory_eq, hself.memory_eq]
    · rw [hother.world_eq, hsame.world_eq, Effect.on_andThen]

/-- Two stretches, one after the other, are repeated with the effect of both. -/
theorem andThen {next : ρ → μ → World → Progress τ ν} {first second : Effect}
    (hfirst : Repeats number reads written ended go world first)
    (hnext : Repeats number reads written ends (next (go world).result (go world).memory)
      (go world).world second) :
    Repeats number reads written ends (fun world => (go world).andThen next) world
      (first.andThen second) := by
  rw [hfirst.world_eq] at hnext
  refine .after hfirst.ready hfirst.waits_le hfirst.written (fun other hsuits hle => ?_) hnext
  have hsame := hfirst.same other hsuits hle
  rw [Progress.andThen_eq, hsame.result_eq, hsame.memory_eq, hsame.world_eq]
  exact ⟨rfl, rfl, rfl⟩

/-- The result and the memory may be seen differently. -/
theorem map (hrepeats : Repeats number reads written ended go world effect) (result : ρ → τ)
    (memory : μ → ν) (hends : ends (result (go world).result)) :
    Repeats number reads written ends (fun world => (go world).map result memory) world effect where
  ready := hrepeats.ready
  ended := hends
  waits_le := hrepeats.waits_le
  written := hrepeats.written
  same := by
    intro other hsuits hle
    have hsame := hrepeats.same other hsuits hle
    exact ⟨congrArg result hsame.result_eq, congrArg memory hsame.memory_eq, hsame.world_eq⟩

/-- More keys may be read and written. -/
theorem mono {fewerReads fewerWritten : List String}
    (hrepeats : Repeats number fewerReads fewerWritten ended go world effect)
    (hreads : fewerReads ⊆ reads) (hwritten : fewerWritten ⊆ written) :
    Repeats number reads written ended go world effect where
  ready := hrepeats.ready
  ended := hrepeats.ended
  waits_le := hrepeats.waits_le
  written := fun write hmem => hwritten (hrepeats.written write hmem)
  same := fun other hsuits hle => hrepeats.same other (hsuits.mono hreads) hle

end Repeats

/-! ## Waits that end at once -/

section

variable {number : Nat} {reads written : List String} {world : World}

/-- A reply that does not hold a node up. -/
def Reply.Ends : Reply → Prop
  | .stop (.waiting _) => False
  | _ => True

/-- An outcome that does not leave anything suspended. -/
def Outcome.Ends : Outcome → Prop
  | .waiting _ => False
  | _ => True

/-- Attending to a pause changes nothing at the children. -/
theorem memory_attend (pause : Pause) (below : μ) (world : World) :
    (attend pause below world).memory = below := by
  -- attending to it with nothing at all is enough, seen through a view that knows the children
  rw [← Crew.map_attend (fun _ : Unit => below) pause () world]
  rfl

/-- A pause with a new timer that does not hold a node up is over: its time has come. -/
theorem attend_of_undelayed {pause : Pause} {below : μ} (horder : pause.timer.order = none)
    (hresult : ∀ task timer, pause = .race task timer → world.result? task = none)
    (hdelays : (attend pause below world).world.delays = world.delays) :
    world.waitsLeft ≠ 0 ∧ pause.timer.due ≤ world.now := by
  by_cases hleft : world.waitsLeft = 0
  · have hputOff : (attend pause below world).world = world.putOffWait := by
      rw [attend.eq_def, if_pos hleft]
    rw [hputOff] at hdelays
    simp only [World.delays, World.putOffWait, List.length_append, List.length_singleton] at hdelays
    omega
  · by_cases hdue : pause.timer.due ≤ world.now
    · exact ⟨hleft, hdue⟩
    · have hstarted : (attend pause below world).world = (world.startTimer pause).2 := by
        cases pause with
        | sleep mark timer => rw [attend.eq_def, if_neg hleft, if_neg hdue]
        | race task timer =>
          have hnone : world.result? task = none := hresult task timer rfl
          simp only [attend.eq_def, if_neg hleft, if_neg hdue, hnone]
      have hlater : (world.startTimer pause).2.delays = world.delays + 1 := by
        rw [World.startTimer, horder]
        rfl
      rw [hstarted] at hdelays
      omega

/-- What follows when the time of a pause has come. -/
def Pause.passed : Pause → Signal
  | .sleep mark _ => .woken mark
  | .race _ _ => .expired

/-- A pause whose time has come ends if a wait may end. -/
theorem attend_of_due {pause : Pause} (below : μ) (hleft : world.waitsLeft ≠ 0)
    (hdue : pause.timer.due ≤ world.now) :
    attend pause below world =
      { result := .signal pause.passed, memory := below, world := world.endWait } := by
  rw [attend.eq_def, if_neg hleft, if_pos hdue]
  cases pause <;> rfl

/-- Ending a wait is an effect. -/
theorem endWait_eq (number : Nat) (world : World) :
    world.endWait = ({ waits := 1 } : Effect).on number world := by
  have hcontexts : world.contexts.modify number (·.setAll []) = world.contexts :=
    List.modify_id number world.contexts
  simp [World.endWait, Effect.on, hcontexts]

/-- Starting a task is an effect. -/
theorem startTask_eq (number : Nat) (world : World) :
    world.startTask.2 = ({ tasks := 1 } : Effect).on number world := by
  have hcontexts : world.contexts.modify number (·.setAll []) = world.contexts :=
    List.modify_id number world.contexts
  simp [World.startTask, Effect.on, hcontexts]

/-- Forming a crowd is an effect. -/
theorem formCrowd_eq (number : Nat) (world : World) :
    world.formCrowd.2 = ({ crowds := 1 } : Effect).on number world := by
  have hcontexts : world.contexts.modify number (·.setAll []) = world.contexts :=
    List.modify_id number world.contexts
  simp [World.formCrowd, Effect.on, hcontexts]

/-- A sleep that does not hold a node up is repeated as the end of a wait. -/
theorem repeats_sleep (mark duration : Nat) (below : μ) (hready : world.IsReady number)
    (hdelays : (attend (.sleep mark ⟨world.now + duration, none⟩) below world).world.delays =
      world.delays) :
    Repeats number reads written Reply.Ends
      (fun world => attend (.sleep mark ⟨world.now + duration, none⟩) below world) world
      { waits := 1 } := by
  obtain ⟨hleft, hdue⟩ := attend_of_undelayed rfl (fun _ _ hrace => by cases hrace) hdelays
  have hover : ∀ other : World, other.now = world.now → 1 ≤ other.waitsLeft →
      attend (.sleep mark ⟨other.now + duration, none⟩) below other =
        { result := .signal (.woken mark), memory := below, world := other.endWait } := by
    intro other hnow hleft
    refine attend_of_due below (by omega) ?_
    rw [hnow]
    exact hdue
  have hpos : 1 ≤ world.waitsLeft := by omega
  refine ⟨hready, ?_, hpos, List.forall_mem_nil _, fun other hsuits hle => ?_⟩
  · rw [hover world rfl hpos]
    trivial
  · rw [hover other hsuits.now_eq hle, hover world rfl hpos]
    exact ⟨rfl, rfl, endWait_eq number other⟩

/-- A race that does not hold a node up: its limit is reached at once. -/
theorem repeats_race (size index limit : Nat) (crew : Crew μ) (below : μ)
    (hready : world.IsReady number)
    (hdelays : (crew.serve size (.race index limit) below world).world.delays = world.delays) :
    Repeats number reads written Reply.Ends (crew.serve size (.race index limit) below) world
      { waits := 1, tasks := 1 } := by
  have hserve : ∀ other : World, crew.serve size (.race index limit) below other =
      (attend (.race other.startTask.1 ⟨other.now + limit, none⟩) below other.startTask.2).after []
        [⟨other.startTask.1, [index]⟩] false := fun _ => rfl
  have hnone : world.result? world.tasksStarted = none := hready.fresh _ (Nat.le_refl _)
  have hundelayed : (attend (.race world.startTask.1 ⟨world.now + limit, none⟩) below
      world.startTask.2).world.delays = world.startTask.2.delays := hdelays
  obtain ⟨hleft, hdue⟩ := attend_of_undelayed rfl
    (fun task timer hrace => by cases hrace; exact hnone) hundelayed
  have hover : ∀ other : World, other.now = world.now → 1 ≤ other.waitsLeft →
      attend (.race other.startTask.1 ⟨other.now + limit, none⟩) below other.startTask.2 =
        { result := .signal .expired, memory := below, world := other.startTask.2.endWait } := by
    intro other hnow hpos
    have hleft : other.startTask.2.waitsLeft ≠ 0 := Nat.ne_of_gt hpos
    refine attend_of_due below hleft ?_
    change other.now + limit ≤ other.now
    rw [hnow]
    exact hdue
  have hpos : 1 ≤ world.waitsLeft := Nat.pos_of_ne_zero hleft
  have hworld : ∀ other : World, other.startTask.2.endWait =
      ({ waits := 1, tasks := 1 } : Effect).on number other := by
    intro other
    rw [endWait_eq number, startTask_eq number, ← Effect.on_andThen]
    rfl
  refine ⟨hready, ?_, hpos, List.forall_mem_nil _, fun other hsuits hle => ?_⟩
  · rw [hserve, hover world rfl hpos]
    trivial
  · rw [hserve, hserve, hover other hsuits.now_eq hle, hover world rfl hpos]
    exact ⟨rfl, rfl, hworld other⟩

end

end BehaviorTree
