import BehaviorTree.Proofs.Tree.Numbering
import BehaviorTree.Proofs.Tree.Tour

/-!
# Numbers of timers and crowds are held at most once

Started timers and crowds have numbers, and calls name them. A number is held by the pauses and
crowds of a suspended execution that have it, and as long as it has not been taken it is in supply.
A stretch of execution hands numbers on and never doubles one (`conserves_advance`): if a number is
held once at most, no call can concern two of those who wait. And whoever belongs to a crowd that
the execution has no part in puts no wait off in the course of it.
-/

namespace BehaviorTree

variable {κ : Type} [Application κ] {ρ τ μ ν : Type}

/-! ## Sums over children -/

/-- The sum of amounts for the children in the slots, the first of them being the child with the
given index. -/
def slotSum (amount : Nat → Slot Run → Nat) (start : Nat) : List (Slot Run) → Nat
  | [] => 0
  | slot :: slots => amount start slot + slotSum amount (start + 1) slots

section

variable {amount other : Nat → Slot Run → Nat} {start : Nat} {slots : List (Slot Run)}

/-- Smaller amounts have a smaller sum. -/
theorem slotSum_le
    (hle : ∀ offset slot, slots[offset]? = some slot →
      other (start + offset) slot ≤ amount (start + offset) slot) :
    slotSum other start slots ≤ slotSum amount start slots := by
  induction slots generalizing start with
  | nil => exact Nat.le_refl _
  | cons slot slots ih =>
    have hrest : ∀ offset slot, slots[offset]? = some slot →
        other (start + 1 + offset) slot ≤ amount (start + 1 + offset) slot := by
      intro offset held hheld
      rw [Nat.add_right_comm]
      exact hle (offset + 1) held hheld
    exact Nat.add_le_add (hle 0 slot rfl) (ih hrest)

/-- A child that has had its turn changes its own amount, and no amount of another child grows. -/
theorem slotSum_set {index : Nat} {slot : Slot Run} (hslot : slots[index]? = some slot)
    (later : Slot Run)
    (hle : ∀ offset slot, offset ≠ index → slots[offset]? = some slot →
      other (start + offset) slot ≤ amount (start + offset) slot) :
    slotSum other start (slots.set index later) + amount (start + index) slot ≤
      slotSum amount start slots + other (start + index) later := by
  induction slots generalizing start index with
  | nil => cases hslot
  | cons first slots ih =>
    have hshift : ∀ offset, start + 1 + offset = start + (offset + 1) := by omega
    cases index with
    | zero =>
      cases hslot
      have hrest : slotSum other (start + 1) slots ≤ slotSum amount (start + 1) slots := by
        refine slotSum_le fun offset held hheld => ?_
        rw [hshift]
        exact hle (offset + 1) held (Nat.succ_ne_zero _) hheld
      simp only [List.set_cons_zero, slotSum, Nat.add_zero]
      omega
    | succ index =>
      have hfirst := hle 0 first (by omega) rfl
      have hothers : ∀ offset slot, offset ≠ index → slots[offset]? = some slot →
          other (start + 1 + offset) slot ≤ amount (start + 1 + offset) slot := by
        intro offset held hne hheld
        rw [hshift]
        exact hle (offset + 1) held (by omega) hheld
      have hrest := ih hslot hothers
      rw [hshift] at hrest
      simp only [List.set_cons_succ, slotSum, Nat.add_zero] at hfirst ⊢
      omega

/-- Equal amounts have the same sum. -/
theorem slotSum_congr
    (heq : ∀ offset slot, slots[offset]? = some slot →
      other (start + offset) slot = amount (start + offset) slot) :
    slotSum other start slots = slotSum amount start slots :=
  Nat.le_antisymm (slotSum_le fun offset slot hslot => Nat.le_of_eq (heq offset slot hslot))
    (slotSum_le fun offset slot hslot => Nat.le_of_eq (heq offset slot hslot).symm)

/-- The amount for each child is at most the sum. -/
theorem le_slotSum (amount : Nat → Slot Run → Nat) (start : Nat) {index : Nat} {slot : Slot Run}
    (hslot : slots[index]? = some slot) :
    amount (start + index) slot ≤ slotSum amount start slots := by
  induction slots generalizing start index with
  | nil => cases hslot
  | cons first slots ih =>
    cases index with
    | zero =>
      cases hslot
      exact Nat.le_add_right _ _
    | succ index =>
      have hrest := ih (start + 1) hslot
      rw [Nat.add_right_comm] at hrest
      exact Nat.le_trans hrest (Nat.le_add_left _ _)

/-- The amounts for two different children are together at most the sum. -/
theorem add_le_slotSum (amount : Nat → Slot Run → Nat) (start : Nat) {first second : Nat}
    {slot later : Slot Run} (hlt : first < second) (hfirst : slots[first]? = some slot)
    (hsecond : slots[second]? = some later) :
    amount (start + first) slot + amount (start + second) later ≤ slotSum amount start slots := by
  induction slots generalizing start first second with
  | nil => cases hfirst
  | cons head slots ih =>
    cases second with
    | zero => exact absurd hlt (Nat.not_lt_zero first)
    | succ second =>
      have hshift : ∀ offset, start + 1 + offset = start + (offset + 1) := by omega
      cases first with
      | zero =>
        cases hfirst
        have hrest := le_slotSum amount (start + 1) (show slots[second]? = some later from hsecond)
        rw [hshift] at hrest
        exact Nat.add_le_add_left hrest _
      | succ first =>
        have hrest := ih (start + 1) (Nat.lt_of_succ_lt_succ hlt) hfirst hsecond
        rw [hshift, hshift] at hrest
        exact Nat.le_trans hrest (Nat.le_add_left _ _)

/-- Two sums over the same children add up to the sum of both amounts. -/
theorem slotSum_add :
    slotSum (fun index slot => amount index slot + other index slot) start slots =
      slotSum amount start slots + slotSum other start slots := by
  induction slots generalizing start with
  | nil => rfl
  | cons slot slots ih =>
    simp only [slotSum, ih]
    omega

end

/-! ## Numbers -/

/-- What calls name: a started timer, or a crowd. -/
inductive Number where
  | timer (order : Nat)
  | crowd (id : Nat)
  deriving DecidableEq

/-- How often a pause holds a number. -/
def Pause.holds (pause : Pause) : Number → Nat
  | .timer order => if pause.timer.order = some order then 1 else 0
  | .crowd _ => 0

mutual

/-- How often a run holds a number. -/
def Run.holds (number : Number) : Run → Nat
  | .child _ _ run => run.holds number
  | .paused pause => pause.holds number
  | .together slots => slotsHold number slots
  | .crowd id slots _ => (if number = .crowd id then 1 else 0) + slotsHold number slots

/-- How often children that run side by side hold a number. -/
def slotsHold (number : Number) : List (Slot Run) → Nat
  | [] => 0
  | .fresh :: rest => slotsHold number rest
  | .answered _ :: rest => slotsHold number rest
  | .waiting run :: rest => run.holds number + slotsHold number rest

end

/-- How often an execution holds a number, if one is suspended. -/
def holdsOf (run : Option Run) (number : Number) : Nat := (run.map (Run.holds number)).getD 0

/-- What children hold is what the first and the others hold. -/
theorem slotsHold_cons (number : Number) (slot : Slot Run) (slots : List (Slot Run)) :
    slotsHold number (slot :: slots) = holdsOf slot.run? number + slotsHold number slots := by
  cases slot <;> simp [slotsHold, holdsOf, Slot.run?]

/-- What children hold is the sum over the children. -/
theorem slotsHold_eq (number : Number) (start : Nat) (slots : List (Slot Run)) :
    slotsHold number slots = slotSum (fun _ slot => holdsOf slot.run? number) start slots := by
  induction slots generalizing start with
  | nil => rfl
  | cons slot slots ih => rw [slotsHold_cons, slotSum, ih]

/-- Putting a child in another state changes what is held by no more than what that child holds. -/
theorem slotsHold_set {slots : List (Slot Run)} {index : Nat} {slot : Slot Run}
    (hslot : slots[index]? = some slot) (later : Slot Run) (number : Number) :
    slotsHold number (slots.set index later) + holdsOf slot.run? number ≤
      slotsHold number slots + holdsOf later.run? number := by
  rw [slotsHold_eq number 0, slotsHold_eq number 0]
  exact slotSum_set hslot later fun _ _ _ _ => Nat.le_refl _

/-- Whether a number has not been taken yet. -/
def World.supply (world : World) : Number → Nat
  | .timer order => if world.timersStarted ≤ order then 1 else 0
  | .crowd id => if world.crowdsFormed ≤ id then 1 else 0

namespace World

/-- Whoever puts a wait off in between belongs to the crowd only if it has the turn already. -/
def Silent (world later : World) (id : Nat) : Prop :=
  ∀ index, .member id index ∈ later.putOff →
    .member id index ∈ world.putOff ∨ world.present = .member id index

/-- If nobody puts a wait off in between, then no crowd does. -/
theorem silent_of_putOff_eq {world later : World} (hputOff : later.putOff = world.putOff)
    (id : Nat) : world.Silent later id := by
  intro index hmem
  rw [hputOff] at hmem
  exact .inl hmem

/-- A wait that is put off is put off by whoever has the turn. -/
theorem silent_putOffWait (world : World) (id : Nat) : world.Silent world.putOffWait id := by
  intro index hmem
  rcases List.mem_append.mp hmem with hmem | hmem
  · exact .inl hmem
  · exact .inr (List.mem_singleton.mp hmem).symm

/-- Writing to a context takes no number. -/
@[simp] theorem supply_write (world : World) (binding : Binding) (writes : List (String × Value))
    (number : Number) : (world.write binding writes).1.supply number = world.supply number := by
  cases binding <;> cases number <;> rfl

end World

/-- A stretch of execution begins in a world while numbers are held. No number is held more often
afterwards, or else it was in supply. -/
structure Progress.Conserves (seen : ρ → Number → Nat) (held : Number → Nat) (world : World)
    (progress : Progress ρ μ) : Prop where
  /-- The same party has the turn. -/
  present_eq : progress.world.present = world.present
  /-- A number is held by those who held it before, or it comes out of supply. -/
  holds_le : ∀ number, seen progress.result number + progress.world.supply number ≤
    held number + world.supply number
  /-- In a crowd whose number is neither held nor in supply nobody else puts a wait off. -/
  silent : ∀ id, held (.crowd id) + world.supply (.crowd id) = 0 →
    world.Silent progress.world id

namespace Progress.Conserves

variable {seen : ρ → Number → Nat} {held : Number → Nat} {world : World} {progress : Progress ρ μ}

/-- Nothing but the contexts and the waits that are left may change. -/
theorem still (hpresent : progress.world.present = world.present)
    (hsupply : ∀ number, progress.world.supply number = world.supply number)
    (hputOff : progress.world.putOff = world.putOff)
    (hseen : ∀ number, seen progress.result number ≤ held number) :
    progress.Conserves seen held world where
  present_eq := hpresent
  holds_le := fun number => by
    rw [hsupply]
    exact Nat.add_le_add_right (hseen number) _
  silent := fun id _ => World.silent_of_putOff_eq hputOff id

/-- A stretch that leaves the world as it is conserves numbers if its result holds no more. -/
theorem same (hworld : progress.world = world)
    (hseen : ∀ number, seen progress.result number ≤ held number) :
    progress.Conserves seen held world :=
  .still (congrArg _ hworld) (fun _ => by rw [hworld]) (congrArg _ hworld) hseen

/-- A map of results conserves numbers if none is held more often in the image. -/
theorem map (hconserves : progress.Conserves seen held world) {later : τ → Number → Nat}
    (result : ρ → τ) (memory : μ → ν)
    (hlater : ∀ number, later (result progress.result) number ≤ seen progress.result number) :
    (progress.map result memory).Conserves later held world where
  present_eq := hconserves.present_eq
  holds_le := fun number =>
    Nat.le_trans (Nat.add_le_add_right (hlater number) _) (hconserves.holds_le number)
  silent := hconserves.silent

/-- What went before a stretch of execution takes nothing from the numbers that it conserves. -/
theorem after (hconserves : progress.Conserves seen held world) (journal : Journal)
    (spawned : List Spawn) (again : Bool) :
    (progress.after journal spawned again).Conserves seen held world :=
  ⟨hconserves.present_eq, hconserves.holds_le, hconserves.silent⟩

/-- A stretch of execution conserves numbers seen from the parent too. -/
theorem under (hconserves : progress.Conserves seen held world) (index : Nat) :
    (progress.under index).Conserves seen held world :=
  ⟨hconserves.present_eq, hconserves.holds_le, hconserves.silent⟩

/-- A stretch that conserves numbers does so while others hold some. -/
theorem beside (hconserves : progress.Conserves seen held world) (others : Number → Nat) :
    progress.Conserves (fun result number => seen result number + others number)
      (fun number => held number + others number) world where
  present_eq := hconserves.present_eq
  holds_le := fun number => by
    have hle := hconserves.holds_le number
    omega
  silent := fun id hnone => hconserves.silent id (by omega)

/-- The stretch begins earlier, while numbers are held or in supply that are held later. -/
theorem before {earlier : World} {more : Number → Nat}
    (hconserves : progress.Conserves seen held world) (hpresent : world.present = earlier.present)
    (hputOff : world.putOff = earlier.putOff)
    (hle : ∀ number, held number + world.supply number ≤ more number + earlier.supply number) :
    progress.Conserves seen more earlier where
  present_eq := hconserves.present_eq.trans hpresent
  holds_le := fun number => Nat.le_trans (hconserves.holds_le number) (hle number)
  silent := fun id hnone index hmem => by
    have hid := hle (.crowd id)
    rw [← hpresent, ← hputOff]
    exact hconserves.silent id (by omega) index hmem

/-- What conserves numbers that are held does so if more are held. -/
theorem mono (hconserves : progress.Conserves seen held world) {more : Number → Nat}
    (hle : ∀ number, held number ≤ more number) : progress.Conserves seen more world :=
  hconserves.before rfl rfl fun number => Nat.add_le_add_right (hle number) _

/-- Two stretches, one after the other, conserve numbers if each of them does. -/
theorem next {later : Progress τ ν} {seen' : τ → Number → Nat} {held' : Number → Nat}
    (hconserves : progress.Conserves seen held world)
    (hheld : ∀ number, held' number ≤ seen progress.result number)
    (hlater : later.Conserves seen' held' progress.world) (journal : Journal)
    (spawned : List Spawn) (again : Bool) :
    (later.after journal spawned again).Conserves seen' held world where
  present_eq := hlater.present_eq.trans hconserves.present_eq
  holds_le := fun number => by
    have hfirst := hconserves.holds_le number
    have hrest := hlater.holds_le number
    have hmiddle := hheld number
    rw [Progress.result_after, Progress.world_after]
    omega
  silent := fun id hnone index hmem => by
    have hfirst := hconserves.holds_le (.crowd id)
    have hmiddle := hheld (.crowd id)
    rcases hlater.silent id (by omega) index hmem with hmem | hpresent
    · exact hconserves.silent id hnone index hmem
    · exact .inr (hconserves.present_eq.symm.trans hpresent)

/-- Two stretches of execution conserve numbers together if the second begins with what the first
left. -/
theorem andThen {next : ρ → μ → World → Progress τ ν} {seen' : τ → Number → Nat}
    {held' : Number → Nat} (hconserves : progress.Conserves seen held world)
    (hheld : ∀ number, held' number ≤ seen progress.result number)
    (hnext : (next progress.result progress.memory progress.world).Conserves seen' held'
      progress.world) : (progress.andThen next).Conserves seen' held world :=
  hconserves.next hheld hnext progress.journal progress.spawned progress.again

end Progress.Conserves

/-! ## Loops -/

/-- The suspended execution that a reply leaves behind. -/
def Reply.run? : Reply → Option Run
  | .stop outcome => outcome.run?
  | .signal _ => none

/-- How often what several children leave suspended holds a number. -/
def holdsOfAll : Except Fault (List (Slot Run)) → Number → Nat
  | .ok slots, number => slotsHold number slots
  | .error _, _ => 0

/-- How often a tour holds a number. -/
def Tour.holds (tour : Tour) (number : Number) : Nat :=
  (if number = .crowd tour.crowd then 1 else 0) + slotsHold number tour.slots

/-- How often the result of a tour holds a number. -/
def holdsOfTour : Except Fault Tour → Number → Nat
  | .ok tour, number => tour.holds number
  | .error _, _ => 0

namespace Tour

/-- A child of a crowd holds no more than all children do. -/
theorem holdsOf_run?_le (tour : Tour) (index : Nat) (number : Number) :
    holdsOf (tour.run? index) number ≤ slotsHold number tour.slots := by
  rw [run?]
  cases hslot : tour.slots[index]? with
  | none => exact Nat.zero_le _
  | some slot =>
    rw [slotsHold_eq number 0]
    exact le_slotSum (fun _ slot => holdsOf slot.run? number) 0 hslot

/-- How often a number is held by a child with such a run, by its crowd and by the other
children. -/
def holdsWith (tour : Tour) (index : Nat) (run : Option Run) (number : Number) : Nat :=
  holdsOf run number + (if number = .crowd tour.crowd then 1 else 0) +
    (slotsHold number tour.slots - holdsOf (tour.run? index) number)

/-- A child with its own run, its crowd and the other children hold what the tour holds. -/
theorem holdsWith_run? (tour : Tour) (index : Nat) (number : Number) :
    tour.holdsWith index (tour.run? index) number = tour.holds number := by
  have hle := tour.holdsOf_run?_le index number
  rw [holdsWith, holds]
  omega

/-- The other children hold what they held when one of them has had its turn. -/
theorem holds_le_holdsWith {tour next : Tour} {index : Nat} {later : Slot Run}
    (hcrowd : next.crowd = tour.crowd) (hslots : next.slots = tour.slots.set index later)
    (number : Number) : next.holds number ≤ tour.holdsWith index later.run? number := by
  rw [holds, holdsWith, hcrowd, hslots]
  cases hslot : tour.slots[index]? with
  | none =>
    have hlength : tour.slots.length ≤ index := List.getElem?_eq_none_iff.mp hslot
    have hnone : holdsOf (tour.run? index) number = 0 := by
      rw [run?, hslot]
      rfl
    rw [List.set_eq_of_length_le hlength, hnone]
    omega
  | some slot =>
    have hset := slotsHold_set hslot later number
    rw [run?_of_slot hslot]
    omega

end Tour

/-- A child that has had its turn is not as it was before it began. -/
theorem ne_fresh_of_slot {outcome : Outcome} {later : Slot Run} (hslot : outcome.slot = .ok later) :
    later ≠ .fresh := by
  rintro rfl
  cases outcome <;> cases hslot

/-- A slot has the run of the outcome that it was made for. -/
theorem run?_slot {outcome : Outcome} {slot : Slot Run} (hslot : outcome.slot = .ok slot) :
    slot.run? = outcome.run? := by
  cases outcome <;> cases hslot <;> rfl

/-- Starting a timer takes its number from the supply. -/
theorem conserves_startTimer (pause : Pause) (below : μ) (world : World) :
    ({ result := .stop (.waiting (.paused (world.startTimer pause).1)), memory := below,
       world := (world.startTimer pause).2 } : Progress Reply μ).Conserves
      (fun reply => holdsOf reply.run?) (pause.holds ·) world := by
  rw [World.startTimer]
  split
  · exact .same rfl fun number => Nat.le_refl _
  · next hstarted =>
    refine ⟨rfl, fun number => ?_, fun id _ => World.silent_of_putOff_eq rfl id⟩
    cases number with
    | crowd id => exact Nat.le_refl _
    | timer order =>
      have hnone : pause.timer.order = none := by simpa using hstarted
      cases pause <;>
        · simp only [Pause.timer] at hnone
          simp [Reply.run?, Outcome.run?, holdsOf, Run.holds, Pause.holds, Pause.started,
            Pause.timer, World.supply, hnone]
          split <;> split <;> split <;> omega

/-- Attending to a pause hands its number on, or takes one from the supply. -/
theorem conserves_attend (pause : Pause) (below : μ) (world : World) :
    (attend pause below world).Conserves (fun reply => holdsOf reply.run?) (pause.holds ·)
      world := by
  have hsupply : ∀ later : World, later.timersStarted = world.timersStarted →
      later.crowdsFormed = world.crowdsFormed →
        ∀ number, later.supply number = world.supply number := by
    intro later htimers hcrowds number
    cases number <;> simp [World.supply, htimers, hcrowds]
  unfold attend
  split
  · exact ⟨rfl, fun number => Nat.le_of_eq (congrArg _ (hsupply _ rfl rfl number)),
      fun id _ => world.silent_putOffWait id⟩
  · split
    · exact .still rfl (hsupply _ rfl rfl) rfl fun number => Nat.zero_le _
    · dsimp only
      split
      · exact .still rfl (hsupply _ rfl rfl) rfl fun number => Nat.zero_le _
      · exact conserves_startTimer pause below world

namespace Crew

variable {crew : Crew μ} {below : μ} {world : World}

/-- Every operation on one child conserves numbers, and all children together are advanced one
after the other. -/
structure Conserves (crew : Crew μ) : Prop where
  /-- An execution of a child conserves numbers. -/
  advance : ∀ index run below world,
    (crew.advance index run below world).Conserves (fun outcome => holdsOf outcome.run?)
      (holdsOf run) world
  /-- The children are advanced one after the other. -/
  sideBySide : ∃ count, crew.advanceAll = advanceEach crew.advance count 0

namespace Conserves

/-- Advancing children one after the other conserves numbers. -/
theorem advanceEach (hcrew : crew.Conserves) (count start : Nat) (slots : List (Slot Run))
    (below : μ) (world : World) :
    (BehaviorTree.advanceEach crew.advance count start slots below world).Conserves holdsOfAll
      (slotsHold · slots) world := by
  induction count generalizing start slots below world with
  | zero => exact .same rfl fun number => Nat.zero_le _
  | succ count ih =>
    cases slots with
    | nil => exact .same rfl fun number => Nat.le_refl _
    | cons slot slots =>
      have hcons : ∀ (later : Slot Run) below world,
          ((BehaviorTree.advanceEach crew.advance count (start + 1) slots below world).map
            (·.map (later :: ·)) id).Conserves holdsOfAll
            (fun number => slotsHold number slots + holdsOf later.run? number) world := by
        intro later below world
        refine ((ih (start + 1) slots below world).beside (holdsOf later.run?)).map _ _
          fun number => ?_
        generalize
          (BehaviorTree.advanceEach crew.advance count (start + 1) slots below world).result = rest
        cases rest with
        | error fault => exact Nat.zero_le _
        | ok later =>
          simp only [Except.map, holdsOfAll, slotsHold_cons]
          omega
      rw [BehaviorTree.advanceEach]
      split
      · refine (hcons slot below world).mono fun number => Nat.le_of_eq ?_
        rw [slotsHold_cons, Nat.add_comm]
      · have hchild := (((hcrew.advance start slot.run? below world).beside
          (slotsHold · slots)).mono fun number =>
            Nat.le_of_eq (slotsHold_cons number slot slots).symm).under start
        generalize crew.advance start slot.run? below world = child at hchild
        have hswap : ∀ number, slotsHold number slots + holdsOf child.result.run? number ≤
            holdsOf child.result.run? number + slotsHold number slots :=
          fun number => Nat.le_of_eq (Nat.add_comm _ _)
        refine hchild.andThen hswap ?_
        dsimp only [Progress.result_under]
        split
        · exact .same rfl fun number => Nat.zero_le _
        · next later hlater =>
          rw [← run?_slot hlater]
          exact hcons later _ _

/-- Advancing all children conserves numbers. -/
theorem advanceAll (hcrew : crew.Conserves) (slots : List (Slot Run)) (below : μ)
    (world : World) :
    (crew.advanceAll slots below world).Conserves holdsOfAll (slotsHold · slots) world := by
  obtain ⟨count, heach⟩ := hcrew.sideBySide
  rw [heach]
  exact hcrew.advanceEach count 0 slots below world

/-- A child of a crowd has the turn. The crowd itself holds its number meanwhile. -/
theorem advanceMember (hcrew : crew.Conserves) (tour : Tour) (index : Nat) (below : μ)
    (world : World) :
    (crew.advanceMember tour index below world).Conserves
      (fun outcome number =>
        holdsOf outcome.run? number + if number = .crowd tour.crowd then 1 else 0)
      (fun number =>
        holdsOf (tour.run? index) number + if number = .crowd tour.crowd then 1 else 0)
      world := by
  have hchild := hcrew.advance index (tour.run? index) below
    (world.handTo (.member tour.crowd index))
  refine ⟨rfl, fun number => ?_, fun id hnone position hmem => ?_⟩
  · have hle := hchild.holds_le number
    have hsupply : ∀ (other : World) party, (other.handTo party).supply number =
        other.supply number := fun _ _ => by cases number <;> rfl
    simp only [Crew.advanceMember, hsupply] at hle ⊢
    omega
  · have hother : id ≠ tour.crowd := by
      rintro rfl
      simp at hnone
    have hnothing : holdsOf (tour.run? index) (.crowd id) +
        (world.handTo (.member tour.crowd index)).supply (.crowd id) = 0 := by
      change holdsOf (tour.run? index) (.crowd id) + world.supply (.crowd id) = 0
      omega
    rcases hchild.silent id hnothing position hmem with hmem | hpresent
    · exact .inl hmem
    · injection hpresent with hcrowd
      exact absurd hcrowd.symm hother

/-- The turn of one child of a crowd conserves what the whole crowd holds. -/
theorem advanceMember_beside (hcrew : crew.Conserves) (tour : Tour) (index : Nat) (below : μ)
    (world : World) :
    (crew.advanceMember tour index below world).Conserves
      (fun outcome => tour.holdsWith index outcome.run?) (tour.holds ·) world :=
  ((hcrew.advanceMember tour index below world).beside _).mono fun number =>
    Nat.le_of_eq (tour.holdsWith_run? index number)

/-- A tour of the called children conserves numbers. -/
theorem advanceCalled (hcrew : crew.Conserves) (fuel : Nat) (tour : Tour) (below : μ)
    (world : World) :
    (crew.advanceCalled fuel tour below world).Conserves holdsOfTour (tour.holds ·) world := by
  induction fuel generalizing tour below world with
  | zero => exact .same rfl fun number => Nat.le_refl _
  | succ fuel ih =>
    rw [Crew.advanceCalled]
    split
    · exact .same rfl fun number => Nat.le_refl _
    · next index called hcalled =>
      dsimp only
      split
      · exact ih { tour with called } below world
      · have hmember := (hcrew.advanceMember_beside { tour with called } index below world).under
          index
        generalize crew.advanceMember { tour with called } index below world = member at hmember
        have hlater : ∀ (slot : Slot Run) (later : Tour), later.crowd = tour.crowd →
            later.slots = tour.slots.set index slot → slot.run? = member.result.run? →
              ∀ number, later.holds number ≤
                Tour.holdsWith { tour with called } index member.result.run? number := by
          intro slot later hcrowd hslots hrun number
          rw [← hrun]
          exact Tour.holds_le_holdsWith hcrowd hslots number
        cases hresult : member.result with
        | failed fault =>
          refine hmember.andThen (fun _ => Nat.zero_le _) ?_
          rw [Progress.result_under, hresult]
          exact .same rfl fun number => Nat.zero_le _
        | answered status =>
          let answered := Tour.answer { tour with called } index status
          refine hmember.andThen (hlater (.answered status) answered rfl rfl (by rw [hresult]; rfl))
            ?_
          rw [Progress.result_under, hresult]
          exact ih answered _ _
        | waiting run =>
          let suspended := Tour.suspend { tour with called } index run member.again
          refine hmember.andThen (hlater (.waiting run) suspended rfl rfl (by rw [hresult]; rfl)) ?_
          rw [Progress.result_under, hresult]
          dsimp only
          split
          · exact .same rfl fun number => Nat.le_refl _
          · exact ih suspended _ _

/-- The reply to one child holds the numbers that the child holds. -/
theorem holdsOf_replyOfChild (mark index : Nat) (outcome : Outcome) (number : Number) :
    holdsOf (BehaviorTree.replyOfChild mark index outcome).run? number =
      holdsOf outcome.run? number := by
  cases outcome with
  | answered status => rfl
  | waiting run => simp [BehaviorTree.replyOfChild, Reply.run?, Outcome.run?, holdsOf, Run.holds]
  | failed fault => rfl

/-- A stretch of execution of a child conserves numbers as a reply to its parent. -/
theorem replyOfChild (mark index : Nat) {run : Option Run} {progress : Progress Outcome μ}
    (hconserves : progress.Conserves (fun outcome => holdsOf outcome.run?) (holdsOf run) world) :
    ((progress.under index).map (BehaviorTree.replyOfChild mark index) id).Conserves
      (fun reply => holdsOf reply.run?) (holdsOf run) world :=
  (hconserves.under index).map _ _ fun number =>
    Nat.le_of_eq (holdsOf_replyOfChild mark index progress.result number)

/-- The reply to all children holds no number more often than the children do. -/
theorem holdsOf_replyOfAll (result : Except Fault (List (Slot Run))) (number : Number) :
    holdsOf (replyOfAll result).run? number ≤ holdsOfAll result number := by
  cases result with
  | error fault => exact Nat.zero_le _
  | ok slots =>
    rw [replyOfAll]
    split
    · exact Nat.zero_le _
    · simp [Reply.run?, Outcome.run?, holdsOf, Run.holds, holdsOfAll]

/-- The reply to a tour holds no number more often than the tour does. -/
theorem holdsOf_replyOfTour (result : Except Fault Tour) (number : Number) :
    holdsOf (BehaviorTree.replyOfTour result).run? number ≤ holdsOfTour result number := by
  cases result with
  | error fault => exact Nat.zero_le _
  | ok tour =>
    rw [BehaviorTree.replyOfTour]
    split
    · exact Nat.zero_le _
    · simp [Reply.run?, Outcome.run?, holdsOf, Run.holds, holdsOfTour, Tour.holds]

/-- A tour conserves numbers as a reply to the parent. -/
theorem replyOfTour {held : Number → Nat} {progress : Progress (Except Fault Tour) μ}
    (hconserves : progress.Conserves holdsOfTour held world) :
    (progress.map BehaviorTree.replyOfTour id).Conserves (fun reply => holdsOf reply.run?) held
      world :=
  hconserves.map _ _ (holdsOf_replyOfTour progress.result)

/-- Children that have not begun hold no number. -/
theorem slotsHold_replicate_fresh (size : Nat) (number : Number) :
    slotsHold number (List.replicate size .fresh) = 0 := by
  induction size with
  | zero => rfl
  | succ size ih => rw [List.replicate_succ, slotsHold, ih]

/-- Beginning all children at once conserves numbers. -/
theorem beginAll (hcrew : crew.Conserves) (size : Nat) (below : μ) (world : World) :
    (crew.beginAll size below world).Conserves (fun reply => holdsOf reply.run?) (fun _ => 0)
      world := by
  rw [Crew.beginAll]
  split
  · refine ((hcrew.advanceAll _ below world).map _ _ (holdsOf_replyOfAll _)).mono fun number =>
      Nat.le_of_eq ?_
    rw [slotsHold_replicate_fresh]
  · have htour := (hcrew.advanceCalled
      (Tour.ofSlots world.formCrowd.1 (.replicate size .fresh) (.range size)).bound
      (.ofSlots world.formCrowd.1 (.replicate size .fresh) (.range size)) below
      world.formCrowd.2)
    refine (replyOfTour htour).before rfl rfl fun number => ?_
    -- the new crowd takes its number from the supply
    cases number with
    | timer order =>
      simp only [Tour.holds, Tour.ofSlots, slotsHold_replicate_fresh, World.formCrowd,
        World.supply]
      grind
    | crowd id =>
      simp only [Tour.holds, Tour.ofSlots, slotsHold_replicate_fresh, World.formCrowd,
        World.supply, Number.crowd.injEq]
      grind

/-- Serving a request conserves numbers. -/
theorem serve (hcrew : crew.Conserves) (size : Nat) (request : Request) (below : μ)
    (world : World) :
    (crew.serve size request below world).Conserves (fun reply => holdsOf reply.run?)
      (fun _ => 0) world := by
  have hpause : ∀ pause : Pause, pause.timer.order = none → ∀ number, pause.holds number = 0 := by
    intro pause hnone number
    cases number <;> simp [Pause.holds, hnone]
  cases request with
  | finish status => exact .same rfl fun number => Nat.zero_le _
  | crash => exact .same rfl fun number => Nat.zero_le _
  | run mark index =>
    exact replyOfChild mark index (hcrew.advance index none below world)
  | runAll => exact hcrew.beginAll size below world
  | sleep mark duration =>
    exact (conserves_attend _ below world).mono fun number => Nat.le_of_eq (hpause _ rfl number)
  | race index limit =>
    have hsupply : ∀ number, world.startTask.2.supply number = world.supply number := by
      intro number
      cases number <;> rfl
    have hraced : (attend (.race world.startTask.1 ⟨world.now + limit, none⟩) below
        world.startTask.2).Conserves (fun reply => holdsOf reply.run?) (fun _ => 0) world :=
      (conserves_attend _ below world.startTask.2).before rfl rfl fun number =>
        Nat.le_of_eq (by rw [hpause _ rfl, hsupply])
    exact hraced.after [] _ false
  | resetChild index => exact .same rfl fun number => Nat.zero_le _
  | abortChild index => exact .same rfl fun number => Nat.zero_le _

/-- Taking up a suspended execution conserves numbers. -/
theorem recheck (hcrew : crew.Conserves) (run : Run) (below : μ) (world : World) :
    (crew.recheck run below world).Conserves (fun reply => holdsOf reply.run?)
      (run.holds ·) world := by
  cases run with
  | child mark index run =>
    exact (replyOfChild mark index (hcrew.advance index (some run) below world)).mono
      fun number => by simp [holdsOf, Run.holds]
  | paused pause =>
    exact (conserves_attend pause below world).mono fun number => by simp [Run.holds]
  | together slots =>
    exact ((hcrew.advanceAll slots below world).map _ _ (holdsOf_replyOfAll _)).mono
      fun number => by simp [Run.holds]
  | crowd id slots called =>
    refine (replyOfTour (hcrew.advanceCalled _ (.ofSlots id slots called) below world)).mono
      fun number => Nat.le_of_eq ?_
    rw [Run.holds]
    rfl

/-- Driving a node conserves numbers. -/
theorem drive (hcrew : crew.Conserves) (name : String) (kind : Kind κ) (size fuel : Nat)
    (reply : Reply) (cell : Cell kind.State) (below : μ) (world : World) :
    (crew.drive name kind size fuel reply cell below world).Conserves
      (fun outcome => holdsOf outcome.run?) (holdsOf reply.run?) world := by
  induction fuel generalizing reply cell below world with
  | zero =>
    cases reply with
    | stop outcome => exact .same rfl fun number => Nat.le_refl _
    | signal signal => exact .same rfl fun number => Nat.zero_le _
  | succ fuel ih =>
    cases reply with
    | stop outcome =>
      rw [Crew.drive_stop]
      exact .same rfl fun number => Nat.le_refl _
    | signal signal =>
      rw [Crew.drive_signal]
      generalize kind.respond _ cell.state signal = move
      have hpresent : (world.write cell.binding move.writes).1.present = world.present := by
        cases cell.binding <;> rfl
      have hputOff : (world.write cell.binding move.writes).1.putOff = world.putOff := by
        cases cell.binding <;> rfl
      have hserved := hcrew.serve size move.request below (world.write cell.binding move.writes).1
      refine (hserved.next (fun _ => Nat.le_refl _) (ih _ _ _ _) _ _ _).before hpresent hputOff
        fun number => Nat.le_of_eq ?_
      rw [World.supply_write]
      rfl

/-- A turn of a node conserves numbers. -/
theorem turn (hcrew : crew.Conserves) (name : String) (kind : Kind κ) (size : Nat)
    (run : Option Run) (cell : Cell kind.State) (below : μ) (world : World) :
    (crew.turn name kind size run cell below world).Conserves
      (fun outcome => holdsOf outcome.run?) (holdsOf run) world := by
  cases run with
  | none => exact hcrew.drive name kind size _ (.signal .started) cell below world
  | some run =>
    have hdriven := hcrew.drive name kind size (kind.allowance size)
      (crew.recheck run below world).result cell (crew.recheck run below world).memory
      (crew.recheck run below world).world
    exact (hcrew.recheck run below world).next (fun _ => Nat.le_refl _) hdriven _ _ _

end Conserves

end Crew

/-! ## Trees -/

/-- Every turn of a tree conserves numbers. -/
def Tree.ConservesNumbers (tree : Tree κ) : Prop :=
  ∀ run (memory : Memory tree) (world : World),
    (advance tree run memory world).Conserves (fun outcome => holdsOf outcome.run?)
      (holdsOf run) world

/-- A stretch of execution of one child conserves numbers if one of each tree does. -/
theorem conserves_advanceChild {trees : List (Tree κ)}
    (htrees : ∀ tree ∈ trees, tree.ConservesNumbers) (index : Nat) (run : Option Run)
    (below : Memories trees) (world : World) :
    (advanceChild trees index run below world).Conserves (fun outcome => holdsOf outcome.run?)
      (holdsOf run) world := by
  induction trees generalizing index with
  | nil =>
    cases below
    exact .same rfl fun number => Nat.zero_le _
  | cons tree trees ih =>
    cases below with
    | cons first rest =>
      cases index with
      | zero => exact (htrees tree (by simp) run first world).map _ _ fun _ => Nat.le_refl _
      | succ index =>
        have hrest := ih (fun tree hmem => htrees tree (List.mem_cons_of_mem _ hmem)) index rest
        exact hrest.map _ _ fun _ => Nat.le_refl _

/-- A stretch of execution conserves numbers, whatever the tree. -/
theorem conserves_advance (tree : Tree κ) : tree.ConservesNumbers := by
  induction tree using Tree.nodeInduction with
  | node name kind children ih =>
    intro run memory world
    cases memory with
    | node cell below =>
      have hcrew : (crewOf children).Conserves :=
        ⟨conserves_advanceChild ih, children.length, advanceAll_eq children⟩
      have hturn := hcrew.turn name kind children.length run cell below world
      rw [advance_eq, Crew.turnOf_eq]
      exact ⟨hturn.present_eq, hturn.holds_le, hturn.silent⟩

/-- Every operation on a child conserves numbers. -/
theorem conserves_crewOf (children : List (Tree κ)) : (crewOf children).Conserves :=
  ⟨conserves_advanceChild fun tree _ => conserves_advance tree, children.length,
    advanceAll_eq children⟩

end BehaviorTree
