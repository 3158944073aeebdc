import BehaviorTree.Proofs.Schedule.Calling
import BehaviorTree.Proofs.Schedule.Renewal
import BehaviorTree.Proofs.Tree.Quota
import BehaviorTree.Proofs.Tree.DueTimers
import BehaviorTree.Rehearsal.Cast

/-!
# A tick with finite budgets ends

A tree of limited nodes pays for every turn of the foreground. Whoever stirs in the foreground is
called, and when nobody stirs the clock moves on to the next timer. So the turns go on until the
root answers. Two turns in a row cannot both get nobody on, so there are at most twice as many of
them as the price of the tree, and fewer than its patience (`System.paid_complete`). The leaves that
are executed meanwhile are within the quota (`Session.Reached.keepsQuota`).
-/

namespace BehaviorTree

variable {κ : Type} [Application κ] {tree : Tree κ} {step : Nat}

namespace System

/-! ## Calls for the foreground -/

/-- The foreground is alone while some calls are pending, and what it owes is covered together with
the looks in vain. -/
structure Carries (hstep : step ≤ 1) (system : System tree) (pending : List Call) (run : Run)
    (total : Nat) : Prop where
  /-- Nothing runs beside the foreground. -/
  alone : system.IsAlone
  /-- The foreground is suspended in this execution. -/
  front_eq : system.front = some run
  /-- No number in it is held twice. -/
  distinct : system.world.Distinct (run.holds ·)
  /-- The execution hears the calls that it waits for. -/
  heeded : run.IsHeeded system.world.now pending
  /-- What it owes is covered, together with the looks in vain. -/
  owed : ∃ debt, system.memory.Owes hstep run debt ∧
    debt + step * run.vain system.world.now pending ≤ total

/-- The foreground is passed calls in the same world, which may concern it. -/
structure Hears (hails : Bool) (run next : Run) (system later : System tree) : Prop where
  /-- The worlds are the same. -/
  world_eq : later.world = system.world
  /-- The execution has as much to do as before. -/
  stirs_eq : ∀ now, next.stirs now = run.stirs now
  /-- It waits for the same calls. -/
  awaits_eq : ∀ call, next.awaits call = run.awaits call
  /-- The foreground is called if it has been called before or the calls concern it. -/
  called_eq : later.called = (system.called || hails)

/-- A system that is passed no calls hears nothing. -/
theorem Hears.silent (system : System tree) (run : Run) : Hears false run run system system :=
  ⟨rfl, fun _ => rfl, fun _ => rfl, (Bool.or_false _).symm⟩

/-- Calls that are heard one after the other are heard together. -/
theorem Hears.trans {first rest : Bool} {run next last : Run} {system middle later : System tree}
    (hfirst : Hears first run next system middle) (hrest : Hears rest next last middle later) :
    Hears (first || rest) run last system later where
  world_eq := hrest.world_eq.trans hfirst.world_eq
  stirs_eq := fun now => (hrest.stirs_eq now).trans (hfirst.stirs_eq now)
  awaits_eq := fun call => (hrest.awaits_eq call).trans (hfirst.awaits_eq call)
  called_eq := by rw [hrest.called_eq, hfirst.called_eq, Bool.or_assoc]

/-- Whether the foreground is called when a party is. -/
def callsFront (run : Run) (party : Party) : Bool :=
  match party with
  | .front => true
  | .task _ => false
  | .member crowd index => run.awaits (.turn crowd index)

/-- Whoever stirs in the foreground is called, if a party has put a wait off for it. -/
theorem any_callsFront {world : World} {run : Run}
    (hconcerns : .front ∈ world.putOff ∨ world.calls.any (run.awaits ·) = true) :
    world.putOff.any (callsFront run) = true := by
  rw [List.any_eq_true]
  rcases hconcerns with hmem | hcalls
  · exact ⟨_, hmem, rfl⟩
  · obtain ⟨call, hcall, hawaits⟩ := List.any_eq_true.mp hcalls
    obtain ⟨crowd, index, rfl, hmem⟩ := World.mem_calls.mp hcall
    exact ⟨_, hmem, hawaits⟩

/-- Somebody in the foreground has been called, or is to be called in the next round. -/
def IsExpectant (system : System tree) : Prop := system.called = true ∨ system.world.putOff ≠ []

variable {hstep : step ≤ 1} {system : System tree} {pending : List Call} {run : Run}
  {total : Nat}

namespace Carries

/-- A call that is passed on is no longer pending, and the foreground is called if it concerns
it. -/
theorem call {call : Call} {number : Number}
    (hcarries : system.Carries hstep (call :: pending) run total)
    (hnumber : call.number? = some number) :
    (system.call call).Carries hstep pending (run.notify call) total ∧
      Hears (run.awaits call) run (run.notify call) system (system.call call) := by
  obtain ⟨⟨htasks, hready⟩, hfront, hdistinct, hheeded, debt, howes, hle⟩ := hcarries
  have honce : run.holds number ≤ 1 := Nat.le_trans (Nat.le_add_right _ _) (hdistinct number)
  refine ⟨⟨⟨?_, ?_⟩, ?_, ?_, isHeeded_notify hnumber run honce hheeded, debt, howes.notify call,
    ?_⟩, rfl, fun now => stirs_notify now call run, fun passed => awaits_notify passed call run, ?_⟩
  · simp [System.call, htasks]
  · simp [System.call, htasks, hready]
  · simp [System.call, hfront]
  · exact hdistinct.mono fun number => Nat.le_of_eq (holds_notify number call run)
  · rw [← vain_notify hnumber _ _ run honce] at hle
    exact hle
  · simp [System.call, hfront]

/-- Calls that are passed on are no longer pending. -/
theorem callAll {calls : List Call} (hcarries : system.Carries hstep calls run total)
    (hnumbered : ∀ call ∈ calls, ∃ number, call.number? = some number) :
    ∃ next, (system.callAll calls).Carries hstep [] next total ∧
      Hears (run.isHailed calls) run next system (system.callAll calls) := by
  induction calls generalizing system run with
  | nil => exact ⟨run, hcarries, .silent system run⟩
  | cons call calls ih =>
    obtain ⟨number, hnumber⟩ := hnumbered call (by simp)
    obtain ⟨hcalled, hhears⟩ := hcarries.call hnumber
    obtain ⟨next, hrest, hothers⟩ := ih hcalled fun call hmem => hnumbered call (by simp [hmem])
    rw [isHailed_notify] at hothers
    exact ⟨next, hrest, hhears.trans hothers⟩

/-- The call of a party is no longer pending when it has been made. -/
theorem callParty {party : Party} {parties : List Party}
    (hcarries : system.Carries hstep ((party :: parties).filterMap Party.call?) run total) :
    ∃ next, (system.callParty party).Carries hstep (parties.filterMap Party.call?) next total ∧
      Hears (callsFront run party) run next system (system.callParty party) := by
  cases party with
  | front =>
    refine ⟨run, ⟨⟨hcarries.alone.tasks_eq, hcarries.alone.ready_eq⟩, hcarries.front_eq,
      hcarries.distinct, hcarries.heeded, hcarries.owed⟩, rfl, fun _ => rfl, fun _ => rfl, ?_⟩
    rw [System.callParty, hcarries.front_eq]
    rfl
  | task id =>
    have hnobody : system.callParty (.task id) = system := by
      rw [System.callParty, hcarries.alone.tasks_eq]
      rfl
    rw [hnobody]
    exact ⟨run, hcarries, .silent system run⟩
  | member crowd index => exact ⟨_, hcarries.call rfl⟩

/-- Those who put a wait off are called. -/
theorem callParties {parties : List Party}
    (hcarries : system.Carries hstep (parties.filterMap Party.call?) run total) :
    ∃ next, (parties.foldl System.callParty system).Carries hstep [] next total ∧
      Hears (parties.any (callsFront run)) run next system
        (parties.foldl System.callParty system) := by
  induction parties generalizing system run with
  | nil => exact ⟨run, hcarries, .silent system run⟩
  | cons party parties ih =>
    obtain ⟨next, hcalled, hhears⟩ := hcarries.callParty
    obtain ⟨last, hrest, hothers⟩ := ih hcalled
    have hsame : callsFront next = callsFront run := by
      funext party
      cases party with
      | member crowd index => exact hhears.awaits_eq _
      | front | task id => rfl
    rw [hsame] at hothers
    exact ⟨last, hrest, hhears.trans hothers⟩

/-- It does not matter in which order calls are pending. -/
theorem reorder {more : List Call} (hcarries : system.Carries hstep pending run total)
    (hmem : ∀ call, call ∈ more ↔ call ∈ pending) : system.Carries hstep more run total := by
  have hadds : Adds pending more (run.holds ·) :=
    ⟨fun call => (hmem call).mpr, fun call hcall => .inl ((hmem call).mp hcall)⟩
  obtain ⟨halone, hfront, hdistinct, hheeded, howed⟩ := hcarries
  refine ⟨halone, hfront, hdistinct, isHeeded_mono hadds.subset run hheeded, ?_⟩
  rw [vain_eq run hadds]
  exact howed

/-- When all parties have been called, no call of theirs is pending. -/
theorem resume (hcarries : system.Carries hstep system.world.calls run total) :
    ∃ next, system.resume.Carries hstep [] next total ∧
      Hears (system.world.putOff.any (callsFront run)) run next
        { system with world := { system.world with putOff := [] } } system.resume := by
  have hreversed : Carries hstep { system with world := { system.world with putOff := [] } }
      (system.world.putOff.reverse.filterMap Party.call?) run total := by
    have hsame :
        system.Carries hstep (system.world.putOff.reverse.filterMap Party.call?) run total :=
      hcarries.reorder fun call => by rw [World.calls, List.filterMap_reverse, List.mem_reverse]
    refine ⟨⟨hsame.alone.tasks_eq, hsame.alone.ready_eq⟩, hsame.front_eq, fun number => ?_,
      hsame.heeded, hsame.owed⟩
    have honce := hsame.distinct number
    cases number <;> exact honce
  obtain ⟨next, hresumed, hhears⟩ := hreversed.callParties
  rw [List.any_reverse] at hhears
  exact ⟨next, hresumed, hhears⟩

end Carries

/-- The timers that a run waits for call when the clock moves. -/
theorem rings_calling {run : Run} (honce : ∀ number, run.holds number ≤ 1) (now : Nat) :
    Rings now ((Timer.calling now run.timers).map .due) run.timers where
  due := fun timer hmem hdue => by
    obtain ⟨order, horder, -⟩ := awaits_of_mem_timers run hmem
    exact ⟨order, horder, List.mem_map_of_mem (Timer.mem_calling hmem horder hdue)⟩
  only := fun call hmem => by
    obtain ⟨order, hcalling, rfl⟩ := List.mem_map.mp hmem
    obtain ⟨caller, hcaller, horder, hdue⟩ := Timer.exists_of_mem_calling hcalling
    refine ⟨order, rfl, fun timer htimer hnumber => ?_⟩
    -- no two timers have the same number
    have hle : run.timers.countP (·.order = some order) ≤ 1 := by
      rw [← holds_eq_countP]
      exact honce _
    obtain rfl := eq_of_countP_le_one hle htimer hcaller (by simpa using hnumber)
      (by simpa using horder)
    exact hdue

namespace Carries

/-- The foreground holds no number twice. -/
theorem holds_le_one (hcarries : system.Carries hstep pending run total) (number : Number) :
    run.holds number ≤ 1 :=
  Nat.le_trans (Nat.le_add_right _ _) (hcarries.distinct number)

/-- The timers of the system are those of the foreground. -/
theorem timers_eq (hcarries : system.Carries hstep pending run total) :
    system.timers = run.timers := by
  rw [timers, hcarries.front_eq, hcarries.alone.tasks_eq]
  simp

/-- If nobody stirs, the clock moves to the next timer, which calls whoever waits for it. -/
theorem moveClock (hcarries : system.Carries hstep [] run total)
    (hidle : run.stirs system.world.now = false) :
    ∃ time next, system.nextDue? = some time ∧
      (system.moveClock time).Carries hstep [] next total ∧
      (system.moveClock time).called = true ∧
      (system.moveClock time).world.putOff = system.world.putOff ∧
      next.stirs (system.moveClock time).world.now = true := by
  obtain ⟨timer, hmem, hnext⟩ : ∃ timer ∈ run.timers, system.nextDue? = some timer.due := by
    cases hmin : system.nextDue? with
    | none =>
      rw [nextDue?, hcarries.timers_eq, List.min?_eq_none_iff, List.map_eq_nil_iff] at hmin
      exact absurd hmin (timers_ne_nil run hcarries.heeded hidle)
    | some time =>
      rw [nextDue?, hcarries.timers_eq] at hmin
      obtain ⟨timer, hmem, rfl⟩ := List.mem_map.mp (List.min?_mem hmin)
      exact ⟨timer, hmem, rfl⟩
  let now := max system.world.now timer.due
  let later : System tree := { system with world := { system.world with now, results := [] } }
  let calls : List Call := (Timer.calling now run.timers).map .due
  have hdue : timer.due ≤ now := Nat.le_max_right _ _
  have hrings := rings_calling hcarries.holds_le_one now
  have hcalling : later.Carries hstep calls run total := by
    obtain ⟨debt, howes, hle⟩ := hcarries.owed
    have hvain := Nat.mul_le_mul_left step (vain_rings run hidle hrings)
    refine ⟨⟨hcarries.alone.tasks_eq, hcarries.alone.ready_eq⟩, hcarries.front_eq, fun number => ?_,
      isHeeded_rings run hidle hrings hcarries.heeded, debt, howes,
      Nat.le_trans (Nat.add_le_add_left hvain debt) hle⟩
    have honce := hcarries.distinct number
    cases number <;> exact honce
  obtain ⟨next, hmoved, hhears⟩ := hcalling.callAll fun call hcall => by
    obtain ⟨order, -, rfl⟩ := List.mem_map.mp hcall
    exact ⟨_, rfl⟩
  have hclock : system.moveClock timer.due = later.callAll calls := by
    rw [System.moveClock, hcarries.timers_eq]
  have hhailed : run.isHailed calls = true :=
    hrings.isHailed hidle (stirs_of_due hdue run hmem)
  rw [hhailed] at hhears
  refine ⟨timer.due, next, hnext, hclock ▸ hmoved, ?_, ?_, ?_⟩
  · rw [hclock, hhears.called_eq, Bool.or_true]
  · rw [hclock, hhears.world_eq]
  · rw [hclock, hhears.world_eq, hhears.stirs_eq]
    exact stirs_of_due hdue run hmem

/-- In each round the foreground has a turn, after those have been called who put a wait off, and
after the clock has moved if that is needed. If nobody stirs then, the clock has not moved. -/
theorem next (hcarries : system.Carries hstep system.world.calls run total)
    (hattended : Attended .front system.world system.called (run.stirs system.world.now)
      (run.awaits ·)) :
    ∃ later next,
      (if system.resume.isIdle then system.resume.nextDue?.map system.resume.moveClock
        else some system.resume) = some later ∧
      later.called = true ∧ later.Carries hstep [] next total ∧ later.world.putOff = [] ∧
      (next.stirs later.world.now = true ∨
        run.stirs system.world.now = false ∧ system.IsExpectant) := by
  obtain ⟨next, hresumed, hhears⟩ := hcarries.resume
  have hworld : system.resume.world = { system.world with putOff := [] } := hhears.world_eq
  have hcalled : system.resume.called =
      (system.called || system.world.putOff.any (callsFront run)) := hhears.called_eq
  have hstirs : next.stirs system.resume.world.now = run.stirs system.world.now := by
    rw [hworld]
    exact hhears.stirs_eq _
  cases hnow : system.resume.called with
  | true =>
    have hbusy : system.resume.isIdle = false := by rw [isIdle, hnow]; rfl
    refine ⟨system.resume, next, by rw [hbusy]; rfl, hnow, hresumed, by rw [hworld], ?_⟩
    rw [hstirs]
    cases hrun : run.stirs system.world.now with
    | true => exact .inl rfl
    | false =>
      refine .inr ⟨rfl, ?_⟩
      rw [hnow, eq_comm, Bool.or_eq_true] at hcalled
      refine hcalled.imp_right ?_
      rintro hany hnone
      rw [hnone] at hany
      cases hany
  | false =>
    have hidle : system.resume.isIdle = true := by
      rw [isIdle, hnow, hresumed.alone.ready_eq]
      rfl
    have hrun : run.stirs system.world.now = false := by
      rw [← Bool.not_eq_true]
      intro hrun
      rw [hnow, eq_comm, Bool.or_eq_false_iff] at hcalled
      rcases hattended hrun with hagain | hconcerns
      · exact absurd hagain (by simp [hcalled.1])
      · exact absurd (any_callsFront hconcerns) (by simp [hcalled.2])
    obtain ⟨time, last, hnext, hmoved, hmovedCalled, hputOff, hmovedStirs⟩ :=
      hresumed.moveClock (hstirs.trans hrun)
    refine ⟨_, last, by rw [hidle, hnext]; rfl, hmovedCalled, hmoved, ?_, .inl hmovedStirs⟩
    rw [hputOff, hworld]

end Carries

/-! ## Turns -/

/-- The foreground has had its turn, what is left is covered by a total, and whoever stirs will be
called. -/
def Remains (hstep : step ≤ 1) (system : System tree) (outcome : Outcome) (total : Nat) : Prop :=
  match outcome with
  | .answered _ => system.IsAlone
  | .waiting run =>
    system.Carries hstep system.world.calls run total ∧
      Attended .front system.world system.called (run.stirs system.world.now) (run.awaits ·)
  | .failed _ => False

/-- Nobody in the foreground stirs, and yet it may have the next turn at the same instant. -/
def MayWaste (system : System tree) (outcome : Outcome) : Prop :=
  ∃ run, outcome = .waiting run ∧ run.stirs system.world.now = false ∧ system.IsExpectant

/-- A turn is paid for, and leaves the foreground with an answer or with what is covered by the
rest. It gets somebody on if somebody stirs, or if the next turn may be wasted. -/
theorem remains_runFront (hlimited : tree.IsLimited) {slot : Slot Run} (halone : system.IsAlone)
    (hfront : system.front = slot.run?) (hputOff : system.world.putOff = [])
    (hdistinct : (system.world.beginTurn .front).Distinct (holdsOf slot.run?))
    (hanswered : slot.isAnswered = false)
    (howes : slot.Owes (tree.price step)
      (Charged step (system.memory.Owes hstep) (system.world.beginTurn .front)) total) :
    ∃ left, system.runFront.2.1.Remains hstep system.runFront.1 left ∧
      Pays step (system.runFront.2.2.visits tree.isLeafAt) left total
        (slot = .fresh ∨ slot.stirs system.world.now = true ∨
          system.runFront.2.1.MayWaste system.runFront.1) := by
  have hfair : (system.world.beginTurn .front).IsFair := fun _ => hputOff
  obtain ⟨later, left, hsettles⟩ := tree.settles hstep hlimited hanswered hfair hdistinct howes
  have hconserves := conserves_advance tree slot.run? system.memory (system.world.beginTurn .front)
  have helapses := Course.elapsing.advance tree slot.run? system.memory
    (system.world.beginTurn .front)
  rw [← hfront] at hsettles hconserves helapses
  have hslot : system.frontTurn.result.slot = .ok later := hsettles.slot_eq
  have hspawned : system.frontTurn.spawned = [] := hsettles.spawned_eq
  have hnow : system.frontTurn.world.now = system.world.now := helapses.now_eq
  have hafter : system.runFront.2.1.IsAlone := by
    rw [runFront_eq]
    constructor
    · simp [absorb, hspawned, halone.tasks_eq]
    · simp [absorb, hspawned, halone.ready_eq]
  rw [runFront_eq] at hafter ⊢
  cases hresult : system.frontTurn.result with
  | failed fault =>
    rw [hresult] at hslot
    cases hslot
  | answered status =>
    rw [hresult] at hafter hslot
    cases hslot
    refine ⟨left, hafter, hsettles.pays.imp ?_⟩
    rintro (hfresh | hstirs | ⟨run, hrun, -⟩)
    · exact .inl hfresh
    · exact .inr (.inr (.inr ⟨Nat.zero_lt_succ _, .inl hstirs⟩))
    · cases hrun
  | waiting run =>
    rw [hresult] at hafter hslot
    cases hslot
    obtain ⟨hheeded, howed⟩ := hsettles.owed run rfl
    have hpresent : system.frontTurn.world.present = .front := hconserves.present_eq
    have hresultRun : (advance tree system.front system.memory
        (system.world.beginTurn .front)).result.run? = some run := congrArg Outcome.run? hresult
    have hlater := hconserves.distinct
      (hdistinct.mono fun number => Nat.le_of_eq (by rw [hfront, Nat.zero_add]))
    rw [hresultRun] at hlater
    refine ⟨left, ⟨⟨hafter, rfl, hlater.mono fun number => Nat.le_add_left _ _, hheeded, howed⟩,
      ?_⟩, hsettles.pays.imp ?_⟩
    · intro hstirs
      exact hsettles.attended (hnow ▸ hstirs)
    · rintro (hfresh | hstirs | ⟨run, ⟨⟩, hidle, hexpectant⟩)
      · exact .inl hfresh
      · exact .inr (.inr (.inr ⟨Nat.zero_lt_succ _, .inl hstirs⟩))
      · have hlaterIdle : run.stirs system.world.now = false := hnow ▸ hidle
        rcases hexpectant with hagain | hwaits
        · exact .inr (.inr (.inr ⟨Nat.zero_lt_succ _, .inr ⟨hagain, hlaterIdle⟩⟩))
        · -- a wait is put off only when no more may end
          have hspent : ¬0 < (advance tree system.front system.memory
              (system.world.beginTurn .front)).world.waitsLeft :=
            fun hleft => hwaits ((helapses.putOff_eq hleft).trans hputOff)
          exact .inr (.inl (Nat.lt_of_le_of_lt (Nat.not_lt.mp hspent) (Nat.zero_lt_succ _)))

/-- The next turn of a suspended execution is paid for out of what the foreground carries. -/
theorem Carries.remains_runFront {run : Run} (hcarries : system.Carries hstep [] run total)
    (hlimited : tree.IsLimited) (hputOff : system.world.putOff = []) :
    ∃ left, system.runFront.2.1.Remains hstep system.runFront.1 left ∧
      Pays step (system.runFront.2.2.visits tree.isLeafAt) left total
        (run.stirs system.world.now = true ∨
          system.runFront.2.1.MayWaste system.runFront.1) := by
  have hdistinct : (system.world.beginTurn .front).Distinct (holdsOf (Slot.waiting run).run?) := by
    intro number
    have honce : run.holds number + (system.world.supply number + _) ≤ 1 :=
      hcarries.distinct number
    change run.holds number + (system.world.supply number + 0) ≤ 1
    omega
  have howes : (Slot.waiting run).Owes (tree.price step)
      (Charged step (system.memory.Owes hstep) (system.world.beginTurn .front)) total := by
    have hcalls : (system.world.beginTurn .front).calls = [] := by
      change system.world.putOff.filterMap Party.call? = []
      rw [hputOff]
      rfl
    rw [Slot.Owes, Charged, hcalls]
    exact ⟨hcarries.heeded, hcarries.owed⟩
  have hfront : system.front = (Slot.waiting run).run? := hcarries.front_eq
  obtain ⟨left, hremains, hpays⟩ :=
    System.remains_runFront hlimited hcarries.alone hfront hputOff hdistinct rfl howes
  refine ⟨left, hremains, hpays.imp ?_⟩
  rintro (hstirs | hwaste)
  · exact .inr (.inl hstirs)
  · exact .inr (.inr hwaste)

/-! ## Executions -/

open Classical in
/-- How many more turns there can be: each of them gets somebody on, but for one after every turn
that does. -/
noncomputable def turnsLeft (system : System tree) (outcome : Outcome) (left : Nat) : Nat :=
  2 * left + if system.MayWaste outcome then 1 else 0

/-- All further turns are paid for, and if steps have to be paid for as well, they end with an
answer before patience runs out. -/
theorem paid_complete (hlimited : tree.IsLimited) (fuel : Nat) {outcome : Outcome}
    (hremains : system.Remains hstep outcome total) :
    (complete fuel outcome system).2.1.IsAlone ∧
      (complete fuel outcome system).2.2.visits tree.isLeafAt ≤ total ∧
      (step = 1 → system.turnsLeft outcome total < fuel →
        ∃ status, (complete fuel outcome system).1 = .ok status) := by
  induction fuel generalizing outcome system total with
  | zero =>
    cases outcome with
    | answered status => exact ⟨hremains, Nat.zero_le _, fun _ _ => ⟨status, rfl⟩⟩
    | waiting run =>
      exact ⟨⟨hremains.1.alone.tasks_eq, hremains.1.alone.ready_eq⟩, Nat.zero_le _,
        fun _ hless => absurd hless (Nat.not_lt_zero _)⟩
    | failed fault => exact hremains.elim
  | succ fuel ih =>
    cases outcome with
    | answered status => exact ⟨hremains, Nat.zero_le _, fun _ _ => ⟨status, rfl⟩⟩
    | failed fault => exact hremains.elim
    | waiting run =>
      obtain ⟨hcarries, hattended⟩ := hremains
      obtain ⟨later, next, hlater, hcalled, hnext, hputOff, hstirs⟩ := hcarries.next hattended
      obtain ⟨left, hturn, hpays⟩ := hnext.remains_runFront hlimited hputOff
      obtain ⟨halone, hvisits, hends⟩ := ih hturn
      have hwithin := hpays.within
      have hgains := hpays.gains
      have hboth : later.runFront.2.2.visits tree.isLeafAt +
          (complete fuel later.runFront.1 later.runFront.2.1).2.2.visits tree.isLeafAt ≤ total := by
        omega
      rw [complete, hcarries.alone.round]
      dsimp only
      rw [hlater]
      dsimp only
      rw [if_pos hcalled, List.nil_append, Journal.visits_append]
      refine ⟨halone, hboth, fun hone hless => hends hone ?_⟩
      subst hone
      rw [turnsLeft] at hless ⊢
      split
      · next hwaste =>
        have hpaid := hgains (.inr hwaste)
        omega
      · rcases hstirs with hstirs | hwasted
        · have hpaid := hgains (.inl hstirs)
          omega
        · rw [if_pos ⟨run, rfl, hwasted⟩] at hless
          omega

/-- At the beginning of an execution no number is held. -/
theorem distinct_atRest (world : World) :
    (world.atRest.beginTurn .front).Distinct fun _ => 0 := by
  intro number
  cases number <;> simp [World.reserve, World.supply, World.atRest, World.beginTurn, Party.holds]

/-- The first turn is paid for out of the price of the tree. -/
theorem paid_refreshed (hstep : step ≤ 1) (hlimited : tree.IsLimited)
    (htasks : system.tasks = []) :
    ∃ left, system.refreshed.runFront.2.1.Remains hstep system.refreshed.runFront.1 left ∧
      left + system.refreshed.runFront.2.2.visits tree.isLeafAt + step ≤ tree.price step := by
  have hrefreshed :
      system.refreshed = { memory := system.memory, world := system.world.atRest } := by
    rw [refreshed, htasks]
    rfl
  rw [hrefreshed]
  have hfresh : (Slot.fresh : Slot Run).Owes (tree.price step)
      (Charged step (system.memory.Owes hstep) (system.world.atRest.beginTurn .front))
      (tree.price step) := Nat.le_refl _
  let first : System tree := { memory := system.memory, world := system.world.atRest }
  have hfront : first.front = (Slot.fresh : Slot Run).run? := rfl
  obtain ⟨left, hremains, hpays⟩ := remains_runFront hlimited ⟨rfl, rfl⟩ hfront rfl
    (distinct_atRest system.world) rfl hfresh
  exact ⟨left, hremains, hpays.gains (.inl rfl)⟩

/-- One execution of the root ends with an answer, and its leaf executions are within the quota. -/
theorem paid_execute (hlimited : tree.IsLimited) (htasks : system.tasks = []) :
    (∃ status, system.execute.1 = .ok status) ∧ system.execute.2.1.IsAlone ∧
      system.execute.2.2.visits tree.isLeafAt ≤ tree.quota := by
  obtain ⟨left, hremains, hpaid⟩ := paid_refreshed (Nat.zero_le 1) hlimited htasks
  obtain ⟨rest, hsteps, hprice⟩ := paid_refreshed (Nat.le_refl 1) hlimited htasks
  obtain ⟨halone, hvisits, -⟩ :=
    paid_complete hlimited system.refreshed.runFront.2.1.patience hremains
  obtain ⟨-, -, hends⟩ := paid_complete hlimited system.refreshed.runFront.2.1.patience hsteps
  have hspan := tree.price_one_le hlimited
  rw [tree.price_zero] at hpaid
  refine ⟨hends rfl ?_, halone, ?_⟩
  · have hturns : system.refreshed.runFront.2.1.turnsLeft system.refreshed.runFront.1 rest ≤
        2 * rest + 1 := by
      rw [turnsLeft]
      split <;> omega
    have hpatience : 8 * (tree.span + 1) ≤ system.refreshed.runFront.2.1.patience := by
      rw [patience, Nat.mul_assoc]
      have hmul := Nat.mul_le_mul_right (tree.span + 1)
        (Nat.le_add_left 1 system.refreshed.runFront.2.1.tasks.length)
      omega
    omega
  · have hjournal : system.execute.2.2 = system.refreshed.runFront.2.2 ++
        (complete system.refreshed.runFront.2.1.patience system.refreshed.runFront.1
          system.refreshed.runFront.2.1).2.2 := rfl
    rw [hjournal, Journal.visits_append]
    omega

end System

/-! ## Scripted leaves -/

/-- A cue that is not the one for a crash finishes with a status. -/
theorem Cue.exists_finish {cue : Cue} (hreturns : cue.letter ≠ "P") :
    ∃ status, cue.request = .finish status := by
  unfold request
  split
  · exact ⟨_, rfl⟩
  · exact ⟨_, rfl⟩
  · next hletter => exact absurd hletter hreturns
  · exact ⟨_, rfl⟩

/-- A scripted leaf returns if no entry of its script lets it crash. -/
theorem Performer.returns_scripted {script setKey : String}
    (hreturns : ∀ entry ∈ Text.splitAt ',' script.toList, (Cue.ofChars entry).letter ≠ "P") :
    (Kind.custom (Performer.scripted script setKey)).Returns := by
  intro score
  have hcue : ∀ call, (Cue.ofScript script call).letter ≠ "P" := by
    intro call
    rw [Cue.ofScript]
    cases hentry : (Text.splitAt ',' script.toList)[
        min call ((Text.splitAt ',' script.toList).length - 1)]? with
    | none => decide
    | some entry => exact hreturns entry (List.mem_of_getElem? hentry)
  have hconclude : ∀ call (score : Score),
      ∃ status, (conclude setKey score (Cue.ofScript script call)).request = .finish status :=
    fun call score => Cue.exists_finish (hcue call)
  have haffords : Machine.Affords (Kind.custom (Performer.scripted script setKey)).respond 0
      (fun _ => 0) 2 0 score .started := by
    refine Machine.affords_succ.mpr fun moment _ => ?_
    change Machine.Covers _ _ _ _ _ (playNext script setKey score)
    unfold playNext
    dsimp only
    split
    · obtain ⟨status, hstatus⟩ := hconclude score.calls { score with calls := score.calls + 1 }
      exact Machine.covers_finish hstatus
    · exact Machine.covers_sleep (Nat.le_refl (0 + 0))
        (Machine.affords_finish fun later => hconclude score.calls _)
  have hallowance : 2 ≤ Kind.patience := by decide
  exact haffords.mono hallowance (Nat.le_refl 0)

namespace Session

/-- A tick of a tree of limited nodes leaves nothing under way. -/
theorem Reached.isCalm (hlimited : tree.IsLimited) {session : Session tree}
    (hreached : session.Reached) : session.system.IsCalm := by
  refine hreached.kept (·.IsCalm) (fun _ => ⟨rfl, rfl⟩) (fun _ => ⟨rfl, rfl⟩)
    (fun {system} hcalm operation => ?_) fun hcalm _ _ => hcalm.same rfl rfl
  cases operation with
  | execute =>
    exact ⟨(System.paid_execute hlimited hcalm.tasks_eq).2.1.tasks_eq, system.front_execute⟩
  | abort => exact hcalm.same rfl rfl
  | reset => exact hcalm.same rfl rfl
  | pass duration => exact (hcalm.pass duration).1.otherCalm

/-- Every tick of a tree of limited nodes over leaves that return ends with an answer, and the
executions of leaves in it are within the quota of the tree. -/
theorem Reached.keepsQuota (hlimited : tree.IsLimited) {session : Session tree}
    (hreached : session.Reached) :
    (∃ status, session.tick.1 = .ok status) ∧
      session.tick.2.2.visits tree.isLeafAt ≤ tree.quota := by
  obtain ⟨hends, -, hvisits⟩ := System.paid_execute hlimited (hreached.isCalm hlimited).tasks_eq
  obtain ⟨hresult, -, hmilestones⟩ := session.tick_eq
  rw [Journal.visits_eq] at hvisits ⊢
  rw [hresult, hmilestones]
  exact ⟨hends, hvisits⟩

/-- Two doors, one of which is tried three times in a tick and the other one at most twice. -/
def twoDoors : Tree Performer :=
  ⟨"Both", .parallel ⟨2, 1⟩,
    [⟨"Persist", .retryUntilSuccess ⟨3, 10⟩, [⟨"Front", .custom (.scripted "F@5,F,R" ""), []⟩]⟩,
      ⟨"Retry", .retry ⟨2, 5, true⟩,
        [⟨"Knock", .repeating ⟨-1, true⟩, [⟨"Back", .custom (.scripted "F,S" ""), []⟩]⟩]⟩]⟩

/-- After a tick and an abort, the next tick ends after no more than five executions of the
doors. -/
theorem keepsQuota_twoDoors :
    twoDoors.IsLimited ∧ twoDoors.quota = 5 ∧
      let session := (Session.begin twoDoors {}).1.tick.2.1.abort.1
      session.Reached ∧ (∃ status, session.tick.1 = .ok status) ∧
        session.tick.2.2.visits twoDoors.isLeafAt ≤ 5 := by
  have hthree : (0 : Int) ≤ 3 := by decide
  have hlimited : twoDoors.IsLimited :=
    ⟨trivial,
      ⟨hthree, ⟨⟨rfl, Performer.returns_scripted (by decide)⟩, trivial⟩, trivial⟩,
      ⟨trivial, ⟨trivial, ⟨⟨rfl, Performer.returns_scripted (by decide)⟩, trivial⟩, trivial⟩,
        trivial⟩, trivial⟩
  obtain ⟨⟨status, hstatus⟩, -⟩ := Reached.keepsQuota hlimited (.begun {})
  have hreached := ((@Reached.begun _ _ twoDoors {}).ticked hstatus).aborted
  exact ⟨hlimited, rfl, hreached, hreached.keepsQuota hlimited⟩

end Session

end BehaviorTree
