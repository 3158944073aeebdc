import BehaviorTree.Proofs.Tree.PendingCalls
import BehaviorTree.Proofs.Tree.Calls

/-!
# Timers call the children that have something to do

When nothing in a suspended execution stirs, everyone in it waits for a timer that has been started.
As soon as the time of one of them has come, its call is enough: whoever stirs then is marked, and
no mark is made in vain (`isHeeded_rings`, `vain_rings`).
-/

namespace BehaviorTree

mutual

/-- What did not stir before and stirs now waits for a timer whose time has come. -/
theorem exists_due_of_stirs {now later : Nat} : (run : Run) → run.stirs now = false →
    run.stirs later = true → ∃ timer ∈ run.timers, timer.due ≤ later
  | .child mark index run, hidle, hstirs => by
    rw [Run.stirs] at hidle hstirs
    rw [Run.timers]
    exact exists_due_of_stirs run hidle hstirs
  | .paused pause, hidle, hstirs => by
    rw [Run.stirs, Pause.stirs, Bool.or_eq_false_iff] at hidle
    rw [Run.stirs, Pause.stirs, hidle.1, Bool.false_or, decide_eq_true_eq] at hstirs
    have hstarted : pause.timer.order.isSome = true := by
      rw [← Option.not_isNone, hidle.1]
      rfl
    exact ⟨pause.timer, by simp [Run.timers, hstarted], hstirs⟩
  | .together slots, hidle, hstirs => by
    rw [Run.stirs] at hidle hstirs
    rw [Run.timers]
    exact exists_due_of_slotsStir slots hidle hstirs
  | .crowd id slots called, hidle, hstirs => by
    rw [Run.stirs] at hidle hstirs
    rw [Run.timers]
    exact exists_due_of_slotsStir slots hidle hstirs

/-- If children stir at a later time only, then the time of one of their timers has come. -/
theorem exists_due_of_slotsStir {now later : Nat} : (slots : List (Slot Run)) →
    slotsStir now slots = false → slotsStir later slots = true →
      ∃ timer ∈ slotTimers slots, timer.due ≤ later
  | [], _, hstirs => by cases hstirs
  | .fresh :: rest, hidle, _ => by cases hidle
  | .answered status :: rest, hidle, hstirs => by
    rw [slotsStir] at hidle hstirs
    rw [slotTimers]
    exact exists_due_of_slotsStir rest hidle hstirs
  | .waiting run :: rest, hidle, hstirs => by
    rw [slotsStir, Bool.or_eq_false_iff] at hidle
    rw [slotsStir, Bool.or_eq_true] at hstirs
    rw [slotTimers]
    rcases hstirs with hstirs | hstirs
    · obtain ⟨timer, hmem, hdue⟩ := exists_due_of_stirs run hidle.1 hstirs
      exact ⟨timer, List.mem_append_left _ hmem, hdue⟩
    · obtain ⟨timer, hmem, hdue⟩ := exists_due_of_slotsStir rest hidle.2 hstirs
      exact ⟨timer, List.mem_append_right _ hmem, hdue⟩

end

mutual

/-- Whoever waits for a timer stirs when its time has come. -/
theorem stirs_of_due {now : Nat} {timer : Timer} (hdue : timer.due ≤ now) :
    (run : Run) → timer ∈ run.timers → run.stirs now = true
  | .child mark index run, hmem => by
    rw [Run.timers] at hmem
    rw [Run.stirs]
    exact stirs_of_due hdue run hmem
  | .paused pause, hmem => by
    rw [Run.timers] at hmem
    split at hmem
    · obtain rfl := List.mem_singleton.mp hmem
      simp [Run.stirs, Pause.stirs, hdue]
    · cases hmem
  | .together slots, hmem => by
    rw [Run.timers] at hmem
    rw [Run.stirs]
    exact slotsStir_of_due hdue slots hmem
  | .crowd id slots called, hmem => by
    rw [Run.timers] at hmem
    rw [Run.stirs]
    exact slotsStir_of_due hdue slots hmem

/-- Children stir as soon as the time of one of their timers has come. -/
theorem slotsStir_of_due {now : Nat} {timer : Timer} (hdue : timer.due ≤ now) :
    (slots : List (Slot Run)) → timer ∈ slotTimers slots → slotsStir now slots = true
  | [], hmem => by cases hmem
  | .fresh :: rest, _ => rfl
  | .answered status :: rest, hmem => by
    rw [slotTimers] at hmem
    rw [slotsStir]
    exact slotsStir_of_due hdue rest hmem
  | .waiting run :: rest, hmem => by
    rw [slotTimers] at hmem
    rw [slotsStir, Bool.or_eq_true]
    exact (List.mem_append.mp hmem).imp (stirs_of_due hdue run) (slotsStir_of_due hdue rest)

end

mutual

/-- A run that holds the number of a timer once waits for one timer with it. -/
theorem holds_eq_countP (order : Nat) : (run : Run) →
    run.holds (.timer order) = run.timers.countP (·.order = some order)
  | .child mark index run => by rw [Run.holds, Run.timers, holds_eq_countP order run]
  | .paused pause => by
    rw [Run.holds, Run.timers, Pause.holds]
    cases horder : pause.timer.order <;> simp [horder]
  | .together slots => by rw [Run.holds, Run.timers, slotsHold_eq_countP order slots]
  | .crowd id slots called => by
    rw [Run.holds, Run.timers, slotsHold_eq_countP order slots]
    simp

/-- Children hold the number of a timer as often as they wait for it. -/
theorem slotsHold_eq_countP (order : Nat) : (slots : List (Slot Run)) →
    slotsHold (.timer order) slots = (slotTimers slots).countP (·.order = some order)
  | [] => rfl
  | .fresh :: rest => by rw [slotsHold, slotTimers, slotsHold_eq_countP order rest]
  | .answered status :: rest => by rw [slotsHold, slotTimers, slotsHold_eq_countP order rest]
  | .waiting run :: rest => by
    rw [slotsHold, slotTimers, List.countP_append, holds_eq_countP order run,
      slotsHold_eq_countP order rest]

end

/-- If at most one item has a property, then two items that have it are the same. -/
theorem eq_of_countP_le_one {α : Type} {p : α → Bool} {items : List α} {first second : α}
    (hle : items.countP p ≤ 1) (hfirst : first ∈ items) (hsecond : second ∈ items)
    (hp : p first = true) (hq : p second = true) : first = second := by
  rw [List.countP_eq_length_filter] at hle
  have hmem := List.mem_filter.mpr ⟨hfirst, hp⟩
  have hother := List.mem_filter.mpr ⟨hsecond, hq⟩
  match hitems : items.filter p with
  | [] =>
    rw [hitems] at hmem
    cases hmem
  | [only] =>
    rw [hitems] at hmem hother
    exact (List.mem_singleton.mp hmem).trans (List.mem_singleton.mp hother).symm
  | _ :: _ :: _ =>
    rw [hitems] at hle
    simp at hle

mutual

/-- Someone waits for a timer where somebody waits and nobody stirs. -/
theorem timers_ne_nil {now : Nat} {pending : List Call} : (run : Run) →
    run.IsHeeded now pending → run.stirs now = false → run.timers ≠ []
  | .child mark index run, hheeded, hidle => by
    rw [Run.IsHeeded] at hheeded
    rw [Run.stirs] at hidle
    rw [Run.timers]
    exact timers_ne_nil run hheeded hidle
  | .paused pause, _, hidle => by
    rw [Run.stirs, Pause.stirs, Bool.or_eq_false_iff] at hidle
    have hstarted : pause.timer.order.isSome = true := by
      rw [← Option.not_isNone, hidle.1]
      rfl
    simp [Run.timers, hstarted]
  | .together slots, hheeded, hidle => by
    rw [Run.IsHeeded] at hheeded
    rw [Run.stirs] at hidle
    rw [Run.timers]
    exact slotTimers_ne_nil slots hheeded.1 hheeded.2 hidle
  | .crowd id slots called, hheeded, hidle => by
    obtain ⟨hwaits, hslots, -⟩ := isHeeded_crowd.mp hheeded
    rw [Run.stirs] at hidle
    rw [Run.timers]
    exact slotTimers_ne_nil slots hwaits hslots hidle

/-- Children that are heeded and of whom none stirs wait for a timer. -/
theorem slotTimers_ne_nil {now : Nat} {pending : List Call} : (slots : List (Slot Run)) →
    Slot.allAnswered? slots = none → SlotsHeeded now pending slots →
      slotsStir now slots = false → slotTimers slots ≠ []
  | [], hwaits, _, _ => by cases hwaits
  | .fresh :: rest, _, _, hidle => by cases hidle
  | .answered status :: rest, hwaits, hheeded, hidle => by
    rw [Slot.allAnswered?, Option.map_eq_none_iff] at hwaits
    rw [SlotsHeeded] at hheeded
    rw [slotsStir] at hidle
    rw [slotTimers]
    exact slotTimers_ne_nil rest hwaits hheeded hidle
  | .waiting run :: rest, _, hheeded, hidle => by
    rw [SlotsHeeded] at hheeded
    rw [slotsStir, Bool.or_eq_false_iff] at hidle
    rw [slotTimers]
    exact List.append_ne_nil_of_left_ne_nil (timers_ne_nil run hheeded.1 hidle.1) _

end

/-- The clock moves: the timers in a run whose time has come call, and nothing else does. -/
structure Rings (later : Nat) (calls : List Call) (timers : List Timer) : Prop where
  /-- A timer whose time has come has a number and makes its call. -/
  due : ∀ timer ∈ timers, timer.due ≤ later →
    ∃ order, timer.order = some order ∧ Call.due order ∈ calls
  /-- A call is for a number, and the time of every timer with that number has come. -/
  only : ∀ call ∈ calls, ∃ order, call = .due order ∧
    ∀ timer ∈ timers, timer.order = some order → timer.due ≤ later

/-- The clock that calls for some timers does so for fewer. -/
theorem Rings.mono {later : Nat} {calls : List Call} {timers fewer : List Timer}
    (hrings : Rings later calls timers) (hsubset : ∀ timer ∈ fewer, timer ∈ timers) :
    Rings later calls fewer where
  due := fun timer hmem => hrings.due timer (hsubset timer hmem)
  only := fun call hmem => by
    obtain ⟨order, rfl, hdue⟩ := hrings.only call hmem
    exact ⟨order, rfl, fun timer hmem => hdue timer (hsubset timer hmem)⟩

/-- Whoever comes to stir is hailed by a timer of its own. -/
theorem Rings.isHailed {now later : Nat} {calls : List Call} {run : Run}
    (hrings : Rings later calls run.timers) (hidle : run.stirs now = false)
    (hstirs : run.stirs later = true) : run.isHailed calls = true := by
  obtain ⟨timer, hmem, hdue⟩ := exists_due_of_stirs run hidle hstirs
  obtain ⟨order, horder, hcall⟩ := hrings.due timer hmem hdue
  obtain ⟨number, hnumber, hawaits⟩ := awaits_of_mem_timers run hmem
  rw [horder] at hnumber
  cases hnumber
  exact List.any_eq_true.mpr ⟨_, hcall, hawaits⟩

/-- Whoever is hailed has come to stir. -/
theorem Rings.stirs {later : Nat} {calls : List Call} {run : Run}
    (hrings : Rings later calls run.timers) (hhailed : run.isHailed calls = true) :
    run.stirs later = true := by
  obtain ⟨call, hcall, hawaits⟩ := List.any_eq_true.mp hhailed
  obtain ⟨order, rfl, hdue⟩ := hrings.only call hcall
  obtain ⟨timer, hmem, horder⟩ := exists_timer_of_awaits run hawaits
  exact stirs_of_due (hdue timer hmem horder) run hmem

/-- If no child stirs, then none that is suspended does. -/
theorem idle_of_slotsStir {now : Nat} {slots : List (Slot Run)} {index : Nat} {run : Run}
    (hidle : slotsStir now slots = false) (hslot : slots[index]? = some (.waiting run)) :
    run.stirs now = false := by
  cases hstirs : run.stirs now with
  | false => rfl
  | true =>
    have htrue := slotsStir_iff.mpr ⟨index, _, hslot, hstirs⟩
    rw [hidle] at htrue
    cases htrue

/-- Whoever belongs to a crowd waits for timers that the crowd waits for. -/
theorem Rings.child {later : Nat} {calls : List Call} {slots : List (Slot Run)} {index : Nat}
    {run : Run} (hrings : Rings later calls (slotTimers slots))
    (hslot : slots[index]? = some (.waiting run)) : Rings later calls run.timers :=
  hrings.mono fun _ hmem => mem_slotTimers.mpr ⟨run, List.mem_of_getElem? hslot, hmem⟩

mutual

/-- Whoever stirs is marked by the calls of the timers. -/
theorem isHeeded_rings {now later : Nat} {calls : List Call} :
    (run : Run) → run.stirs now = false → Rings later calls run.timers →
      run.IsHeeded now [] → run.IsHeeded later calls
  | .child mark index run, hidle, hrings, hheeded => by
    rw [Run.stirs] at hidle
    rw [Run.timers] at hrings
    rw [Run.IsHeeded] at hheeded ⊢
    exact isHeeded_rings run hidle hrings hheeded
  | .paused pause, _, _, _ => by
    rw [Run.IsHeeded]
    trivial
  | .together slots, hidle, hrings, hheeded => by
    rw [Run.stirs] at hidle
    rw [Run.timers] at hrings
    rw [Run.IsHeeded] at hheeded ⊢
    exact ⟨hheeded.1, slotsHeeded_rings slots hidle hrings hheeded.2⟩
  | .crowd id slots called, hidle, hrings, hheeded => by
    rw [Run.stirs] at hidle
    rw [Run.timers] at hrings
    obtain ⟨hwaits, hslots, hwell⟩ := isHeeded_crowd.mp hheeded
    refine isHeeded_crowd.mpr ⟨hwaits, slotsHeeded_rings slots hidle hrings hslots,
      { hwell with marked := fun index run hslot hstirs => ?_ }⟩
    have hrun : run.isHailed calls = true :=
      (hrings.child hslot).isHailed (idle_of_slotsStir hidle hslot) hstirs
    rw [isMarked, hrun, Bool.or_true]

/-- Children that are heeded while nobody stirs are so when the clock has moved. -/
theorem slotsHeeded_rings {now later : Nat} {calls : List Call} :
    (slots : List (Slot Run)) → slotsStir now slots = false →
      Rings later calls (slotTimers slots) → SlotsHeeded now [] slots →
        SlotsHeeded later calls slots
  | [], _, _, _ => trivial
  | .fresh :: rest, hidle, _, _ => by cases hidle
  | .answered status :: rest, hidle, hrings, hheeded => by
    rw [slotsStir] at hidle
    rw [slotTimers] at hrings
    rw [SlotsHeeded] at hheeded ⊢
    exact slotsHeeded_rings rest hidle hrings hheeded
  | .waiting run :: rest, hidle, hrings, hheeded => by
    rw [slotsStir, Bool.or_eq_false_iff] at hidle
    rw [slotTimers] at hrings
    rw [SlotsHeeded] at hheeded ⊢
    exact ⟨isHeeded_rings run hidle.1
        (hrings.mono fun _ => List.mem_append_left _) hheeded.1,
      slotsHeeded_rings rest hidle.2 (hrings.mono fun _ => List.mem_append_right _) hheeded.2⟩

end

mutual

/-- No mark is made in vain. -/
theorem vain_rings {now later : Nat} {calls : List Call} :
    (run : Run) → run.stirs now = false → Rings later calls run.timers →
      run.vain later calls ≤ run.vain now []
  | .child mark index run, hidle, hrings => by
    rw [Run.stirs] at hidle
    rw [Run.timers] at hrings
    rw [Run.vain, Run.vain]
    exact vain_rings run hidle hrings
  | .paused pause, _, _ => Nat.le_of_eq (by rw [Run.vain, Run.vain])
  | .together slots, hidle, hrings => by
    rw [Run.stirs] at hidle
    rw [Run.timers] at hrings
    rw [Run.vain, Run.vain]
    exact slotsVain_rings slots hidle hrings 0 _ _ fun _ _ _ hmarked _ => hmarked
  | .crowd id slots called, hidle, hrings => by
    rw [Run.stirs] at hidle
    rw [Run.timers] at hrings
    rw [Run.vain, Run.vain]
    refine slotsVain_rings slots hidle hrings 0 _ _ fun offset run hslot hmarked hstill => ?_
    have hrun : run.isHailed calls = false := by
      cases hhailed : run.isHailed calls with
      | false => rfl
      | true =>
        rw [(hrings.child hslot).stirs hhailed] at hstill
        cases hstill
    have hturn : Call.turn id offset ∉ calls := by
      intro hmem
      obtain ⟨order, heq, -⟩ := hrings.only _ hmem
      cases heq
    rw [Nat.zero_add] at hmarked ⊢
    have hcalled : offset ∈ called := by simpa [isMarked, hrun, hturn] using hmarked
    exact isMarked_iff.mpr (.inl hcalled)

/-- No look is in vain at children of whom nobody stirred before the clock moved. -/
theorem slotsVain_rings {now later : Nat} {calls : List Call} :
    (slots : List (Slot Run)) → slotsStir now slots = false →
      Rings later calls (slotTimers slots) → (start : Nat) → (marked after : Nat → Run → Bool) →
      (∀ offset run, slots[offset]? = some (.waiting run) → after (start + offset) run = true →
        run.stirs later = false → marked (start + offset) run = true) →
      slotsVain later calls after start slots ≤ slotsVain now [] marked start slots
  | [], _, _, _, _, _, _ => Nat.le_refl _
  | .fresh :: rest, hidle, _, _, _, _, _ => by cases hidle
  | .answered status :: rest, hidle, hrings, start, marked, after, hmarks => by
    rw [slotsStir] at hidle
    rw [slotTimers] at hrings
    rw [slotsVain, slotsVain]
    refine slotsVain_rings rest hidle hrings _ _ _ fun offset run hslot => ?_
    rw [Nat.add_right_comm]
    exact hmarks (offset + 1) run hslot
  | .waiting run :: rest, hidle, hrings, start, marked, after, hmarks => by
    rw [slotsStir, Bool.or_eq_false_iff] at hidle
    rw [slotTimers] at hrings
    have hmark := hmarks 0 run rfl
    have hrun := vain_rings run hidle.1 (hrings.mono fun _ => List.mem_append_left _)
    have hrest := slotsVain_rings rest hidle.2 (hrings.mono fun _ => List.mem_append_right _)
      (start + 1) marked after fun offset run hslot => by
        rw [Nat.add_right_comm]
        exact hmarks (offset + 1) run hslot
    have hone : (if after start run && !run.stirs later then 1 else 0) ≤
        if marked start run && !run.stirs now then 1 else 0 := by
      rw [hidle.1]
      rw [Nat.add_zero] at hmark
      cases hstill : run.stirs later with
      | true => simp
      | false =>
        cases hafter : after start run with
        | false => simp
        | true => simp [hmark hafter hstill]
    rw [slotsVain, slotsVain]
    omega

end

end BehaviorTree
