import BehaviorTree.Proofs.Node.RequestCost
import BehaviorTree.Proofs.Tree.ChildTurnCost

/-!
# Turns of a node stay within the bound

A suspended node owes what is left of the request that it waits for, and what it affords afterwards.
If its crew is settled, a turn of the node stays within that: the visits in the turn, and what the
execution owes that is suspended after it, do not exceed what was owed before
(`Crew.IsSettled.turn`).
-/

namespace BehaviorTree

variable {κ : Type} [Application κ] {μ ρ : Type}

/-- A stretch of execution is paid for, and so is what it leaves suspended. -/
structure Progress.IsPaid (seen : ρ → Reply) (step : Nat) (counted : Path → Bool)
    (owes : μ → Run → Nat → Prop) (world : World) (before : Bool) (total left : Nat)
    (progress : Progress ρ μ) : Prop where
  /-- It does not fail. -/
  sound : ∀ fault, seen progress.result ≠ .stop (.failed fault)
  /-- No task is started. -/
  spawned_eq : progress.spawned = []
  /-- What is left covers what a suspended execution owes. -/
  owed : ∀ run, (seen progress.result).run? = some run →
    Charged step (owes progress.memory) progress.world run left
  /-- If it stirs, another look at it will come. -/
  attended : ∀ run, (seen progress.result).run? = some run →
    Attended world.present progress.world progress.again (run.stirs world.now) (run.awaits ·)
  /-- Its visits are paid for, and so is a step of the execution. -/
  pays : Pays step (progress.journal.visits counted) left total
    (Stride before world ((seen progress.result).run?.any (·.stirs world.now)) progress.again
      progress.world)

/-- A signal is no failure. -/
theorem Reply.signal_ne_failed (signal : Signal) (fault : Fault) :
    Reply.signal signal ≠ .stop (.failed fault) := by
  intro hfailed
  cases hfailed

/-- An answer is no failure. -/
theorem Reply.answered_ne_failed (status : Status) (fault : Fault) :
    Reply.stop (.answered status) ≠ .stop (.failed fault) := by
  intro hfailed
  cases hfailed

namespace Progress.IsPaid

variable {seen : ρ → Reply} {step total left : Nat} {counted : Path → Bool}
  {owes : μ → Run → Nat → Prop} {world : World} {before : Bool} {progress : Progress ρ μ}

/-- A reply that neither fails nor leaves a run suspended charges nothing, so only what has been
done has to be paid for. -/
theorem ofRunless {reply : Reply} (hseen : seen progress.result = reply)
    (hsound : ∀ fault, reply ≠ .stop (.failed fault)) (hrun : reply.run? = none)
    (hspawned : progress.spawned = [])
    (hpays : Pays step (progress.journal.visits counted) left total
      (Stride before world false progress.again progress.world)) :
    progress.IsPaid seen step counted owes world before total left := by
  have hnone : ∀ run, (seen progress.result).run? ≠ some run := by
    intro run hsome
    rw [hseen, hrun] at hsome
    cases hsome
  constructor
  · rw [hseen]
    exact hsound
  · exact hspawned
  · exact fun run hsome => absurd hsome (hnone run)
  · exact fun run hsome => absurd hsome (hnone run)
  · rw [hseen, hrun]
    exact hpays

/-- A reply that leaves a run suspended is paid for if its work is, the run is charged with the
rest, and whoever stirs in it will be looked at again. -/
theorem ofWaiting {run : Run} (hseen : seen progress.result = .stop (.waiting run))
    (hspawned : progress.spawned = [])
    (howed : Charged step (owes progress.memory) progress.world run left)
    (hattended : Attended world.present progress.world progress.again (run.stirs world.now)
      (run.awaits ·))
    (hpays : Pays step (progress.journal.visits counted) left total
      (Stride before world (run.stirs world.now) progress.again progress.world)) :
    progress.IsPaid seen step counted owes world before total left := by
  constructor
  · rw [hseen]
    rintro fault ⟨⟩
  · exact hspawned
  · rw [hseen]
    rintro run ⟨⟩
    exact howed
  · rw [hseen]
    rintro run ⟨⟩
    exact hattended
  · rw [hseen]
    exact hpays

end Progress.IsPaid

/-! ## Charges -/

section

variable {ledger : Ledger} {owes : Nat → Run → Nat → Prop} {world : World} {total : Nat}
  {slots : List (Slot Run)}

/-- A parent whose child is suspended is charged with what the child owes. -/
theorem charged_child {mark index : Nat} {run : Run} :
    Charged ledger.step (ledger.RunOwes owes) world (.child mark index run) total ↔
      index < ledger.size ∧ Charged ledger.step (owes index) world run total := by
  rw [Charged, Charged, Run.IsHeeded, Run.vain]
  constructor
  · rintro ⟨hheeded, debt, ⟨hindex, howes⟩, hle⟩
    exact ⟨hindex, hheeded, debt, howes, hle⟩
  · rintro ⟨hindex, hheeded, debt, howes, hle⟩
    exact ⟨hheeded, debt, ⟨hindex, howes⟩, hle⟩

/-- A sleep is charged with a step, and with two as long as its timer has not been started. -/
theorem charged_sleep {mark : Nat} {timer : Timer} :
    Charged ledger.step (ledger.RunOwes owes) world (.paused (.sleep mark timer)) total ↔
      (if timer.order.isSome then ledger.step else 2 * ledger.step) ≤ total := by
  rw [Charged, Run.IsHeeded, Run.vain]
  constructor
  · rintro ⟨-, debt, howes, hle⟩
    exact Nat.le_trans howes hle
  · intro hcost
    exact ⟨trivial, total, hcost, Nat.le_refl _⟩

/-- Without marks no child is marked in vain. -/
theorem spur_unmarked (now index : Nat) (slot : Slot Run) :
    spur now (fun _ _ => false) index slot = 0 := by
  cases slot <;> rfl

/-- Children side by side are charged with what all of them owe. -/
theorem charged_together :
    Charged ledger.step (ledger.RunOwes owes) world (.together slots) total ↔
      Slot.allAnswered? slots = none ∧ slots.length ≤ ledger.size ∧
        ledger.SlotsOwe (fun index => Charged ledger.step (owes index) world) (fun _ _ => 0) 0
          slots total := by
  have hextra : (fun index (slot : Slot Run) =>
      ledger.step * spur world.now (fun _ _ => false) index slot) = fun _ _ => 0 := by
    funext index slot
    rw [spur_unmarked, Nat.mul_zero]
  rw [Charged, Run.IsHeeded, Run.vain]
  constructor
  · rintro ⟨⟨hwaits, hheeded⟩, debt, ⟨hlength, howe⟩, hle⟩
    have hcharge := howe.charge hheeded (fun _ _ => false) hle
    rw [hextra] at hcharge
    exact ⟨hwaits, hlength, hcharge⟩
  · rintro ⟨hwaits, hlength, hcharge⟩
    rw [← hextra] at hcharge
    obtain ⟨hheeded, debt, howe, hle⟩ := hcharge.discharge
    exact ⟨⟨hwaits, hheeded⟩, debt, ⟨hlength, howe⟩, hle⟩

/-- A crowd is charged with what its children owe and with the marks in vain. -/
theorem charged_crowd {tour : Tour} :
    Charged ledger.step (ledger.RunOwes owes) world (.crowd tour.crowd tour.slots tour.called)
        total ↔
      Slot.allAnswered? tour.slots = none ∧ tour.Stands ledger owes world total := by
  rw [Charged, isHeeded_crowd, Run.vain]
  constructor
  · rintro ⟨⟨hwaits, hheeded, hwell⟩, debt, ⟨hlength, howe⟩, hle⟩
    exact ⟨hwaits, hlength, hwell, howe.charge hheeded _ hle⟩
  · rintro ⟨hwaits, hstands⟩
    obtain ⟨hheeded, debt, howe, hle⟩ := hstands.owed.discharge
    exact ⟨⟨hwaits, hheeded, hstands.well⟩, debt, ⟨hstands.length_le, howe⟩, hle⟩

end

/-! ## Replies -/

section

variable {ledger : Ledger} {owes : μ → Nat → Run → Nat → Prop} {world : World}

/-- What a node owes for a request that has been made. -/
abbrev Ledger.Served (ledger : Ledger) (owes : μ → Nat → Run → Nat → Prop) (world : World)
    (before : Bool) (total left : Nat) (progress : Progress Reply μ) : Prop :=
  progress.IsPaid id ledger.step ledger.counted (fun below => ledger.RunOwes (owes below)) world
    before total left

/-- What a node makes of a look at a child is paid for if the look is. -/
theorem served_child {mark index total left : Nat} {slot later : Slot Run}
    {progress : Progress Outcome μ}
    (hsettles : Settles ledger.step (fun path => ledger.counted (index :: path))
      (owes progress.memory index) world.present world slot total progress later left)
    (hindex : index < ledger.size) :
    ledger.Served owes world (slot.stirs world.now) total left
      ((progress.under index).map (replyOfChild mark index) id) := by
  have hslot := hsettles.slot_eq
  have hspawned : (progress.under index).spawned = [] := by
    rw [Progress.spawned_under, hsettles.spawned_eq]
    rfl
  have hpays := hsettles.pays.imp fun hstride => Or.inr hstride
  rw [← Journal.visits_map_under] at hpays
  have hreply : ((progress.under index).map (replyOfChild mark index) id).result =
      replyOfChild mark index progress.result := rfl
  cases hresult : progress.result with
  | failed fault =>
    rw [hresult] at hslot
    cases hslot
  | answered status =>
    rw [hresult] at hslot hreply
    cases hslot
    exact .ofRunless hreply (Reply.signal_ne_failed _) rfl hspawned hpays
  | waiting run =>
    rw [hresult] at hslot hreply
    cases hslot
    refine .ofWaiting hreply hspawned (charged_child.mpr ⟨hindex, hsettles.owed run rfl⟩) ?_ ?_
    · rw [Run.stirs]
      simp only [Run.awaits]
      exact hsettles.attended
    · rw [Run.stirs]
      exact hpays

/-- Nobody stirs among children that have all answered. -/
theorem slotsStir_of_allAnswered {slots : List (Slot Run)} {statuses : List Status}
    (hall : Slot.allAnswered? slots = some statuses) (now : Nat) : slotsStir now slots = false := by
  induction slots generalizing statuses with
  | nil => rfl
  | cons slot slots ih =>
    cases slot with
    | fresh | waiting run => cases hall
    | answered status =>
      rw [Slot.allAnswered?] at hall
      obtain ⟨rest, hrest, -⟩ := Option.map_eq_some_iff.mp hall
      rw [slotsStir]
      exact ih hrest

/-- What follows when a few children have been looked at. -/
theorem served_all {slots later : List (Slot Run)} {total left : Nat}
    {progress : Progress (Except Fault (List (Slot Run))) μ}
    (hsettles : SettlesAll ledger owes world 0 slots total progress later left)
    (hlength : slots.length ≤ ledger.size) :
    ledger.Served owes world (slotsStir world.now slots) total left
      (progress.map replyOfAll id) := by
  have hpays := hsettles.pays
  have hreply : (progress.map replyOfAll id).result = replyOfAll (.ok later) := by
    rw [Progress.result_map, hsettles.slots_eq]
  rw [replyOfAll] at hreply
  cases hall : Slot.allAnswered? later with
  | some statuses =>
    rw [hall] at hreply
    rw [slotsStir_of_allAnswered hall] at hpays
    exact .ofRunless hreply (Reply.signal_ne_failed _) rfl hsettles.spawned_eq hpays
  | none =>
    rw [hall] at hreply
    refine .ofWaiting hreply hsettles.spawned_eq (charged_together.mpr ⟨hall, ?_, hsettles.owed⟩)
      ?_ ?_
    · rw [hsettles.length_eq]
      exact hlength
    · rw [Run.stirs]
      simp only [Run.awaits]
      exact hsettles.attended
    · rw [Run.stirs]
      exact hpays

/-- Whoever stirs in a crowd that nobody calls any more will be called. -/
theorem attended_tour {tour : Tour} {owes : Nat → Run → Nat → Prop} {total : Nat} {again : Bool}
    (htour : tour.Stands ledger owes world total) (hrests : again = true ∨ tour.called = [])
    (party : Party) :
    Attended party world again (slotsStir world.now tour.slots)
      ((Run.crowd tour.crowd tour.slots tour.called).awaits ·) := by
  intro hstirs
  rcases hrests with hagain | hcalled
  · exact .inl hagain
  · refine .inr (.inr (List.any_eq_true.mpr ?_))
    obtain ⟨index, slot, hslot, hslotStirs⟩ := slotsStir_iff.mp hstirs
    cases slot with
    | fresh =>
      have hmem := htour.well.fresh index hslot
      rw [hcalled] at hmem
      cases hmem
    | answered status => cases hslotStirs
    | waiting run =>
      have hmarked := isMarked_iff.mp (htour.well.marked index run hslot hslotStirs)
      rw [hcalled] at hmarked
      rcases hmarked with hmem | hturn | ⟨call, hcall, hawaits⟩
      · cases hmem
      · refine ⟨_, hturn, ?_⟩
        rw [Run.awaits, member?_eq_some.mpr ⟨rfl, run, hslot⟩]
        rfl
      · refine ⟨call, hcall, ?_⟩
        rw [Run.awaits, slotAwaiting?_isSome hslot hawaits, Bool.or_true]

/-- What a node makes of a look at a crowd is paid for if the tour is. -/
theorem served_tour {tour later : Tour} {total left : Nat}
    {progress : Progress (Except Fault Tour) μ}
    (hsettles : SettlesTour ledger owes world tour total progress later left)
    (helapses : world.Elapses progress.world) :
    ledger.Served owes world (slotsStir world.now tour.slots) total left
      (progress.map replyOfTour id) := by
  have hpays := hsettles.pays
  have hreply : (progress.map replyOfTour id).result = replyOfTour (.ok later) := by
    rw [Progress.result_map, hsettles.tour_eq]
  rw [replyOfTour] at hreply
  cases hall : Slot.allAnswered? later.slots with
  | some statuses =>
    rw [hall] at hreply
    rw [slotsStir_of_allAnswered hall] at hpays
    exact .ofRunless hreply (Reply.signal_ne_failed _) rfl hsettles.spawned_eq hpays
  | none =>
    rw [hall] at hreply
    refine .ofWaiting hreply hsettles.spawned_eq (charged_crowd.mpr ⟨hall, hsettles.stands⟩) ?_ ?_
    · rw [Run.stirs, ← helapses.now_eq]
      exact attended_tour hsettles.stands hsettles.rests world.present
    · rw [Run.stirs]
      exact hpays

/-- A sleep costs two steps, one of which is paid when its timer is started. -/
theorem served_attend {mark total : Nat} {timer : Timer} (below : μ)
    (hcost : (if timer.order.isSome then ledger.step else 2 * ledger.step) ≤ total) :
    ∃ left, ledger.Served owes world ((Pause.sleep mark timer).stirs world.now) total left
      (attend (.sleep mark timer) below world) := by
  have hstep : ledger.step ≤ total := by
    split at hcost <;> omega
  unfold attend
  split
  · next hnone =>
    refine ⟨total, .ofWaiting rfl rfl (charged_sleep.mpr hcost) ?_ ?_⟩
    · exact fun _ => .inr (.inl (List.mem_append_right _ (List.mem_singleton.mpr rfl)))
    · refine .still ?_
      rw [Run.stirs]
      rintro (hless | ⟨hstirs, hidle⟩ | ⟨hleft, -⟩)
      · exact Nat.lt_irrefl _ hless
      · rw [hstirs] at hidle
        cases hidle
      · exact absurd hnone (Nat.pos_iff_ne_zero.mp hleft)
  · next hleft =>
    split
    · exact ⟨0, .ofRunless rfl (Reply.signal_ne_failed _) rfl rfl
        ⟨Nat.zero_le _, fun _ => by simpa using hstep⟩⟩
    · next hlate =>
      dsimp only
      rw [World.startTimer]
      split
      · next hstarted =>
        have hidle : (Pause.sleep mark timer).stirs world.now = false := by
          simp only [Pause.timer] at hstarted hlate
          simp [Pause.stirs, Pause.timer, hlate, hstarted]
        refine ⟨total, .ofWaiting rfl rfl (charged_sleep.mpr hcost) ?_ ?_⟩
        · rw [Run.stirs, hidle]
          intro hstirs
          cases hstirs
        · rw [Run.stirs, hidle]
          exact .still (not_stride_idle world)
      · next hunstarted =>
        have hidle : (Pause.started world.timersStarted (.sleep mark timer)).stirs world.now =
            false := by
          simp only [Pause.timer] at hlate
          simp [Pause.stirs, Pause.timer, Pause.started, hlate]
        have hboth : 2 * ledger.step ≤ total := by
          rw [Pause.timer] at hunstarted
          rwa [if_neg hunstarted] at hcost
        refine ⟨total - ledger.step, .ofWaiting rfl rfl ?_ ?_ ?_⟩
        · refine charged_sleep.mpr ?_
          simp only [Option.isSome_some, if_true]
          omega
        · rw [Run.stirs, hidle]
          intro hstirs
          cases hstirs
        · exact ⟨Nat.sub_le _ _, fun _ => by simp; omega⟩

end

/-! ## Requests -/

section

variable {ledger : Ledger}

/-- Children that have not begun cost the sum of their prices, once more for every step. -/
theorem slotSum_replicate_fresh (debts : Nat → Nat) (start count : Nat) :
    slotSum (ledger.slotCost debts fun _ _ => 0) start (List.replicate count .fresh) =
      (ledger.step + 1) * sumFrom debts start count := by
  induction count generalizing start with
  | zero => rfl
  | succ count ih =>
    have hfirst : ledger.slotCost debts (fun _ _ => 0) start .fresh =
        (ledger.step + 1) * debts start := rfl
    rw [List.replicate_succ, slotSum, ih, hfirst, sumFrom, Nat.mul_add]

/-- Children that have not begun owe their prices. -/
theorem slotsOwe_fresh (owes : Nat → Run → Nat → Prop) :
    ledger.SlotsOwe owes (fun _ _ => 0) 0 (List.replicate ledger.size .fresh)
      (Request.cost ledger.step ledger.price ledger.size .runAll) := by
  refine ⟨ledger.price, fun offset slot hslot => ?_, ?_⟩
  · obtain ⟨-, rfl⟩ := List.mem_replicate.mp (List.mem_of_getElem? hslot)
    exact Nat.le_refl _
  · rw [slotSum_replicate_fresh]
    exact Nat.le_refl _

/-- All children of a new crowd are called. -/
theorem stands_freshTour (owes : Nat → Run → Nat → Prop) (world : World) (crowd : Nat) :
    (Tour.ofSlots crowd (List.replicate ledger.size .fresh) (List.range ledger.size)).Stands ledger
      (fun index => owes index) world (Request.cost ledger.step ledger.price ledger.size .runAll)
    where
  length_le := Nat.le_of_eq List.length_replicate
  well := by
    have hslot : ∀ {index : Nat} {slot : Slot Run},
        (List.replicate ledger.size Slot.fresh)[index]? = some slot → slot = .fresh := by
      intro index slot hslot
      exact (List.mem_replicate.mp (List.mem_of_getElem? hslot)).2
    constructor
    · exact List.nodup_range
    · intro index hmem
      have hlt : index < ledger.size := List.mem_range.mp hmem
      exact ⟨.fresh, by simp [Tour.ofSlots, hlt], rfl⟩
    · intro index hfresh
      obtain ⟨hlt, -⟩ := List.getElem?_eq_some_iff.mp hfresh
      exact List.mem_range.mpr (by simpa [Tour.ofSlots] using hlt)
    · intro index run hrun
      cases hslot hrun
  owed := by
    obtain ⟨debts, howes, hsum⟩ :=
      @slotsOwe_fresh ledger fun index => Charged ledger.step (owes index) world
    refine ⟨debts, howes, Nat.le_trans (slotSum_le fun offset slot hslot => ?_) hsum⟩
    obtain ⟨-, rfl⟩ := List.mem_replicate.mp (List.mem_of_getElem? hslot)
    exact Nat.le_refl _

end

namespace Progress.IsPaid

variable {seen : ρ → Reply} {step total left : Nat} {counted : Path → Bool}
  {owes : μ → Run → Nat → Prop} {world : World} {before : Bool} {progress : Progress ρ μ}

/-- What is paid for if something stirred before is paid for if nothing did. -/
theorem unstirred (hpaid : progress.IsPaid seen step counted owes world before total left) :
    progress.IsPaid seen step counted owes world false total left :=
  { hpaid with pays := hpaid.pays.imp Stride.of_false }

/-- The stretch begins in a world that differs in nothing that counts. -/
theorem ofWorld {earlier : World} (hpresent : world.present = earlier.present)
    (hnow : world.now = earlier.now) (hwaits : world.waitsLeft = earlier.waitsLeft)
    (hpaid : progress.IsPaid seen step counted owes world before total left) :
    progress.IsPaid seen step counted owes earlier before total left where
  sound := hpaid.sound
  spawned_eq := hpaid.spawned_eq
  owed := hpaid.owed
  attended := by
    rw [← hpresent, ← hnow]
    exact hpaid.attended
  pays := by
    have hpays := hpaid.pays
    unfold Stride at hpays ⊢
    rw [← hnow, ← hwaits]
    exact hpays

/-- What is paid for is so after notices. -/
theorem afterNotices (hpaid : progress.IsPaid seen step counted owes world before total left)
    (now : Nat) (notices : List Notice) :
    (progress.after (notices.map (noticeAt now)) [] false).IsPaid seen step counted owes world
      before total left where
  sound := hpaid.sound
  spawned_eq := hpaid.spawned_eq
  owed := hpaid.owed
  attended := hpaid.attended
  pays := by
    rw [Progress.journal_after, Journal.visits_append, Journal.visits_map_noticeAt, Nat.zero_add]
    exact hpaid.pays

end Progress.IsPaid

namespace Crew.IsSettled

variable {crew : Crew μ} {ledger : Ledger} {owes : μ → Nat → Run → Nat → Prop} {world : World}
  {below : μ} {total : Nat}

/-- A look at a crowd is paid for. -/
theorem served_crowd (hcrew : crew.IsSettled ledger owes) {crowd : Nat} {slots : List (Slot Run)}
    {called : List Nat}
    (htour : (Tour.ofSlots crowd slots called).Stands ledger (owes below) world total)
    (hfair : world.IsFair)
    (hdistinct : world.Distinct ((Tour.ofSlots crowd slots called).holds ·)) :
    ∃ left, ledger.Served owes world (slotsStir world.now slots) total left
      (crew.advanceCrowd (.ofSlots crowd slots called) below world) := by
  have hlt : ∀ index ∈ called, index < slots.length := by
    intro index hindex
    obtain ⟨slot, hslot, -⟩ := htour.well.unanswered index hindex
    exact (List.getElem?_eq_some_iff.mp hslot).1
  obtain ⟨later, left, hsettles⟩ := hcrew.advanceCalled _ htour hfair hdistinct
    (Tour.effort_le_bound crowd htour.well.nodup hlt)
  exact ⟨left, served_tour hsettles (hcrew.elapses.advanceCalled _ _ below world)⟩

/-- Beginning to run all children is paid for. -/
theorem served_beginAll (hcrew : crew.IsSettled ledger owes) (hfair : world.IsFair)
    (hdistinct : world.Distinct fun _ => 0) :
    ∃ left, ledger.Served owes world false
      (Request.cost ledger.step ledger.price ledger.size .runAll) left
      (crew.beginAll ledger.size below world) := by
  have hnone := Conserves.slotsHold_replicate_fresh ledger.size
  rw [Crew.beginAll]
  dsimp only
  split
  · have hsize : (List.replicate ledger.size (Slot.fresh : Slot Run)).length ≤ ledger.size :=
      Nat.le_of_eq List.length_replicate
    have hslots : world.Distinct (slotsHold · (List.replicate ledger.size .fresh)) :=
      hdistinct.mono fun number => Nat.le_of_eq (hnone number)
    obtain ⟨later, left, hsettles⟩ := hcrew.advanceAll hsize hfair hslots (slotsOwe_fresh _)
    exact ⟨left, (served_all hsettles hsize).unstirred⟩
  · -- the crowd takes its number from the supply, so that nobody else holds it
    have htour : world.formCrowd.2.Distinct ((Tour.ofSlots world.formCrowd.1
        (List.replicate ledger.size .fresh) (List.range ledger.size)).holds ·) := by
      intro number
      have honce := hdistinct number
      have hreserve : world.formCrowd.2.reserve number +
          (if number = .crowd world.formCrowd.1 then 1 else 0) = world.reserve number := by
        cases number with
        | timer order => rfl
        | crowd id =>
          simp only [World.reserve, World.supply, World.formCrowd, Number.crowd.injEq]
          grind
      have hholds : (Tour.ofSlots world.formCrowd.1 (List.replicate ledger.size .fresh)
          (List.range ledger.size)).holds number =
            if number = .crowd world.formCrowd.1 then 1 else 0 := congrArg _ (hnone number)
      dsimp only
      rw [hholds, Nat.add_comm, hreserve]
      exact Nat.le_trans (Nat.le_add_left _ _) honce
    have htours := @stands_freshTour ledger (owes below) world.formCrowd.2 world.formCrowd.1
    obtain ⟨left, hserved⟩ := hcrew.served_crowd htours hfair htour
    refine ⟨left, Progress.IsPaid.ofWorld ?_ ?_ ?_ hserved.unstirred⟩ <;> rfl

/-- A request that can be served is paid for. -/
theorem served (hcrew : crew.IsSettled ledger owes) {request : Request}
    (hservable : request.IsServable ledger.size) (hfair : world.IsFair)
    (hdistinct : world.Distinct fun _ => 0) (below : μ) :
    ∃ left, ledger.Served owes world false
      (request.cost ledger.step ledger.price ledger.size) left
      (crew.serve ledger.size request below world) := by
  cases request with
  | finish status => exact ⟨_, .ofRunless rfl (Reply.answered_ne_failed status) rfl rfl
      (.still (not_stride_idle world))⟩
  | crash => exact hservable.elim
  | run mark child =>
    have hfresh : (Slot.fresh : Slot Run).Owes (ledger.price child)
        (Charged ledger.step (owes below child) world) (ledger.price child) := Nat.le_refl _
    have hnone : world.Distinct (holdsOf (Slot.fresh : Slot Run).run?) := hdistinct
    obtain ⟨later, left, hsettles⟩ := hcrew.advance hservable rfl hfair hnone hfresh
    exact ⟨left, (served_child hsettles hservable).unstirred⟩
  | runAll => exact hcrew.served_beginAll hfair hdistinct
  | sleep mark duration =>
    let timer : Timer := ⟨world.now + duration, none⟩
    have hcost : (if timer.order.isSome then ledger.step else 2 * ledger.step) ≤ 2 * ledger.step :=
      Nat.le_refl _
    obtain ⟨left, hserved⟩ := served_attend below hcost
    exact ⟨left, hserved.unstirred⟩
  | race child limit => exact hservable.elim
  | resetChild child =>
    refine ⟨0, .ofRunless rfl (Reply.signal_ne_failed _) rfl rfl ?_⟩
    rw [Crew.serve, Journal.visits_map_under, hcrew.visits_reset]
    exact .still (not_stride_idle world)
  | abortChild child =>
    refine ⟨0, .ofRunless rfl (Reply.signal_ne_failed _) rfl rfl ?_⟩
    rw [Crew.serve, Journal.visits_map_under, hcrew.visits_abort]
    exact .still (not_stride_idle world)

/-- A look at a suspended execution is paid for out of what it owes for its request. -/
theorem rechecked (hcrew : crew.IsSettled ledger owes) {run : Run}
    (hcharged : Charged ledger.step (ledger.RunOwes (owes below)) world run total)
    (hfair : world.IsFair) (hdistinct : world.Distinct (run.holds ·)) :
    ∃ left, ledger.Served owes world (run.stirs world.now) total left
      (crew.recheck run below world) := by
  cases run with
  | child mark index run =>
    obtain ⟨hindex, hrun⟩ := charged_child.mp hcharged
    have hheld : world.Distinct (holdsOf (Slot.waiting run).run?) :=
      hdistinct.mono fun number => Nat.le_of_eq (by rw [Run.holds]; rfl)
    have hwaiting : (Slot.waiting run).Owes (ledger.price index)
        (Charged ledger.step (owes below index) world) total := hrun
    obtain ⟨later, left, hsettles⟩ := hcrew.advance hindex rfl hfair hheld hwaiting
    rw [Run.stirs]
    exact ⟨left, served_child hsettles hindex⟩
  | paused pause =>
    rw [Run.stirs]
    cases pause with
    | sleep mark timer => exact served_attend below (charged_sleep.mp hcharged)
    | race task timer =>
      obtain ⟨-, debt, howes, -⟩ := hcharged
      exact howes.elim
  | together slots =>
    obtain ⟨-, hlength, howe⟩ := charged_together.mp hcharged
    obtain ⟨later, left, hsettles⟩ := hcrew.advanceAll hlength hfair
      (by simpa only [Run.holds] using hdistinct) howe
    rw [Run.stirs]
    exact ⟨left, served_all hsettles hlength⟩
  | crowd id slots called =>
    let tour : Tour := .ofSlots id slots called
    obtain ⟨-, htour⟩ := (charged_crowd : _ ↔ _ ∧ tour.Stands ledger (owes below) world total).mp
      hcharged
    rw [Run.stirs]
    exact hcrew.served_crowd htour hfair
      (hdistinct.mono fun number => Nat.le_of_eq (by rw [Run.holds]; rfl))

end Crew.IsSettled

/-! ## Turns -/

/-- A debt covers what a suspended execution owes for the request that it waits for, and what the
node affords when the request has been answered. -/
def Ledger.NodeOwes (ledger : Ledger) (kind : Kind κ) (state : kind.State)
    (owes : Nat → Run → Nat → Prop) (run : Run) (debt : Nat) : Prop :=
  ∃ request pending rest, run.WaitsFor request ∧ ledger.RunOwes owes run pending ∧
    pending + rest ≤ debt ∧ ∀ answer, request.AnsweredBy answer →
      Machine.Affords kind.respond ledger.size (Request.cost ledger.step ledger.price ledger.size)
        (kind.allowance ledger.size) rest state answer

/-- What a node owes when it has had its turn. -/
abbrev Ledger.Driven (ledger : Ledger) (kind : Kind κ) (owes : μ → Nat → Run → Nat → Prop)
    (world : World) (before : Bool) (total left : Nat)
    (progress : Progress Outcome (Cell kind.State × μ)) : Prop :=
  progress.IsPaid .stop ledger.step ledger.counted
    (fun memory => ledger.NodeOwes kind memory.1.state (owes memory.2)) world before total left

/-- A request that is paid for, followed by a turn that is paid for, is paid for as a whole. -/
theorem Progress.IsPaid.next {ν τ : Type} {seen : τ → Reply} {step total middle rest left : Nat}
    {counted : Path → Bool} {owes : μ → Run → Nat → Prop} {owesLater : ν → Run → Nat → Prop}
    {world : World} {before : Bool} {served : Progress Reply μ} {later : Progress τ ν}
    {signal : Signal} (hserved : served.IsPaid id step counted owes world before total middle)
    (hsignal : served.result = .signal signal) (helapses : world.Elapses served.world)
    (hpresent : served.world.present = world.present)
    (hlater : later.IsPaid seen step counted owesLater served.world false (middle + rest) left) :
    (later.after served.journal served.spawned served.again).IsPaid seen step counted owesLater
      world before (total + rest) left where
  sound := hlater.sound
  spawned_eq := by
    rw [Progress.spawned_after, hserved.spawned_eq, hlater.spawned_eq, List.nil_append]
  owed := hlater.owed
  attended := by
    intro run hrun hstirs
    rw [← helapses.now_eq] at hstirs
    rw [← hpresent]
    exact (hlater.attended run hrun hstirs).imp_left fun hagain =>
      Bool.or_eq_true_iff.mpr (.inr hagain)
  pays := by
    have hfirst := hserved.pays.beside rest
    have hrest := hlater.pays
    rw [hsignal] at hfirst
    rw [helapses.now_eq] at hrest
    rw [Progress.journal_after, Journal.visits_append]
    refine hfirst.next hrest fun hstride => Stride.beside ?_ helapses.waitsLeft_le
    rw [Bool.or_false]
    exact hstride

namespace Crew.IsSettled

variable {crew : Crew μ} {ledger : Ledger} {owes : μ → Nat → Run → Nat → Prop} {world : World}
  {kind : Kind κ} {name : String}

/-- A node that affords so many moves pays for a turn that begins with a signal. -/
def Drives (crew : Crew μ) (ledger : Ledger) (owes : μ → Nat → Run → Nat → Prop) (name : String)
    (kind : Kind κ) (fuel : Nat) : Prop :=
  ∀ {moves budget : Nat} {signal : Signal} {cell : Cell kind.State} {world : World} (below : μ),
    moves ≤ fuel → world.IsFair → world.Distinct (fun _ => 0) →
    Machine.Affords kind.respond ledger.size (Request.cost ledger.step ledger.price ledger.size)
      moves budget cell.state signal →
    ∃ left, ledger.Driven kind owes world false budget left
      (crew.drive name kind ledger.size fuel (.signal signal) cell below world)

/-- The node goes on when its request has been answered, or owes what it affords later. -/
theorem goesOn {before : Bool} {pending left rest moves fuel : Nat} {request : Request}
    (cell : Cell kind.State) {served : Progress Reply μ} {held : Number → Nat}
    (hdrives : Drives crew ledger owes name kind fuel)
    (hserved : ledger.Served owes world before pending left served)
    (hconserves : served.Conserves (fun reply => holdsOf reply.run?) held world)
    (hheld : world.Distinct held) (helapses : world.Elapses served.world) (hfair : world.IsFair)
    (hbrings : request.Brings served.result) (hmoves : moves ≤ fuel)
    (hallowance : moves ≤ kind.allowance ledger.size)
    (hanswers : ∀ answer, request.AnsweredBy answer →
      Machine.Affords kind.respond ledger.size (Request.cost ledger.step ledger.price ledger.size)
        moves rest cell.state answer) :
    ∃ left, ledger.Driven kind owes world before (pending + rest) left
      (served.andThen (crew.drive name kind ledger.size fuel · cell · ·)) := by
  rw [Progress.andThen_eq]
  cases hresult : served.result with
  | signal signal =>
    rw [hresult] at hbrings
    have hnone : served.world.Distinct fun _ => 0 := by
      have hothers : world.Distinct fun number => 0 + held number :=
        hheld.mono fun number => Nat.le_of_eq (Nat.zero_add _)
      exact (hconserves.distinct hothers).mono fun _ => Nat.zero_le _
    obtain ⟨last, hdriven⟩ := hdrives served.memory hmoves (helapses.isFair hfair) hnone
      ((hanswers signal hbrings).mono (Nat.le_refl _) (Nat.le_add_left rest left))
    exact ⟨last, hserved.next hresult helapses hconserves.present_eq hdriven⟩
  | stop outcome =>
    cases outcome with
    | answered status =>
      rw [hresult] at hbrings
      exact hbrings.elim
    | failed fault => exact absurd hresult (hserved.sound fault)
    | waiting run =>
      rw [hresult] at hbrings
      obtain ⟨hheeded, debt, howes, hle⟩ := hserved.owed run (by rw [id_eq, hresult]; rfl)
      have hattended := hserved.attended run (by rw [id_eq, hresult]; rfl)
      have hpays := hserved.pays.beside rest
      rw [id_eq, hresult] at hpays
      rw [Crew.drive_stop]
      refine ⟨left + rest, .ofWaiting rfl ?_ ?_ ?_ ?_⟩
      · rw [Progress.spawned_after, hserved.spawned_eq]
        rfl
      · refine ⟨hheeded, debt + rest, ⟨request, debt, rest, hbrings, howes, Nat.le_refl _,
          fun answer hanswer => (hanswers answer hanswer).mono hallowance (Nat.le_refl _)⟩, ?_⟩
        simp only [Progress.after]
        omega
      · simpa [Progress.after] using hattended
      · simpa [Progress.after, Reply.run?, Outcome.run?] using hpays

/-- Writes leave a world as it is but for its contexts. -/
theorem written_eq (world : World) (binding : Binding) (writes : List (String × Value)) :
    ∃ contexts, (world.write binding writes).1 = { world with contexts } := by
  cases binding with
  | own context => exact ⟨world.contexts, rfl⟩
  | shared id => exact ⟨_, rfl⟩

/-- A node whose crew settles its debts pays for its turns. -/
theorem drives (hcrew : crew.IsSettled ledger owes) (name : String) (kind : Kind κ) {fuel : Nat}
    (hfuel : fuel ≤ kind.allowance ledger.size) : Drives crew ledger owes name kind fuel := by
  induction fuel with
  | zero =>
    intro moves budget signal cell world below hmoves _ _ haffords
    obtain rfl := Nat.le_zero.mp hmoves
    exact haffords.elim
  | succ fuel ih =>
    intro moves budget signal cell world below hmoves hfair hdistinct haffords
    cases moves with
    | zero => exact haffords.elim
    | succ moves =>
      have hcovers := Machine.affords_succ.mp haffords
        ⟨name, ledger.size, world.now, world.context cell.binding⟩ rfl
      rw [Crew.drive_signal, Progress.after_append]
      rw [← Progress.andThen_eq (crew.serve ledger.size _ below _)
        (crew.drive name kind ledger.size fuel · _ · ·)]
      generalize kind.respond ⟨name, ledger.size, world.now, world.context cell.binding⟩ cell.state
        signal = move at hcovers
      have hfuel' : fuel ≤ kind.allowance ledger.size := Nat.le_of_succ_le hfuel
      obtain ⟨contexts, hwritten⟩ := written_eq world cell.binding move.writes
      generalize (world.write cell.binding move.writes).2 = binding
      rw [hwritten]
      have hfairWritten : World.IsFair { world with contexts } := hfair
      have hdistinctWritten : World.Distinct { world with contexts } (fun _ => 0) := by
        intro number
        have honce := hdistinct number
        cases number <;> exact honce
      suffices hpaid : ∃ left, ledger.Driven kind owes { world with contexts } false budget left
          ((crew.serve ledger.size move.request below { world with contexts }).andThen
            (crew.drive name kind ledger.size fuel · ⟨move.state, binding⟩ · ·)) by
        obtain ⟨left, hpaid⟩ := hpaid
        refine ⟨left, Progress.IsPaid.afterNotices (.ofWorld ?_ ?_ ?_ hpaid) _ _⟩ <;> rfl
      cases hlast : move.request.isLast with
      | true =>
        have hservable := hcovers.servable
        generalize move.request = request at hlast hservable
        cases request with
        | finish status =>
          rw [Progress.andThen_eq, Crew.serve, Crew.drive_stop]
          exact ⟨budget, .ofRunless rfl (Reply.answered_ne_failed status) rfl rfl
            (.still (not_stride_idle _))⟩
        | crash => exact hservable.elim
        | _ => cases hlast
      | false =>
        obtain ⟨rest, hcost, hanswers⟩ := hcovers.answered hlast
        obtain ⟨left, hserved⟩ := hcrew.served hcovers.servable hfairWritten hdistinctWritten below
        obtain ⟨last, hdriven⟩ := goesOn ⟨move.state, binding⟩ (ih hfuel') hserved
          (hcrew.conserves.serve ledger.size move.request below _) hdistinctWritten
          (hcrew.elapses.serve ledger.size move.request below _) hfairWritten
          (crew.brings_serve ledger.size hlast below _) (Nat.le_of_succ_le_succ hmoves)
          (Nat.le_trans (Nat.le_of_succ_le_succ hmoves) hfuel') hanswers
        exact ⟨last, { hdriven with pays := hdriven.pays.mono hcost }⟩

/-- A new execution is paid for out of what the node affords. -/
theorem turn_begins (hcrew : crew.IsSettled ledger owes) {budget : Nat} {cell : Cell kind.State}
    (hfair : world.IsFair) (hdistinct : world.Distinct fun _ => 0)
    (haffords : Machine.Affords kind.respond ledger.size
      (Request.cost ledger.step ledger.price ledger.size) (kind.allowance ledger.size) budget
      cell.state .started) (name : String) (below : μ) :
    ∃ left, ledger.Driven kind owes world false budget left
      (crew.turn name kind ledger.size none cell below world) :=
  hcrew.drives name kind (Nat.le_refl _) below (Nat.le_refl _) hfair hdistinct haffords

/-- A look at a suspended execution is paid for out of what it owes. -/
theorem turn_goesOn (hcrew : crew.IsSettled ledger owes) {run : Run} {total : Nat}
    {cell : Cell kind.State} {below : μ} (hfair : world.IsFair)
    (hdistinct : world.Distinct (run.holds ·))
    (hcharged : Charged ledger.step (ledger.NodeOwes kind cell.state (owes below)) world run total)
    (name : String) :
    ∃ left, ledger.Driven kind owes world (run.stirs world.now) total left
      (crew.turn name kind ledger.size (some run) cell below world) := by
  obtain ⟨hheeded, debt, ⟨request, pending, rest, hwaits, howes, hle, hanswers⟩, htotal⟩ := hcharged
  have hpending : Charged ledger.step (ledger.RunOwes (owes below)) world run
      (pending + ledger.step * run.vain world.now world.calls) :=
    ⟨hheeded, pending, howes, Nat.le_refl _⟩
  obtain ⟨left, hserved⟩ := hcrew.rechecked hpending hfair hdistinct
  obtain ⟨last, hdriven⟩ := goesOn cell (hcrew.drives name kind (Nat.le_refl _)) hserved
    (hcrew.conserves.recheck run below world) hdistinct (hcrew.elapses.recheck run below world)
    hfair (crew.brings_recheck hwaits below world) (Nat.le_refl _) (Nat.le_refl _) hanswers
  exact ⟨last, { hdriven with pays := hdriven.pays.mono (by omega) }⟩

end Crew.IsSettled

end BehaviorTree
