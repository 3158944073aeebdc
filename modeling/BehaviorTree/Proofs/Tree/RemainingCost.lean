import BehaviorTree.Proofs.Node.RequestCost
import BehaviorTree.Proofs.Tree.PendingCalls
import BehaviorTree.Proofs.Tree.WorldRelation
import Mathlib.Tactic.Choose

/-!
# A bound on what is left of a suspended execution

A ledger bounds the visits that the children of a node may still make: by a price for an execution
that begins, and by a debt for one that is suspended. The debt of several children side by side is
the sum of theirs, and every look that finds nothing to do adds to it (`Ledger.SlotsOwe.charge`). A
look stays within the bound if its visits and the debt after it do not exceed the debt before it
(`Pays`).
-/

namespace BehaviorTree

variable {κ : Type} [Application κ] {ρ μ : Type}

/-! ## Visits -/

/-- Whether an entry is for the beginning of an execution at one of these positions. -/
def Entry.isVisit (counted : Path → Bool) (entry : Entry) : Bool :=
  match entry.happening with
  | .event (.entered _) => counted entry.path
  | _ => false

namespace Journal

/-- How many executions begin at one of these positions. -/
def visits (counted : Path → Bool) (journal : Journal) : Nat :=
  journal.countP (Entry.isVisit counted)

/-- No execution begins in an empty journal. -/
@[simp] theorem visits_nil (counted : Path → Bool) : visits counted [] = 0 := rfl

/-- The visits in two journals add up. -/
@[simp] theorem visits_append (counted : Path → Bool) (first rest : Journal) :
    visits counted (first ++ rest) = visits counted first + visits counted rest :=
  List.countP_append

/-- Notices are no visits. -/
@[simp] theorem visits_map_noticeAt (counted : Path → Bool) (now : Nat) (notices : List Notice) :
    visits counted (notices.map (noticeAt now)) = 0 := by
  rw [visits, List.countP_map, List.countP_eq_zero]
  intro notice _
  simp [Entry.isVisit, noticeAt]

/-- The visits in a child are those below its index in the parent. -/
theorem visits_map_under (counted : Path → Bool) (index : Nat) (journal : Journal) :
    visits counted (journal.map (·.under index)) =
      visits (fun path => counted (index :: path)) journal := by
  rw [visits, List.countP_map]
  refine List.countP_congr fun entry _ => ?_
  simp only [Entry.isVisit, Entry.under, Function.comp_apply]

end Journal

/-! ## Turns -/

/-- The call for a party that is a child of a crowd. -/
def Party.call? : Party → Option Call
  | .member crowd index => some (.turn crowd index)
  | .front | .task _ => none

/-- A child of a crowd has the turn while the crowd holds its number. -/
def Party.holds : Party → Number → Nat
  | .member crowd _, number => if number = .crowd crowd then 1 else 0
  | .front, _ | .task _, _ => 0

namespace World

variable {world later : World}

/-- The calls that will come for the children of crowds that have put waits off. -/
def calls (world : World) : List Call := world.putOff.filterMap Party.call?

/-- Whether a number is in supply, or held by the crowd of whoever has the turn. -/
def reserve (world : World) (number : Number) : Nat :=
  world.supply number + world.present.holds number

/-- As long as waits may end, nobody has put one off. -/
def IsFair (world : World) : Prop := 0 < world.waitsLeft → world.putOff = []

/-- No number is held twice, or while it is in supply. -/
def Distinct (world : World) (holds : Number → Nat) : Prop :=
  ∀ number, holds number + world.reserve number ≤ 1

/-- If no number is held twice, then none is when fewer are held. -/
theorem Distinct.mono {holds fewer : Number → Nat} (hdistinct : world.Distinct holds)
    (hle : ∀ number, fewer number ≤ holds number) : world.Distinct fewer := fun number =>
  Nat.le_trans (Nat.add_le_add_right (hle number) _) (hdistinct number)

/-- The calls that will come are for the children of crowds that have put waits off. -/
theorem mem_calls {call : Call} :
    call ∈ world.calls ↔ ∃ crowd index, call = .turn crowd index ∧
      .member crowd index ∈ world.putOff := by
  rw [calls, List.mem_filterMap]
  constructor
  · rintro ⟨party, hmem, hcall⟩
    cases party with
    | front => cases hcall
    | task id => cases hcall
    | member crowd index =>
      cases hcall
      exact ⟨crowd, index, rfl, hmem⟩
  · rintro ⟨crowd, index, rfl, hmem⟩
    exact ⟨_, hmem, rfl⟩

/-- The calls that will come still do so later. -/
theorem Elapses.calls_subset (helapses : world.Elapses later) :
    ∀ call ∈ world.calls, call ∈ later.calls := by
  intro call hmem
  obtain ⟨crowd, index, rfl, hparty⟩ := mem_calls.mp hmem
  exact mem_calls.mpr ⟨crowd, index, rfl, helapses.putOff_subset _ hparty⟩

/-- As long as waits may end, nobody puts one off in the course of a turn. -/
theorem Elapses.isFair (helapses : world.Elapses later) (hfair : world.IsFair) : later.IsFair :=
  fun hleft => (helapses.putOff_eq hleft).trans
    (hfair (Nat.lt_of_lt_of_le hleft helapses.waitsLeft_le))

/-- As long as waits may end, no calls will come. -/
theorem IsFair.calls_eq (hfair : world.IsFair) (hleft : 0 < world.waitsLeft) :
    world.calls = [] := by
  rw [calls, hfair hleft]
  rfl

end World

namespace Progress.Conserves

variable {seen : ρ → Number → Nat} {held others : Number → Nat} {world : World}
  {progress : Progress ρ μ}

/-- Whoever waits beside a stretch of execution has nothing to do with the calls that come of it. -/
theorem adds (hconserves : progress.Conserves seen held world)
    (helapses : world.Elapses progress.world)
    (hdistinct : world.Distinct fun number => others number + held number) :
    Adds world.calls progress.world.calls others where
  subset := helapses.calls_subset
  passes := fun call hmem => by
    obtain ⟨crowd, index, rfl, hparty⟩ := World.mem_calls.mp hmem
    by_cases hothers : others (.crowd crowd) = 0
    · exact .inr ⟨_, rfl, hothers⟩
    · have honce := hdistinct (.crowd crowd)
      simp only [World.reserve] at honce
      rcases hconserves.silent crowd (by omega) index hparty with hparty | hpresent
      · exact .inl (World.mem_calls.mpr ⟨crowd, index, rfl, hparty⟩)
      · rw [hpresent] at honce
        simp [Party.holds] at honce
        omega

/-- What conserves numbers leaves no number held twice. -/
theorem distinct (hconserves : progress.Conserves seen held world)
    (hdistinct : world.Distinct fun number => others number + held number) :
    progress.world.Distinct fun number => others number + seen progress.result number := by
  intro number
  have honce := hdistinct number
  have hle := hconserves.holds_le number
  simp only [World.reserve, hconserves.present_eq] at honce ⊢
  omega

end Progress.Conserves

/-! ## Getting on -/

/-- A look gets an execution on: a wait has ended, or what stirred has come to rest, or as long as
waits may end it is called again although nothing stirs, or it stirred to begin with. -/
def Stride (before : Bool) (world : World) (after again : Bool) (later : World) : Prop :=
  later.waitsLeft < world.waitsLeft ∨ before = true ∧ after = false ∨
    0 < world.waitsLeft ∧ (before = true ∨ again = true ∧ after = false)

/-- A stride is one even if something stirred to begin with. -/
theorem Stride.of_false {before after again : Bool} {world later : World}
    (hstride : Stride false world after again later) : Stride before world after again later := by
  unfold Stride at hstride ⊢
  grind

/-- Two looks one after the other get an execution on if one of them does. -/
theorem Stride.beside {before other after last again more : Bool} {world middle later : World}
    (hstride : Stride (before || other) world (after || last) (again || more) later)
    (hmiddle : middle.waitsLeft ≤ world.waitsLeft) :
    Stride before world after again middle ∨ Stride other middle last more later := by
  unfold Stride at hstride ⊢
  cases before <;> cases other <;> cases after <;> cases last <;> cases again <;> cases more <;>
    simp at hstride ⊢ <;> omega

/-! ## Payments -/

/-- What there is to pay covers the visits that a look makes and what is left to pay then. If the
look gets an execution on, it covers a step besides. -/
structure Pays (step visits left total : Nat) (strides : Prop) : Prop where
  /-- The visits and what is left to pay do not exceed what there was to pay. -/
  within : left + visits ≤ total
  /-- If the execution gets on, there was a step more to pay. -/
  gains : strides → left + visits + step ≤ total

namespace Pays

variable {step visits left total : Nat} {strides others both : Prop}

/-- If nothing happens, nothing has to be paid. -/
theorem still (hstill : ¬strides) : Pays step 0 total total strides :=
  ⟨Nat.le_refl _, fun hstrides => absurd hstrides hstill⟩

/-- What is paid for is so if there is less to gain. -/
theorem imp (hpays : Pays step visits left total strides) (himp : others → strides) :
    Pays step visits left total others :=
  ⟨hpays.within, fun hothers => hpays.gains (himp hothers)⟩

/-- What is paid for is so out of more. -/
theorem mono (hpays : Pays step visits left total strides) {more : Nat} (hle : total ≤ more) :
    Pays step visits left more strides :=
  ⟨Nat.le_trans hpays.within hle, fun hstrides => Nat.le_trans (hpays.gains hstrides) hle⟩

/-- Two looks, one after the other, are paid for if each of them is. -/
theorem next {more rest : Nat} (hpays : Pays step visits left total strides)
    (hnext : Pays step more rest left others) (hboth : both → strides ∨ others) :
    Pays step (visits + more) rest total both := by
  have hfirst := hpays.within
  have hrest := hnext.within
  refine ⟨by omega, fun hstrides => ?_⟩
  rcases hboth hstrides with hstrides | hothers
  · have hgains := hpays.gains hstrides
    omega
  · have hgains := hnext.gains hothers
    omega

/-- What is paid for is so beside what others owe. -/
theorem beside (hpays : Pays step visits left total strides) (other : Nat) :
    Pays step visits (left + other) (total + other) strides := by
  have hwithin := hpays.within
  refine ⟨by omega, fun hstrides => ?_⟩
  have hgains := hpays.gains hstrides
  omega

/-- Whoever runs beside others pays twice for each step. -/
theorem weigh (hpays : Pays step visits left total strides) (hstep : step ≤ 1) :
    Pays step visits ((step + 1) * left) ((step + 1) * total) strides := by
  have hwithin := hpays.within
  have hgains := hpays.gains
  obtain rfl | rfl : step = 0 ∨ step = 1 := by omega
  · refine ⟨by omega, fun hstrides => ?_⟩
    have hgains := hgains hstrides
    omega
  · refine ⟨by omega, fun hstrides => ?_⟩
    have hgains := hgains hstrides
    omega

/-- The mark of a child in a crowd is paid for along with its debt. -/
theorem marked (hpays : Pays step visits left total strides) (hstep : step ≤ 1) {before after : Nat}
    (hafter : after ≤ 1)
    (hmarks : ¬strides → after ≤ before ∧ (others → after + 1 ≤ before)) :
    Pays step visits ((step + 1) * left + step * after) ((step + 1) * total + step * before)
      others := by
  have hwithin := hpays.within
  obtain rfl | rfl : step = 0 ∨ step = 1 := by omega
  · exact ⟨by omega, fun _ => by omega⟩
  · by_cases hstrides : strides
    · have hgains := hpays.gains hstrides
      exact ⟨by omega, fun _ => by omega⟩
    · obtain ⟨hle, hless⟩ := hmarks hstrides
      refine ⟨by omega, fun hothers => ?_⟩
      have hless := hless hothers
      omega

end Pays

/-! ## Debts -/

/-- A child owes its price before it has begun, and nothing when it has answered. -/
def Slot.Owes (price : Nat) (owes : Run → Nat → Prop) (debt : Nat) : Slot Run → Prop
  | .fresh => price ≤ debt
  | .answered _ => True
  | .waiting run => owes run debt

/-- A child owes the same under another rule that its suspended execution meets. -/
theorem Slot.Owes.imp {price debt : Nat} {owes later : Run → Nat → Prop} {slot : Slot Run}
    (howes : slot.Owes price owes debt)
    (himp : ∀ run, slot = .waiting run → owes run debt → later run debt) :
    slot.Owes price later debt := by
  cases slot with
  | fresh => exact howes
  | answered status => trivial
  | waiting run => exact himp run rfl howes

/-- A suspended execution is heeded, and a total covers what it owes together with the looks in
vain. -/
def Charged (step : Nat) (owes : Run → Nat → Prop) (world : World) (run : Run) (total : Nat) :
    Prop :=
  run.IsHeeded world.now world.calls ∧
    ∃ debt, owes run debt ∧ debt + step * run.vain world.now world.calls ≤ total

/-- Nothing changes for whoever waits while others are looked at. -/
theorem Charged.later {step total : Nat} {owes owesLater : Run → Nat → Prop} {world later : World}
    {run : Run} (hcharged : Charged step owes world run total) (hnow : later.now = world.now)
    (hadds : Adds world.calls later.calls (run.holds ·))
    (howes : ∀ debt, owes run debt → owesLater run debt) :
    Charged step owesLater later run total := by
  obtain ⟨hheeded, debt, hdebt, hle⟩ := hcharged
  rw [Charged, hnow, vain_eq run hadds]
  exact ⟨isHeeded_mono hadds.subset run hheeded, debt, howes debt hdebt, hle⟩

/-- What it costs to run the children of a node. -/
structure Ledger where
  /-- The number of children. -/
  size : Nat
  /-- What it costs to get an execution on. -/
  step : Nat
  /-- A step costs at most one visit. -/
  step_le : step ≤ 1
  /-- What an execution of a child costs from its beginning. -/
  price : Nat → Nat
  /-- The positions at which the beginning of an execution counts as a visit. -/
  counted : Path → Bool

namespace Ledger

variable (ledger : Ledger)

/-- What a child costs beside its siblings. -/
def slotCost (debts : Nat → Nat) (extra : Nat → Slot Run → Nat) (index : Nat) (slot : Slot Run) :
    Nat :=
  (if slot.isAnswered then 0 else (ledger.step + 1) * debts index) + extra index slot

/-- A total covers what children side by side cost, the first of them being the child with the
given index. -/
def SlotsOwe (owes : Nat → Run → Nat → Prop) (extra : Nat → Slot Run → Nat) (start : Nat)
    (slots : List (Slot Run)) (total : Nat) : Prop :=
  ∃ debts : Nat → Nat,
    (∀ (offset : Nat) (slot : Slot Run), slots[offset]? = some slot →
      slot.Owes (ledger.price (start + offset)) (owes (start + offset)) (debts (start + offset))) ∧
    slotSum (ledger.slotCost debts extra) start slots ≤ total

/-- A debt covers what a suspended execution owes for the request that it waits for. -/
def RunOwes (owes : Nat → Run → Nat → Prop) (run : Run) (debt : Nat) : Prop :=
  match run with
  | .child _ index run => index < ledger.size ∧ owes index run debt
  | .paused (.sleep _ timer) =>
    (if timer.order.isSome then ledger.step else 2 * ledger.step) ≤ debt
  | .paused (.race _ _) => False
  | .together slots | .crowd _ slots _ =>
    slots.length ≤ ledger.size ∧ ledger.SlotsOwe owes (fun _ _ => 0) 0 slots debt

variable {ledger} {owes owesLater : Nat → Run → Nat → Prop} {extra : Nat → Slot Run → Nat}
  {start total : Nat} {slots : List (Slot Run)}

/-- Children owe the same under another rule that their suspended executions meet. -/
theorem SlotsOwe.imp (howe : ledger.SlotsOwe owes extra start slots total)
    (himp : ∀ offset run debt, slots[offset]? = some (.waiting run) →
      owes (start + offset) run debt → owesLater (start + offset) run debt) :
    ledger.SlotsOwe owesLater extra start slots total := by
  obtain ⟨debts, howes, hsum⟩ := howe
  refine ⟨debts, fun offset slot hslot => (howes offset slot hslot).imp ?_, hsum⟩
  rintro run rfl
  exact himp offset run _ hslot

/-- Children owe what the first of them owes and what the others owe. -/
theorem slotsOwe_cons {slot : Slot Run} :
    ledger.SlotsOwe owes extra start (slot :: slots) total ↔
      ∃ debt rest, slot.Owes (ledger.price start) (owes start) debt ∧
        ledger.SlotsOwe owes extra (start + 1) slots rest ∧
        ledger.slotCost (fun _ => debt) extra start slot + rest ≤ total := by
  have hshift : ∀ offset, start + 1 + offset = start + (offset + 1) := by omega
  constructor
  · rintro ⟨debts, howes, hsum⟩
    refine ⟨debts start, _, howes 0 slot rfl, ⟨debts, fun offset held hheld => ?_, Nat.le_refl _⟩,
      hsum⟩
    rw [hshift]
    exact howes (offset + 1) held hheld
  · rintro ⟨debt, rest, hfirst, ⟨debts, howes, hsum⟩, hle⟩
    refine ⟨Function.update debts start debt, fun offset held hheld => ?_, ?_⟩
    · cases offset with
      | zero =>
        cases hheld
        rw [Nat.add_zero, Function.update_self]
        exact hfirst
      | succ offset =>
        have hother := howes offset held hheld
        rw [hshift] at hother
        rw [Function.update_of_ne (by omega)]
        exact hother
    · have hrest : slotSum (ledger.slotCost (Function.update debts start debt) extra) (start + 1)
          slots = slotSum (ledger.slotCost debts extra) (start + 1) slots := by
        refine slotSum_congr fun offset held _ => ?_
        rw [slotCost, slotCost, Function.update_of_ne (show start + 1 + offset ≠ start by omega)]
      have hhead : ledger.slotCost (Function.update debts start debt) extra start slot =
          ledger.slotCost (fun _ => debt) extra start slot := by
        rw [slotCost, slotCost, Function.update_self]
      rw [slotSum, hrest, hhead]
      omega

/-- One child has its turn and leaves its slot with another debt. -/
theorem SlotsOwe.set (howe : ledger.SlotsOwe owes extra start slots total) {index : Nat}
    {slot : Slot Run} (hslot : slots[index]? = some slot) :
    ∃ debt, slot.Owes (ledger.price (start + index)) (owes (start + index)) debt ∧
      ledger.slotCost (fun _ => debt) extra (start + index) slot ≤ total ∧
      ∀ {owesLater : Nat → Run → Nat → Prop} {extraLater : Nat → Slot Run → Nat}
        {later : Slot Run} {left after : Nat},
        (∀ offset run debt, offset ≠ index → slots[offset]? = some (.waiting run) →
          owes (start + offset) run debt → owesLater (start + offset) run debt) →
        (∀ offset slot, offset ≠ index → slots[offset]? = some slot →
          extraLater (start + offset) slot ≤ extra (start + offset) slot) →
        later.Owes (ledger.price (start + index)) (owesLater (start + index)) left →
        total + ledger.slotCost (fun _ => left) extraLater (start + index) later ≤
          after + ledger.slotCost (fun _ => debt) extra (start + index) slot →
        ledger.SlotsOwe owesLater extraLater start (slots.set index later) after := by
  obtain ⟨debts, howes, hsum⟩ := howe
  have hcost := Nat.le_trans (le_slotSum (ledger.slotCost debts extra) start hslot) hsum
  refine ⟨debts (start + index), howes index slot hslot, hcost, ?_⟩
  intro owesLater extraLater later left after himp hextra hlater hle
  have hlt : index < slots.length := (List.getElem?_eq_some_iff.mp hslot).1
  refine ⟨Function.update debts (start + index) left, fun offset held hheld => ?_, ?_⟩
  · by_cases hindex : offset = index
    · subst hindex
      rw [List.getElem?_set_self hlt] at hheld
      cases hheld
      rw [Function.update_self]
      exact hlater
    · rw [List.getElem?_set_ne (Ne.symm hindex)] at hheld
      rw [Function.update_of_ne (by omega)]
      refine (howes offset held hheld).imp ?_
      rintro run rfl
      exact himp offset run _ hindex hheld
  · have hset := @slotSum_set (ledger.slotCost debts extra)
      (ledger.slotCost (Function.update debts (start + index) left) extraLater) start slots index
      slot hslot later fun offset held hne hheld => by
      rw [slotCost, slotCost,
        Function.update_of_ne (show start + offset ≠ start + index by omega)]
      exact Nat.add_le_add_left (hextra offset held hne hheld) _
    have hself : ledger.slotCost (Function.update debts (start + index) left) extraLater
        (start + index) later =
          ledger.slotCost (fun _ => left) extraLater (start + index) later := by
      rw [slotCost, slotCost, Function.update_self]
    have hbefore : ledger.slotCost debts extra (start + index) slot =
        ledger.slotCost (fun _ => debts (start + index)) extra (start + index) slot := rfl
    omega

end Ledger

/-! ## Looks in vain -/

/-- What the looks will cost that get nobody on within a child. -/
def Slot.vain (now : Nat) (pending : List Call) (slot : Slot Run) : Nat :=
  (slot.run?.map (·.vain now pending)).getD 0

/-- Whether a child is marked in vain. -/
def spur (now : Nat) (marked : Nat → Run → Bool) (index : Nat) : Slot Run → Nat
  | .waiting run => if marked index run && !run.stirs now then 1 else 0
  | .fresh | .answered _ => 0

/-- The looks in vain of a child are those inside it, counted twice, and the one at it. -/
theorem slotVain_eq_add (now : Nat) (pending : List Call) (marked : Nat → Run → Bool) (index : Nat)
    (slot : Slot Run) :
    slotVain now pending marked index slot =
      2 * slot.vain now pending + spur now marked index slot := by
  cases slot <;> rfl

/-- What a child is charged covers a debt of its own together with its looks in vain. -/
theorem Slot.Owes.discharge {owes : Run → Nat → Prop} {step price toll : Nat} {world : World}
    {slot : Slot Run} (howes : slot.Owes price (Charged step owes world) toll) :
    ∃ debt, slot.Owes price owes debt ∧
      (slot.isAnswered = false → debt + step * slot.vain world.now world.calls ≤ toll) := by
  cases slot with
  | fresh => exact ⟨toll, howes, fun _ => by simp [Slot.vain, Slot.run?]⟩
  | answered status =>
    refine ⟨0, trivial, fun hanswered => ?_⟩
    cases hanswered
  | waiting run =>
    obtain ⟨-, debt, hdebt, hle⟩ := howes
    exact ⟨debt, hdebt, fun _ => hle⟩

/-- A factor may be taken out of a sum. -/
theorem slotSum_mul (factor : Nat) (amount : Nat → Slot Run → Nat) (start : Nat)
    (slots : List (Slot Run)) :
    slotSum (fun index slot => factor * amount index slot) start slots =
      factor * slotSum amount start slots := by
  induction slots generalizing start with
  | nil => rfl
  | cons slot slots ih => rw [slotSum, slotSum, ih, Nat.mul_add]

namespace Ledger

variable {ledger : Ledger} {owes : Nat → Run → Nat → Prop} {slots : List (Slot Run)} {total : Nat}

/-- The cost of the looks in vain may be shared out among the children. -/
theorem SlotsOwe.charge {debt : Nat} {world : World}
    (howe : ledger.SlotsOwe owes (fun _ _ => 0) 0 slots debt)
    (hheeded : SlotsHeeded world.now world.calls slots) (marked : Nat → Run → Bool)
    (hle : debt + ledger.step * slotsVain world.now world.calls marked 0 slots ≤ total) :
    ledger.SlotsOwe (fun index => Charged ledger.step (owes index) world)
      (fun index slot => ledger.step * spur world.now marked index slot) 0 slots total := by
  obtain ⟨debts, howes, hsum⟩ := howe
  let vain (index : Nat) : Nat :=
    (slots[index]?.map (·.vain world.now world.calls)).getD 0
  refine ⟨fun index => debts index + ledger.step * vain index, fun offset slot hslot => ?_, ?_⟩
  · have hown := howes offset slot hslot
    have hvain : vain offset = slot.vain world.now world.calls := by
      simp only [vain, hslot, Option.map_some, Option.getD_some]
    rw [Nat.zero_add] at hown ⊢
    cases slot with
    | fresh => exact Nat.le_trans hown (Nat.le_add_right _ _)
    | answered status => trivial
    | waiting run =>
      refine ⟨slotsHeeded_iff.mp hheeded offset run hslot, debts offset, hown, ?_⟩
      dsimp only
      rw [hvain]
      exact Nat.le_refl _
  · have hcosts : slotSum (ledger.slotCost (fun index => debts index + ledger.step * vain index)
        (fun index slot => ledger.step * spur world.now marked index slot)) 0 slots ≤
          slotSum (fun index slot => ledger.slotCost debts (fun _ _ => 0) index slot +
            ledger.step * slotVain world.now world.calls marked index slot) 0 slots := by
      refine slotSum_le fun offset slot hslot => ?_
      have hvain : vain (0 + offset) = slot.vain world.now world.calls := by
        simp only [vain, Nat.zero_add, hslot, Option.map_some, Option.getD_some]
      rw [slotCost, slotCost, hvain, slotVain_eq_add]
      have hstep := ledger.step_le
      obtain hnone | hone : ledger.step = 0 ∨ ledger.step = 1 := by omega
      · simp [hnone]
      · rw [hone]
        split <;> omega
    rw [slotSum_add, slotSum_mul, ← slotsVain_eq] at hcosts
    omega

/-- What the children owe with the looks in vain is what they owe and the cost of these looks. -/
theorem SlotsOwe.discharge {world : World} {marked : Nat → Run → Bool}
    (howe : ledger.SlotsOwe (fun index => Charged ledger.step (owes index) world)
      (fun index slot => ledger.step * spur world.now marked index slot) 0 slots total) :
    SlotsHeeded world.now world.calls slots ∧
      ∃ debt, ledger.SlotsOwe owes (fun _ _ => 0) 0 slots debt ∧
        debt + ledger.step * slotsVain world.now world.calls marked 0 slots ≤ total := by
  obtain ⟨tolls, howes, hsum⟩ := howe
  simp only [Nat.zero_add] at howes
  refine ⟨slotsHeeded_iff.mpr fun index run hslot => (howes index _ hslot).1, ?_⟩
  have hdebts : ∀ index, ∃ debt, ∀ slot, slots[index]? = some slot →
      slot.Owes (ledger.price index) (owes index) debt ∧
        (slot.isAnswered = false →
          debt + ledger.step * slot.vain world.now world.calls ≤ tolls index) := by
    intro index
    cases hslot : slots[index]? with
    | none =>
      refine ⟨0, fun slot hslot => ?_⟩
      cases hslot
    | some slot =>
      obtain ⟨debt, hdebt, hle⟩ := (howes index slot hslot).discharge
      refine ⟨debt, fun held hheld => ?_⟩
      cases hheld
      exact ⟨hdebt, hle⟩
  choose debts hdebts using hdebts
  refine ⟨_, ⟨debts, fun offset slot hslot => ?_, Nat.le_refl _⟩, ?_⟩
  · rw [Nat.zero_add]
    exact (hdebts offset slot hslot).1
  · have hcosts : slotSum (fun index slot => ledger.slotCost debts (fun _ _ => 0) index slot +
        ledger.step * slotVain world.now world.calls marked index slot) 0 slots ≤
          slotSum (ledger.slotCost tolls
            (fun index slot => ledger.step * spur world.now marked index slot)) 0 slots := by
      refine slotSum_le fun offset slot hslot => ?_
      have hle := (hdebts offset slot hslot).2
      rw [Nat.zero_add, slotCost, slotCost, slotVain_eq_add]
      have hstep := ledger.step_le
      obtain hnone | hone : ledger.step = 0 ∨ ledger.step = 1 := by omega
      · rw [hnone] at hle ⊢
        cases hanswered : slot.isAnswered with
        | true => simp
        | false =>
          have hle := hle hanswered
          simp only [Bool.false_eq_true, if_false]
          omega
      · rw [hone] at hle ⊢
        cases slot with
        | answered status => simp [Slot.vain, Slot.run?, Slot.isAnswered]
        | fresh | waiting run =>
          have hle := hle rfl
          simp only [Slot.isAnswered, Bool.false_eq_true, if_false]
          omega
    rw [slotSum_add, slotSum_mul, ← slotsVain_eq] at hcosts
    omega

end Ledger

end BehaviorTree
