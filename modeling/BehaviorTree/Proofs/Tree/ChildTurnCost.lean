import BehaviorTree.Proofs.Tree.RemainingCost

/-!
# Looks at children stay within the bound

A crew is settled if every look at a child stays within what the child owes, and a child that has
something to do afterwards will be looked at again. Then the same holds of the loops over children
that are few, which look at all of them (`Crew.IsSettled.advanceEach`), and over a crowd, which look
at those that have been called (`Crew.IsSettled.advanceCalled`).
-/

namespace BehaviorTree

variable {μ : Type}

/-- Whether a call concerns a child. -/
def Slot.awaits (slot : Slot Run) (call : Call) : Bool := slot.run?.any (·.awaits call)

/-- If somebody stirs, a look at it will come: it is called again on its own account, or the party
it belongs to has put a wait off, or a call that concerns it is pending. -/
def Attended (party : Party) (later : World) (again stirs : Bool) (awaits : Call → Bool) : Prop :=
  stirs = true → again = true ∨ party ∈ later.putOff ∨ later.calls.any awaits = true

/-- A look at a child is paid for, and so is what the child leaves behind. -/
structure Settles (step : Nat) (counted : Path → Bool) (owes : Run → Nat → Prop) (party : Party)
    (world : World) (slot : Slot Run) (total : Nat) (progress : Progress Outcome μ)
    (later : Slot Run) (left : Nat) : Prop where
  /-- The look leaves the child in this slot. -/
  slot_eq : progress.result.slot = .ok later
  /-- No task is started. -/
  spawned_eq : progress.spawned = []
  /-- What is left covers what the child owes if it waits. -/
  owed : ∀ run, later = .waiting run → Charged step owes progress.world run left
  /-- If the child stirs, another look at it will come. -/
  attended : Attended party progress.world progress.again (later.stirs world.now) later.awaits
  /-- The visits of the look are paid for, and so is a step of the execution. -/
  pays : Pays step (progress.journal.visits counted) left total
    (slot = .fresh ∨ Stride (slot.stirs world.now) world (later.stirs world.now) progress.again
      progress.world)

namespace Progress

variable {ρ τ ν : Type}

/-- A map of results and memories leaves the request for another turn as it is. -/
@[simp] theorem again_map (result : ρ → τ) (memory : μ → ν) (progress : Progress ρ μ) :
    (progress.map result memory).again = progress.again := rfl

/-- Seen from the parent, the request for another turn stays as it is. -/
@[simp] theorem again_under (index : Nat) (progress : Progress ρ μ) :
    (progress.under index).again = progress.again := rfl

end Progress

/-- What a look leaves behind for a child covers what the child then owes. -/
theorem Settles.owes {step total left price : Nat} {counted : Path → Bool}
    {owes : Run → Nat → Prop} {party : Party} {world : World} {slot later : Slot Run}
    {progress : Progress Outcome μ}
    (hsettles : Settles step counted owes party world slot total progress later left) :
    later.Owes price (Charged step owes progress.world) left := by
  cases later with
  | fresh => exact absurd rfl (ne_fresh_of_slot hsettles.slot_eq)
  | answered status => trivial
  | waiting run => exact hsettles.owed run rfl

namespace Crew

/-- Every look at a child is paid for, and does not change what the other children owe. -/
structure IsSettled (crew : Crew μ) (ledger : Ledger) (owes : μ → Nat → Run → Nat → Prop) : Prop
    where
  /-- A look at a child that has not answered is paid for out of what it owes. -/
  advance : ∀ {index : Nat} {slot : Slot Run} {below : μ} {world : World} {total : Nat},
    index < ledger.size → slot.isAnswered = false → world.IsFair →
    world.Distinct (holdsOf slot.run?) →
    slot.Owes (ledger.price index) (Charged ledger.step (owes below index) world) total →
    ∃ later left, Settles ledger.step (fun path => ledger.counted (index :: path))
      (owes (crew.advance index slot.run? below world).memory index) world.present world slot total
      (crew.advance index slot.run? below world) later left
  /-- The debts of the other children stay as they are. -/
  apart : ∀ {index other : Nat} (run : Option Run) (below : μ) (world : World) {held : Run}
    {debt : Nat}, other ≠ index → owes below other held debt →
    owes (crew.advance index run below world).memory other held debt
  /-- No number is held more often than before. -/
  conserves : crew.Conserves
  /-- The time stands still, and waits are only used up. -/
  elapses : Course.elapsing.Leads crew
  /-- The children are advanced one after the other. -/
  sideBySide : crew.advanceAll = advanceEach crew.advance ledger.size 0
  /-- An abort makes no visits that count. -/
  visits_abort : ∀ counted now index below, (crew.abort now index below).2.visits counted = 0
  /-- A reset makes no visits that count. -/
  visits_reset : ∀ counted now index below, (crew.reset now index below).2.visits counted = 0

end Crew

/-- A look at children side by side is paid for, and so is what they leave behind. -/
structure SettlesAll (ledger : Ledger) (owes : μ → Nat → Run → Nat → Prop) (world : World)
    (start : Nat) (slots : List (Slot Run)) (total : Nat)
    (progress : Progress (Except Fault (List (Slot Run))) μ) (later : List (Slot Run))
    (left : Nat) : Prop where
  /-- The looks leave the children in these slots. -/
  slots_eq : progress.result = .ok later
  /-- There are as many slots as before. -/
  length_eq : later.length = slots.length
  /-- No task is started. -/
  spawned_eq : progress.spawned = []
  /-- What is left covers what the children that wait owe. -/
  owed : ledger.SlotsOwe (fun index => Charged ledger.step (owes progress.memory index)
    progress.world) (fun _ _ => 0) start later left
  /-- If one of the children stirs, another look at it will come. -/
  attended : Attended world.present progress.world progress.again (slotsStir world.now later)
    fun call => (slotAwaiting? call later).isSome
  /-- The visits of all looks are paid for, and so is a step of the execution. -/
  pays : Pays ledger.step (progress.journal.visits ledger.counted) left total
    (Stride (slotsStir world.now slots) world (slotsStir world.now later) progress.again
      progress.world)

/-- Nothing has got on where nothing stirs. -/
theorem not_stride_idle (world : World) : ¬Stride false world false false world := by
  simp [Stride]

/-- Children stir if the first or one of the others does. -/
theorem slotsStir_cons (now : Nat) (slot : Slot Run) (slots : List (Slot Run)) :
    slotsStir now (slot :: slots) = (slot.stirs now || slotsStir now slots) := by
  cases slot <;> simp [slotsStir, Slot.stirs]

/-- A call concerns children if it concerns the first or one of the others. -/
theorem slotAwaiting?_cons (call : Call) (slot : Slot Run) (slots : List (Slot Run)) :
    (slotAwaiting? call (slot :: slots)).isSome =
      (slot.awaits call || (slotAwaiting? call slots).isSome) := by
  cases slot with
  | fresh => simp [slotAwaiting?, Slot.awaits, Slot.run?]
  | answered status => simp [slotAwaiting?, Slot.awaits, Slot.run?]
  | waiting run =>
    rw [slotAwaiting?, Slot.awaits, Slot.run?, Option.any_some]
    split
    · next hawaits => simp [hawaits]
    · next hnot => simp [hnot]

/-- Whoever is attended to still is when others have had their turn. -/
theorem Attended.beside {party : Party} {middle later : World} {again more stirs others : Bool}
    {awaits concerns both : Call → Bool} (hattended : Attended party middle again stirs awaits)
    (hothers : Attended party later more others concerns) (helapses : middle.Elapses later)
    (hboth : ∀ call, both call = (awaits call || concerns call)) :
    Attended party later (again || more) (stirs || others) both := by
  intro hstirs
  rw [Bool.or_eq_true] at hstirs
  simp only [List.any_eq_true, hboth, Bool.or_eq_true]
  rcases hstirs with hstirs | hstirs
  · rcases hattended hstirs with hagain | hmem | hcalls
    · exact .inl (.inl hagain)
    · exact .inr (.inl (helapses.putOff_subset _ hmem))
    · obtain ⟨call, hcall, hawaits⟩ := List.any_eq_true.mp hcalls
      exact .inr (.inr ⟨call, helapses.calls_subset call hcall, .inl hawaits⟩)
  · rcases hothers hstirs with hagain | hmem | hcalls
    · exact .inl (.inr hagain)
    · exact .inr (.inl hmem)
    · obtain ⟨call, hcall, hawaits⟩ := List.any_eq_true.mp hcalls
      exact .inr (.inr ⟨call, hcall, .inr hawaits⟩)

namespace SettlesAll

variable {ledger : Ledger} {owes : μ → Nat → Run → Nat → Prop} {world : World}
  {start total left : Nat} {slots later : List (Slot Run)}
  {progress : Progress (Except Fault (List (Slot Run))) μ}

/-- A look at no children costs nothing. -/
theorem nil (below : μ) (total : Nat) :
    SettlesAll ledger owes world start [] total { result := .ok [], memory := below, world } []
      total where
  slots_eq := rfl
  length_eq := rfl
  spawned_eq := rfl
  owed := ⟨fun _ => 0, nofun, Nat.zero_le total⟩
  attended := nofun
  pays := .still (not_stride_idle world)

/-- A child that has answered already has no turn. -/
theorem answered (hrest : SettlesAll ledger owes world (start + 1) slots left progress later total)
    (status : Status) :
    SettlesAll ledger owes world start (.answered status :: slots) left
      (progress.map (·.map (.answered status :: ·)) id) (.answered status :: later) total where
  slots_eq := by
    rw [Progress.result_map, hrest.slots_eq]
    rfl
  length_eq := congrArg (· + 1) hrest.length_eq
  spawned_eq := hrest.spawned_eq
  owed := Ledger.slotsOwe_cons.mpr ⟨0, total, trivial, hrest.owed, Nat.le_of_eq (Nat.zero_add _)⟩
  attended := by simpa [slotsStir, slotAwaiting?] using hrest.attended
  pays := by simpa [slotsStir] using hrest.pays

/-- A look that is paid for is so out of more. -/
theorem mono (hsettles : SettlesAll ledger owes world start slots left progress later total)
    {more : Nat} (hle : left ≤ more) :
    SettlesAll ledger owes world start slots more progress later total :=
  { hsettles with pays := hsettles.pays.mono hle }

/-- A child has its turn, and then the others have theirs. -/
theorem cons {child : Progress Outcome μ} {slot first : Slot Run} {debt rest restLeft : Nat}
    (hfirst : Settles ledger.step (fun path => ledger.counted (start :: path))
      (owes child.memory start) world.present world slot debt child first left)
    (hrest : SettlesAll ledger owes child.world (start + 1) slots rest progress later restLeft)
    (hanswered : slot.isAnswered = false) (helapses : world.Elapses child.world)
    (hafter : child.world.Elapses progress.world)
    (hpresent : child.world.present = world.present)
    (hheld : ∀ run, first = .waiting run →
      Charged ledger.step (owes progress.memory start) progress.world run left)
    (hle : ledger.slotCost (fun _ => debt) (fun _ _ => 0) start slot + rest ≤ total) :
    SettlesAll ledger owes world start (slot :: slots) total
      ((progress.map (·.map (first :: ·)) id).after (child.journal.map (·.under start))
        (child.spawned.map (·.under start)) child.again)
      (first :: later) ((ledger.step + 1) * left + restLeft) where
  slots_eq := by
    rw [Progress.result_after, Progress.result_map, hrest.slots_eq]
    rfl
  length_eq := congrArg (· + 1) hrest.length_eq
  spawned_eq := by
    rw [Progress.spawned_after, Progress.spawned_map, hfirst.spawned_eq, hrest.spawned_eq]
    rfl
  owed := by
    refine Ledger.slotsOwe_cons.mpr ⟨left, restLeft, ?_, hrest.owed, ?_⟩
    · cases first with
      | fresh => exact absurd rfl (ne_fresh_of_slot hfirst.slot_eq)
      | answered status => trivial
      | waiting run => exact hheld run rfl
    · rw [Ledger.slotCost, Nat.add_zero]
      split <;> omega
  attended := by
    have hothers := hrest.attended
    rw [helapses.now_eq, hpresent] at hothers
    rw [slotsStir_cons]
    exact hfirst.attended.beside hothers hafter fun call => slotAwaiting?_cons call _ _
  pays := by
    have hcost : (ledger.step + 1) * debt + rest ≤ total := by
      rw [Ledger.slotCost, hanswered, if_neg Bool.false_ne_true] at hle
      exact hle
    have hothers := hrest.pays.beside ((ledger.step + 1) * left)
    rw [helapses.now_eq, Nat.add_comm rest, Nat.add_comm restLeft] at hothers
    have hfirst := (hfirst.pays.weigh ledger.step_le).beside rest
    rw [Progress.journal_after, Journal.visits_append, Journal.visits_map_under]
    refine (hfirst.next hothers fun hstride => ?_).mono hcost
    rw [slotsStir_cons, slotsStir_cons] at hstride
    exact (hstride.beside helapses.waitsLeft_le).imp_left .inr

end SettlesAll

namespace Crew.IsSettled

variable {crew : Crew μ} {ledger : Ledger} {owes : μ → Nat → Run → Nat → Prop}
  {world : World} {total : Nat}

/-! ## Few children -/

/-- Children before those that have a turn are not concerned. -/
theorem apart_advanceEach (hcrew : crew.IsSettled ledger owes) (count : Nat) {start other : Nat}
    (slots : List (Slot Run)) (below : μ) (world : World) {held : Run} {debt : Nat}
    (hlt : other < start) (howes : owes below other held debt) :
    owes (BehaviorTree.advanceEach crew.advance count start slots below world).memory other held
      debt := by
  induction count generalizing start slots below world with
  | zero => exact howes
  | succ count ih =>
    cases slots with
    | nil => exact howes
    | cons slot slots =>
      rw [BehaviorTree.advanceEach]
      split
      · exact ih slots below world (Nat.lt_succ_of_lt hlt) howes
      · have hchild := hcrew.apart slot.run? below world (Nat.ne_of_lt hlt) howes
        rw [Progress.andThen_eq, Progress.memory_after]
        split
        · exact hchild
        · exact ih slots _ _ (Nat.lt_succ_of_lt hlt) hchild

/-- The turn of a child leaves those who have not had theirs as they were. -/
theorem others_advance (hcrew : crew.IsSettled ledger owes) {start : Nat} {slots : List (Slot Run)}
    (run : Option Run) (below : μ)
    (hdistinct : world.Distinct fun number => slotsHold number slots + holdsOf run number)
    (howe : ledger.SlotsOwe (fun index => Charged ledger.step (owes below index) world)
      (fun _ _ => 0) (start + 1) slots total) :
    let child := crew.advance start run below world
    ledger.SlotsOwe (fun index => Charged ledger.step (owes child.memory index) child.world)
      (fun _ _ => 0) (start + 1) slots total := by
  have helapses := hcrew.elapses.advance start run below world
  have hadds := (hcrew.conserves.advance start run below world).adds helapses hdistinct
  exact howe.imp fun offset held debt hslot hcharged => hcharged.later helapses.now_eq
    (hadds.mono fun number => holds_le_slotsHold hslot number)
    fun debt => hcrew.apart run below world (by omega)

/-- Each child has its turn and pays for it. -/
theorem advanceEach (hcrew : crew.IsSettled ledger owes) (count : Nat) {start : Nat}
    {slots : List (Slot Run)} {below : μ} (hcount : slots.length ≤ count)
    (hsize : start + slots.length ≤ ledger.size) (hfair : world.IsFair)
    (hdistinct : world.Distinct (slotsHold · slots))
    (howe : ledger.SlotsOwe (fun index => Charged ledger.step (owes below index) world)
      (fun _ _ => 0) start slots total) :
    ∃ later left, SettlesAll ledger owes world start slots total
      (BehaviorTree.advanceEach crew.advance count start slots below world) later left := by
  induction count generalizing start slots below world total with
  | zero =>
    obtain rfl : slots = [] := List.length_eq_zero_iff.mp (Nat.le_zero.mp hcount)
    exact ⟨[], total, rfl, rfl, rfl, howe, nofun, .still (not_stride_idle world)⟩
  | succ count ih =>
    cases slots with
    | nil => exact ⟨[], total, rfl, rfl, rfl, howe, nofun, .still (not_stride_idle world)⟩
    | cons slot slots =>
      obtain ⟨debt, rest, hfirst, hothers, hle⟩ := Ledger.slotsOwe_cons.mp howe
      rw [List.length_cons] at hcount hsize
      simp only [slotsHold_cons] at hdistinct
      rw [BehaviorTree.advanceEach]
      cases hanswered : slot.isAnswered with
      | true =>
        obtain ⟨status, rfl⟩ : ∃ status, slot = .answered status := by
          cases slot with
          | answered status => exact ⟨status, rfl⟩
          | fresh | waiting run => cases hanswered
        obtain ⟨later, left, hrest⟩ := ih (Nat.le_of_succ_le_succ hcount) (by omega) hfair
          (hdistinct.mono fun number => Nat.le_add_left _ _) hothers
        have hless : rest ≤ total := Nat.le_trans (Nat.le_add_left _ _) hle
        rw [if_pos rfl]
        exact ⟨.answered status :: later, left, (hrest.answered status).mono hless⟩
      | false =>
        obtain ⟨first, left, hsettles⟩ := hcrew.advance (by omega) hanswered hfair
          (hdistinct.mono fun number => Nat.le_add_right _ _) hfirst
        have helapses := hcrew.elapses.advance start slot.run? below world
        have hconserves := hcrew.conserves.advance start slot.run? below world
        have hboth :
            world.Distinct fun number => slotsHold number slots + holdsOf slot.run? number :=
          hdistinct.mono fun number => Nat.le_of_eq (Nat.add_comm _ _)
        have hcharged := hcrew.others_advance slot.run? below hboth hothers
        have hlater := hconserves.distinct hboth
        rw [if_neg Bool.false_ne_true, Progress.andThen_eq]
        simp only [Progress.result_under, Progress.memory_under, Progress.world_under,
          hsettles.slot_eq]
        generalize crew.advance start slot.run? below world = child
          at hsettles helapses hconserves hcharged hlater
        rw [← run?_slot hsettles.slot_eq] at hlater
        obtain ⟨later, restLeft, hrest⟩ := ih (Nat.le_of_succ_le_succ hcount) (by omega)
          (helapses.isFair hfair) (hlater.mono fun number => Nat.le_add_right _ _) hcharged
        have hafter := hcrew.elapses.advanceEach count (start + 1) slots child.memory child.world
        have hheld := hcrew.conserves.advanceEach count (start + 1) slots child.memory child.world
        have hdisturbed := hheld.adds hafter
          (hlater.mono fun number => Nat.le_of_eq (Nat.add_comm _ _))
        refine ⟨_, _, SettlesAll.cons hsettles hrest hanswered helapses hafter hconserves.present_eq
          (fun run hrun => ?_) hle⟩
        subst hrun
        exact (hsettles.owed run rfl).later hafter.now_eq hdisturbed fun debt =>
          hcrew.apart_advanceEach count slots child.memory child.world (Nat.lt_succ_self start)

/-- A look at all children is paid for. -/
theorem advanceAll (hcrew : crew.IsSettled ledger owes) {slots : List (Slot Run)} {below : μ}
    (hsize : slots.length ≤ ledger.size) (hfair : world.IsFair)
    (hdistinct : world.Distinct (slotsHold · slots))
    (howe : ledger.SlotsOwe (fun index => Charged ledger.step (owes below index) world)
      (fun _ _ => 0) 0 slots total) :
    ∃ later left, SettlesAll ledger owes world 0 slots total (crew.advanceAll slots below world)
      later left := by
  rw [hcrew.sideBySide]
  exact hcrew.advanceEach ledger.size hsize (by omega) hfair hdistinct howe

end Crew.IsSettled

/-! ## Crowds -/

/-- Whether a child is marked in vain. -/
def Tour.spur (tour : Tour) (world : World) (index : Nat) (slot : Slot Run) : Nat :=
  BehaviorTree.spur world.now (isMarked world.calls tour.crowd tour.called) index slot

/-- What a crowd's children owe is covered together with the marks in vain, and the conditions on
the calls hold. -/
structure Tour.Stands (ledger : Ledger) (owes : Nat → Run → Nat → Prop) (world : World)
    (tour : Tour) (total : Nat) : Prop where
  /-- There are no more slots than children. -/
  length_le : tour.slots.length ≤ ledger.size
  /-- The conditions on the calls hold. -/
  well : CalledWell world.now world.calls tour.crowd tour.slots tour.called
  /-- What the children owe is covered, together with the marks in vain. -/
  owed : ledger.SlotsOwe (fun index => Charged ledger.step (owes index) world)
    (fun index slot => ledger.step * tour.spur world index slot) 0 tour.slots total

/-- The child whose turn it is has left its slot, and it is called again if it asks for it. -/
structure Tour.Follows (tour next : Tour) (index : Nat) (called : List Nat) (later : Slot Run)
    (again : Bool) : Prop where
  /-- The crowd is the same. -/
  crowd_eq : next.crowd = tour.crowd
  /-- The child is in its new slot, and the others are where they were. -/
  slots_eq : next.slots = tour.slots.set index later
  /-- No child is called twice. -/
  nodup : next.called.Nodup
  /-- The child is called again if it asks for it and has not answered. -/
  mem_called : ∀ other, other ∈ next.called ↔
    other ∈ called ∨ other = index ∧ again = true ∧ later.isAnswered = false

namespace Crew.IsSettled

variable {crew : Crew μ} {ledger : Ledger} {owes : μ → Nat → Run → Nat → Prop}
  {world : World} {total : Nat} {tour next : Tour} {index : Nat} {called : List Nat}

/-- While a child of a crowd has its turn, waits elapse and no time passes. -/
theorem elapses_member (hcrew : crew.IsSettled ledger owes) (tour : Tour) (index : Nat) (below : μ)
    (world : World) :
    world.Elapses (crew.advanceMember tour index below world).world :=
  hcrew.elapses.advanceMember tour index below world

/-- Two children hold numbers of their own. -/
theorem holds_add_le (tour : Tour) {index other : Nat} {run : Run} (hne : other ≠ index)
    (hslot : tour.slots[other]? = some (.waiting run)) (number : Number) :
    run.holds number + holdsOf (tour.run? index) number ≤ slotsHold number tour.slots := by
  cases hindex : tour.slots[index]? with
  | none =>
    have hnone : tour.run? index = none := by
      rw [Tour.run?, hindex]
      rfl
    rw [hnone]
    exact holds_le_slotsHold hslot number
  | some slot =>
    rw [Tour.run?_of_slot hindex, slotsHold_eq number 0]
    rcases Nat.lt_or_gt_of_ne hne with hlt | hlt
    · exact add_le_slotSum (fun _ slot => holdsOf slot.run? number) 0 hlt hslot hindex
    · rw [Nat.add_comm]
      exact add_le_slotSum (fun _ slot => holdsOf slot.run? number) 0 hlt hindex hslot

/-- The other children of a crowd have nothing to do with the calls that come of a turn. -/
theorem adds_member (hcrew : crew.IsSettled ledger owes) (below : μ) {other : Nat} {run : Run}
    (hdistinct : world.Distinct (tour.holds ·)) (hne : other ≠ index)
    (hslot : tour.slots[other]? = some (.waiting run)) :
    Adds world.calls (crew.advanceMember tour index below world).world.calls (run.holds ·) := by
  have hmember := hcrew.conserves.advanceMember tour index below world
  refine hmember.adds (hcrew.elapses_member _ index below world) (hdistinct.mono fun number => ?_)
  have hle := holds_add_le tour hne hslot number
  rw [Tour.holds]
  omega

/-- The turn of one child brings no call for another child of the crowd. -/
theorem turn_member (hcrew : crew.IsSettled ledger owes) (below : μ) {other : Nat}
    (hdistinct : world.Distinct (tour.holds ·)) (hne : other ≠ index) :
    .turn tour.crowd other ∈ (crew.advanceMember tour index below world).world.calls ↔
      .turn tour.crowd other ∈ world.calls := by
  constructor
  · intro hmem
    obtain ⟨crowd, position, heq, hparty⟩ := World.mem_calls.mp hmem
    cases heq
    have hchild := hcrew.conserves.advance index (tour.run? index) below
      (world.handTo (.member tour.crowd index))
    have honce := hdistinct (.crowd tour.crowd)
    have hle := tour.holdsOf_run?_le index (.crowd tour.crowd)
    simp only [Tour.holds, World.reserve, if_true] at honce
    have hnone : holdsOf (tour.run? index) (.crowd tour.crowd) +
        (world.handTo (.member tour.crowd index)).supply (.crowd tour.crowd) = 0 := by
      change holdsOf (tour.run? index) (.crowd tour.crowd) + world.supply (.crowd tour.crowd) = 0
      omega
    rcases hchild.silent tour.crowd hnone other hparty with hbefore | hpresent
    · exact World.mem_calls.mpr ⟨tour.crowd, other, rfl, hbefore⟩
    · injection hpresent with _ hindex
      exact absurd hindex.symm hne
  · exact (hcrew.elapses_member _ index below world).calls_subset _

/-- The marks of the other children stay as they are. -/
theorem isMarked_member (hcrew : crew.IsSettled ledger owes) (below : μ) {other : Nat} {run : Run}
    {later : Slot Run} {again : Bool} (hdistinct : world.Distinct (tour.holds ·))
    (hcalled : tour.called = index :: called)
    (hfollows : tour.Follows next index called later again) (hne : other ≠ index)
    (hslot : tour.slots[other]? = some (.waiting run)) :
    isMarked (crew.advanceMember tour index below world).world.calls next.crowd next.called other
        run =
      isMarked world.calls tour.crowd tour.called other run := by
  have hhailed := (hcrew.adds_member below hdistinct hne hslot).isHailed_eq
  have hturn := hcrew.turn_member below hdistinct hne
  have hmem : other ∈ next.called ↔ other ∈ tour.called := by
    rw [hfollows.mem_called, hcalled]
    simp [hne]
  rw [isMarked, isMarked, hhailed, hfollows.crowd_eq]
  simp [hturn, hmem]

/-- A child of a crowd has its turn and pays for it. -/
theorem settles_member (hcrew : crew.IsSettled ledger owes) {below : μ} {slot : Slot Run}
    (hslot : tour.slots[index]? = some slot) (hsize : tour.slots.length ≤ ledger.size)
    (hanswered : slot.isAnswered = false) (hfair : world.IsFair)
    (hdistinct : world.Distinct (tour.holds ·))
    (howes : slot.Owes (ledger.price index) (Charged ledger.step (owes below index) world) total) :
    ∃ later left, Settles ledger.step (fun path => ledger.counted (index :: path))
      (owes (crew.advanceMember tour index below world).memory index) (.member tour.crowd index)
      world slot total (crew.advanceMember tour index below world) later left := by
  have hlt : index < tour.slots.length := (List.getElem?_eq_some_iff.mp hslot).1
  have hrun := Tour.run?_of_slot hslot
  have hhanded : (world.handTo (.member tour.crowd index)).Distinct (holdsOf slot.run?) := by
    intro number
    have honce := hdistinct number
    have hle := tour.holdsOf_run?_le index number
    rw [hrun] at hle
    have hreserve : (world.handTo (.member tour.crowd index)).reserve number =
        world.supply number + if number = .crowd tour.crowd then 1 else 0 := by
      cases number <;> rfl
    rw [hreserve]
    simp only [Tour.holds, World.reserve] at honce
    omega
  have hhandedFair : (world.handTo (.member tour.crowd index)).IsFair := hfair
  obtain ⟨later, left, hsettles⟩ := hcrew.advance (Nat.lt_of_lt_of_le hlt hsize) hanswered
    hhandedFair hhanded howes
  rw [← hrun] at hsettles
  exact ⟨later, left, ⟨hsettles.slot_eq, hsettles.spawned_eq, hsettles.owed, hsettles.attended,
    hsettles.pays⟩⟩

/-- The conditions on the calls of a crowd hold after the turn of a child. -/
theorem calledWell_member (hcrew : crew.IsSettled ledger owes) {below : μ}
    (hwell : CalledWell world.now world.calls tour.crowd tour.slots tour.called)
    (hdistinct : world.Distinct (tour.holds ·)) (hcalled : tour.called = index :: called)
    {slot later : Slot Run} (hslot : tour.slots[index]? = some slot) {left : Nat}
    (hsettles : Settles ledger.step (fun path => ledger.counted (index :: path))
      (owes (crew.advanceMember tour index below world).memory index) (.member tour.crowd index)
      world slot total (crew.advanceMember tour index below world) later left)
    (hfollows : tour.Follows next index called later
      (crew.advanceMember tour index below world).again) :
    CalledWell (crew.advanceMember tour index below world).world.now
      (crew.advanceMember tour index below world).world.calls next.crowd next.slots
      next.called where
  nodup := hfollows.nodup
  unanswered := by
    intro other hmem
    have hlt : index < tour.slots.length := (List.getElem?_eq_some_iff.mp hslot).1
    rw [hfollows.slots_eq]
    rcases (hfollows.mem_called other).mp hmem with hmem | ⟨rfl, -, hanswered⟩
    · have hne : index ≠ other := by
        rintro rfl
        have hnodup := hwell.nodup
        rw [hcalled] at hnodup
        exact (List.nodup_cons.mp hnodup).1 hmem
      rw [List.getElem?_set_ne hne]
      exact hwell.unanswered other (by rw [hcalled]; exact List.mem_cons_of_mem _ hmem)
    · exact ⟨later, List.getElem?_set_self hlt, hanswered⟩
  fresh := by
    intro other hfresh
    rw [hfollows.slots_eq] at hfresh
    by_cases hindex : other = index
    · subst hindex
      have hlt : other < tour.slots.length := (List.getElem?_eq_some_iff.mp hslot).1
      rw [List.getElem?_set_self hlt] at hfresh
      exact absurd (Option.some.inj hfresh) (ne_fresh_of_slot hsettles.slot_eq)
    · rw [List.getElem?_set_ne (Ne.symm hindex)] at hfresh
      have hmem := hwell.fresh other hfresh
      rw [hcalled] at hmem
      exact (hfollows.mem_called other).mpr (.inl ((List.mem_cons.mp hmem).resolve_left hindex))
  marked := by
    intro other run hrun hstirs
    rw [(hcrew.elapses_member tour index below world).now_eq] at hstirs
    rw [hfollows.slots_eq] at hrun
    by_cases hindex : other = index
    · subst hindex
      have hlt : other < tour.slots.length := (List.getElem?_eq_some_iff.mp hslot).1
      rw [List.getElem?_set_self hlt] at hrun
      obtain rfl := Option.some.inj hrun
      rw [isMarked_iff, hfollows.mem_called, hfollows.crowd_eq]
      rcases hsettles.attended hstirs with hagain | hparty | hcalls
      · exact .inl (.inr ⟨rfl, hagain, rfl⟩)
      · exact .inr (.inl (World.mem_calls.mpr ⟨_, _, rfl, hparty⟩))
      · exact .inr (.inr (List.any_eq_true.mp hcalls))
    · rw [List.getElem?_set_ne (Ne.symm hindex)] at hrun
      rw [hcrew.isMarked_member below hdistinct hcalled hfollows hindex hrun]
      exact hwell.marked other run hrun hstirs

/-- A child is marked in vain at most once. -/
theorem spur_le_one (tour : Tour) (world : World) (index : Nat) (slot : Slot Run) :
    tour.spur world index slot ≤ 1 := by
  cases slot with
  | fresh | answered status => exact Nat.zero_le 1
  | waiting run =>
    rw [Tour.spur, spur]
    split <;> decide

/-- A child that stirs is not marked in vain. -/
theorem spur_of_stirs (tour : Tour) (world : World) (index : Nat) {slot : Slot Run}
    (hstirs : slot.stirs world.now = true) : tour.spur world index slot = 0 := by
  cases slot with
  | fresh | answered status => rfl
  | waiting run =>
    rw [Slot.stirs] at hstirs
    simp [Tour.spur, spur, hstirs]

/-- A child that is called but does not stir is marked in vain. -/
theorem spur_of_called (world : World) {slot : Slot Run} (hcalled : tour.called = index :: called)
    (hbegun : slot ≠ .fresh) (hanswered : slot.isAnswered = false)
    (hidle : slot.stirs world.now = false) : tour.spur world index slot = 1 := by
  cases slot with
  | fresh => exact absurd rfl hbegun
  | answered status => cases hanswered
  | waiting run =>
    rw [Slot.stirs] at hidle
    simp [Tour.spur, spur, isMarked, hcalled, hidle]

/-- As long as waits may end, a child has no mark left that is not called again. -/
theorem spur_of_not_called {member : World} (hfair : member.IsFair) (hleft : 0 < member.waitsLeft)
    (hcalled : index ∉ tour.called) (slot : Slot Run) : tour.spur member index slot = 0 := by
  cases slot with
  | fresh | answered status => rfl
  | waiting run => simp [Tour.spur, spur, isMarked, hfair.calls_eq hleft, hcalled, Run.isHailed]

/-- A look that does not get a child on takes its mark in vain away as long as waits may end, and
leaves no new one in any case. -/
theorem spur_member {member : World} {slot later : Slot Run} {again : Bool}
    (helapses : world.Elapses member) (hfair : world.IsFair)
    (hfollows : tour.Follows next index called later again) (hmem : index ∉ called)
    (hcalled : tour.called = index :: called) (hanswered : slot.isAnswered = false)
    (hstill : ¬(slot = .fresh ∨
      Stride (slot.stirs world.now) world (later.stirs world.now) again member)) :
    next.spur member index later ≤ tour.spur world index slot ∧
      (0 < world.waitsLeft ∨ member.waitsLeft < world.waitsLeft ∨
          slot.stirs world.now = true ∧ later.stirs world.now = false →
        next.spur member index later + 1 ≤ tour.spur world index slot) := by
  rw [not_or] at hstill
  obtain ⟨hbegun, hstill⟩ := hstill
  simp only [Stride, not_or, not_and, Nat.not_lt] at hstill
  obtain ⟨hleft, hrest, hlooks⟩ := hstill
  -- the child was called, so if it does not stir its mark is in vain
  have hbefore := spur_of_called world hcalled hbegun hanswered
  have hafter : later.stirs world.now = true → next.spur member index later = 0 := by
    intro hstirs
    rw [← helapses.now_eq] at hstirs
    exact spur_of_stirs next member index hstirs
  constructor
  · cases hlater : later.stirs world.now with
    | true =>
      rw [hafter hlater]
      exact Nat.zero_le _
    | false =>
      have hidle : slot.stirs world.now = false := by
        cases hstirs : slot.stirs world.now with
        | false => rfl
        | true => exact absurd hlater (hrest hstirs)
      rw [hbefore hidle]
      exact spur_le_one next member index later
  · rintro (hpositive | hless | ⟨hstirs, hlater⟩)
    · have hlook := hlooks hpositive
      have hidle : slot.stirs world.now = false := by simpa using hlook.1
      have hnone : next.spur member index later = 0 := by
        cases hlater : later.stirs world.now with
        | true => exact hafter hlater
        | false =>
          have hagain : again = false := by
            cases again with
            | false => rfl
            | true => exact absurd hlater (hlook.2 rfl)
          have hcalled : index ∉ next.called := by
            rw [hfollows.mem_called]
            simp [hmem, hagain]
          exact spur_of_not_called (helapses.isFair hfair) (Nat.lt_of_lt_of_le hpositive hleft)
            hcalled later
      exact Nat.le_of_eq (by rw [hnone, hbefore hidle])
    · exact absurd hless (Nat.not_lt.mpr hleft)
    · exact absurd hlater (hrest hstirs)

/-- A look at a child of a crowd that has been called is paid for. As long as waits may end, it gets
the crowd on or takes a mark in vain away. -/
theorem stands_member (hcrew : crew.IsSettled ledger owes) {below : μ}
    (htour : tour.Stands ledger (owes below) world total) (hfair : world.IsFair)
    (hdistinct : world.Distinct (tour.holds ·)) (hcalled : tour.called = index :: called) :
    ∃ slot later, tour.slots[index]? = some slot ∧ slot.isAnswered = false ∧
      (crew.advanceMember tour index below world).result.slot = .ok later ∧
      (crew.advanceMember tour index below world).spawned = [] ∧
      ∀ next, tour.Follows next index called later
        (crew.advanceMember tour index below world).again →
      ∃ left, next.Stands ledger (owes (crew.advanceMember tour index below world).memory)
          (crew.advanceMember tour index below world).world left ∧
        Pays ledger.step
          ((crew.advanceMember tour index below world).journal.visits
            fun path => ledger.counted (index :: path)) left total
          (0 < world.waitsLeft ∨
            (crew.advanceMember tour index below world).world.waitsLeft < world.waitsLeft ∨
            slot.stirs world.now = true ∧ later.stirs world.now = false) := by
  obtain ⟨slot, hslot, hanswered⟩ := htour.well.unanswered index (by simp [hcalled])
  obtain ⟨debt, hown, hcost, hset⟩ := htour.owed.set hslot
  rw [Nat.zero_add] at hown hcost hset
  have hbefore : ledger.slotCost (fun _ => debt)
      (fun index slot => ledger.step * tour.spur world index slot) index slot =
        (ledger.step + 1) * debt + ledger.step * tour.spur world index slot := by
    rw [Ledger.slotCost, hanswered, if_neg Bool.false_ne_true]
  rw [hbefore] at hcost hset
  obtain ⟨later, left, hsettles⟩ := hcrew.settles_member hslot htour.length_le hanswered hfair
    hdistinct hown
  refine ⟨slot, later, hslot, hanswered, hsettles.slot_eq, hsettles.spawned_eq,
    fun next hfollows => ?_⟩
  have helapses := hcrew.elapses_member tour index below world
  have hmem : index ∉ called := by
    have hnodup := htour.well.nodup
    rw [hcalled] at hnodup
    exact (List.nodup_cons.mp hnodup).1
  have hpays := hsettles.pays.marked ledger.step_le
    (spur_le_one next (crew.advanceMember tour index below world).world index later)
    (spur_member helapses hfair hfollows hmem hcalled hanswered)
  have hafter : ledger.slotCost (fun _ => left) (fun index slot => ledger.step *
      next.spur (crew.advanceMember tour index below world).world index slot) index later ≤
        (ledger.step + 1) * left + ledger.step *
          next.spur (crew.advanceMember tour index below world).world index later := by
    rw [Ledger.slotCost]
    split <;> omega
  generalize hspared :
    total - ((ledger.step + 1) * debt + ledger.step * tour.spur world index slot) = spared
  refine ⟨_, ⟨?_, hcrew.calledWell_member htour.well hdistinct hcalled hslot hsettles hfollows, ?_⟩,
    (hpays.beside spared).mono (by omega)⟩
  · rw [hfollows.slots_eq, List.length_set]
    exact htour.length_le
  · rw [hfollows.slots_eq]
    refine hset (fun other run debt hne hslot hcharged => ?_) (fun other slot hne hslot => ?_)
      hsettles.owes (Nat.le_trans (Nat.add_le_add_left hafter total) (by omega))
    · exact hcharged.later helapses.now_eq (hcrew.adds_member below hdistinct hne hslot)
        fun debt howes => hcrew.apart _ _ _ (by omega) howes
    · cases slot with
      | fresh | answered status => exact Nat.le_refl _
      | waiting run =>
        refine Nat.le_of_eq ?_
        rw [Nat.zero_add, Tour.spur, Tour.spur, spur, spur, helapses.now_eq,
          hcrew.isMarked_member below hdistinct hcalled hfollows hne hslot]

/-- No number is held twice when a child of a crowd has had its turn. -/
theorem distinct_member (hcrew : crew.IsSettled ledger owes) (below : μ)
    (hdistinct : world.Distinct (tour.holds ·)) {later : Slot Run}
    (hlater : (crew.advanceMember tour index below world).result.slot = .ok later) {again : Bool}
    (hfollows : tour.Follows next index called later again) :
    (crew.advanceMember tour index below world).world.Distinct (next.holds ·) := by
  have hafter := (hcrew.conserves.advanceMember_beside tour index below world).distinct
    (hdistinct.mono fun number => Nat.le_of_eq (Nat.zero_add _))
  refine hafter.mono fun number => ?_
  rw [Nat.zero_add, ← run?_slot hlater]
  exact Tour.holds_le_holdsWith hfollows.crowd_eq hfollows.slots_eq number

end Crew.IsSettled

/-! ## Tours -/

/-- A tour is paid for, and it ends when no child is called any more, or the crowd gives way. -/
structure SettlesTour (ledger : Ledger) (owes : μ → Nat → Run → Nat → Prop) (world : World)
    (tour : Tour) (total : Nat) (progress : Progress (Except Fault Tour) μ) (later : Tour)
    (left : Nat) : Prop where
  /-- The tour ends in this way. -/
  tour_eq : progress.result = .ok later
  /-- No task is started. -/
  spawned_eq : progress.spawned = []
  /-- What the children owe in the end is covered. -/
  stands : later.Stands ledger (owes progress.memory) progress.world left
  /-- The crowd gives way, or no child is called any more. -/
  rests : progress.again = true ∨ later.called = []
  /-- The visits of the tour are paid for, and so is a step of the execution. -/
  pays : Pays ledger.step (progress.journal.visits ledger.counted) left total
    (Stride (slotsStir world.now tour.slots) world (slotsStir world.now later.slots)
      progress.again progress.world)

/-- A tour that nobody calls any more gets nobody on. -/
theorem not_stride_of_called_nil {ledger : Ledger} {owes : Nat → Run → Nat → Prop} {world : World}
    {tour : Tour} {total : Nat} (htour : tour.Stands ledger owes world total) (hfair : world.IsFair)
    (hcalled : tour.called = []) :
    ¬Stride (slotsStir world.now tour.slots) world (slotsStir world.now tour.slots) false
      world := by
  have hidle : 0 < world.waitsLeft → slotsStir world.now tour.slots = false := by
    intro hleft
    cases hstirs : slotsStir world.now tour.slots with
    | false => rfl
    | true =>
      obtain ⟨index, slot, hslot, hstirs⟩ := slotsStir_iff.mp hstirs
      cases slot with
      | fresh =>
        have hmem := htour.well.fresh index hslot
        rw [hcalled] at hmem
        cases hmem
      | answered status => cases hstirs
      | waiting run =>
        have hmarked := htour.well.marked index run hslot hstirs
        rw [hcalled, hfair.calls_eq hleft] at hmarked
        simp [isMarked, Run.isHailed] at hmarked
  rintro (hless | ⟨hbefore, hafter⟩ | ⟨hleft, hbefore | ⟨hagain, -⟩⟩)
  · exact Nat.lt_irrefl _ hless
  · rw [hbefore] at hafter
    cases hafter
  · rw [hidle hleft] at hbefore
    cases hbefore
  · cases hagain

/-- Where a tour gets a crowd on, either the look at one of the children does, or what follows. -/
theorem Stride.look {after again more : Bool} {world middle last : World}
    {slots : List (Slot Run)} {index : Nat} {slot later : Slot Run} {now : Nat}
    (hslot : slots[index]? = some slot)
    (hstride : Stride (slotsStir now slots) world after again last) :
    (0 < world.waitsLeft ∨ middle.waitsLeft < world.waitsLeft ∨
        slot.stirs now = true ∧ later.stirs now = false) ∨
      Stride (slotsStir now (slots.set index later)) middle after more last := by
  rcases hstride with hless | ⟨hbefore, hafter⟩ | ⟨hleft, -⟩
  · by_cases hmiddle : middle.waitsLeft < world.waitsLeft
    · exact .inl (.inr (.inl hmiddle))
    · exact .inr (.inl (by omega))
  · cases hstirs : slotsStir now (slots.set index later) with
    | true => exact .inr (.inr (.inl ⟨rfl, hafter⟩))
    | false =>
      have hlt : index < slots.length := (List.getElem?_eq_some_iff.mp hslot).1
      have hnobody : ∀ (position : Nat) (held : Slot Run),
          (slots.set index later)[position]? = some held → held.stirs now = false := by
        intro position held hheld
        cases hheldStirs : held.stirs now with
        | false => rfl
        | true =>
          rw [slotsStir_iff.mpr ⟨position, held, hheld, hheldStirs⟩] at hstirs
          cases hstirs
      have hlater := hnobody index later (List.getElem?_set_self hlt)
      obtain ⟨position, held, hheld, hheldStirs⟩ := slotsStir_iff.mp hbefore
      by_cases hindex : index = position
      · subst hindex
        rw [hslot] at hheld
        obtain rfl := Option.some.inj hheld
        exact .inl (.inr (.inr ⟨hheldStirs, hlater⟩))
      · have hnot := hnobody position held (by rw [List.getElem?_set_ne hindex]; exact hheld)
        rw [hheldStirs] at hnot
        cases hnot
  · exact .inl (.inl hleft)

/-- If a tour gets somebody on and nothing follows its first look, then this look does. -/
theorem Stride.lastLook {again : Bool} {world middle : World} {slots : List (Slot Run)}
    {index : Nat} {slot later : Slot Run} {now : Nat} (hslot : slots[index]? = some slot)
    (hle : middle.waitsLeft ≤ world.waitsLeft)
    (hstride : Stride (slotsStir now slots) world (slotsStir now (slots.set index later)) again
      middle) :
    0 < world.waitsLeft ∨ middle.waitsLeft < world.waitsLeft ∨
      slot.stirs now = true ∧ later.stirs now = false := by
  have hlook : _ ∨ Stride (slotsStir now (slots.set index later)) middle
    (slotsStir now (slots.set index later)) true middle := hstride.look hslot
  rcases hlook with hlook | hless | ⟨hstirs, hidle⟩ | ⟨hleft, -⟩
  · exact hlook
  · exact absurd hless (Nat.lt_irrefl _)
  · rw [hstirs] at hidle
    cases hidle
  · exact .inl (Nat.lt_of_lt_of_le hleft hle)

/-- The tour after a child has had its turn is part of the whole. -/
theorem SettlesTour.after {ledger : Ledger} {owes : μ → Nat → Run → Nat → Prop} {world : World}
    {tour next last : Tour} {total middle left index : Nat} {slot later : Slot Run}
    {member : Progress Outcome μ} {progress : Progress (Except Fault Tour) μ}
    (hrest : SettlesTour ledger owes member.world next middle progress last left)
    (hslot : tour.slots[index]? = some slot) (hslots : next.slots = tour.slots.set index later)
    (helapses : world.Elapses member.world) (hspawned : member.spawned = [])
    (hpays : Pays ledger.step (member.journal.visits fun path => ledger.counted (index :: path))
      middle total (0 < world.waitsLeft ∨ member.world.waitsLeft < world.waitsLeft ∨
        slot.stirs world.now = true ∧ later.stirs world.now = false)) :
    SettlesTour ledger owes world tour total
      (progress.after (member.under index).journal (member.under index).spawned
        (member.under index).again) last left where
  tour_eq := hrest.tour_eq
  spawned_eq := by
    rw [Progress.spawned_after, Progress.spawned_under, hspawned, hrest.spawned_eq]
    rfl
  stands := hrest.stands
  rests := hrest.rests.imp_left fun hagain => Bool.or_eq_true_iff.mpr (.inr hagain)
  pays := by
    have hothers := hrest.pays
    rw [helapses.now_eq, hslots] at hothers
    rw [Progress.journal_after, Progress.journal_under, Journal.visits_append,
      Journal.visits_map_under]
    exact hpays.next hothers fun hstride => hstride.look hslot

namespace Crew.IsSettled

variable {crew : Crew μ} {ledger : Ledger} {owes : μ → Nat → Run → Nat → Prop}
  {world : World} {total : Nat} {tour : Tour}

/-- A child that answers has left its slot and is not called again. -/
theorem follows_answer (tour : Tour) (index : Nat) {called : List Nat} (hnodup : called.Nodup)
    (status : Status) (again : Bool) :
    tour.Follows (Tour.answer { tour with called } index status) index called (.answered status)
      again where
  crowd_eq := rfl
  slots_eq := rfl
  nodup := hnodup
  mem_called := by simp [Tour.answer, Tour.ofSlots, Slot.isAnswered]

/-- A child that is suspended has left its slot and is called again if it asks for it. -/
theorem follows_suspend (tour : Tour) (index : Nat) {called : List Nat} (hnodup : called.Nodup)
    (run : Run) (again : Bool) :
    tour.Follows (Tour.suspend { tour with called } index run again) index called (.waiting run)
      again where
  crowd_eq := rfl
  slots_eq := rfl
  nodup := by
    cases again with
    | false => exact hnodup
    | true => exact nodup_enlist hnodup
  mem_called := by
    intro other
    cases again with
    | false => simp [Tour.suspend]
    | true => simp [Tour.suspend, mem_enlist, Slot.isAnswered]

/-- A tour of which nobody is called has nothing to pay. -/
theorem advanceCalled_nil (crew : Crew μ) {below : μ}
    (htour : tour.Stands ledger (owes below) world total) (hfair : world.IsFair)
    (hcalled : tour.called = []) (fuel : Nat) :
    SettlesTour ledger owes world tour total (crew.advanceCalled fuel tour below world) tour
      total := by
  rw [Crew.advanceCalled_nil hcalled]
  exact ⟨rfl, rfl, htour, .inr hcalled, .still (not_stride_of_called_nil htour hfair hcalled)⟩

/-- Every look of a tour is paid for, and it ends before it has advanced too many children. -/
theorem advanceCalled (hcrew : crew.IsSettled ledger owes) (fuel : Nat) {below : μ}
    (htour : tour.Stands ledger (owes below) world total) (hfair : world.IsFair)
    (hdistinct : world.Distinct (tour.holds ·)) (hfuel : tour.effort ≤ fuel) :
    ∃ later left, SettlesTour ledger owes world tour total
      (crew.advanceCalled fuel tour below world) later left := by
  induction fuel generalizing tour below world total with
  | zero =>
    have hcalled := Tour.called_eq_nil_of_effort hfuel
    exact ⟨tour, total, advanceCalled_nil crew htour hfair hcalled 0⟩
  | succ fuel ih =>
    cases hcalled : tour.called with
    | nil => exact ⟨tour, total, advanceCalled_nil crew htour hfair hcalled _⟩
    | cons index called =>
      obtain ⟨slot, later, hslot, hanswered, hlater, hspawned, hnext⟩ :=
        hcrew.stands_member htour hfair hdistinct hcalled
      have hanswer : tour.hasAnswer index = false := (Tour.hasAnswer_of_slot hslot).trans hanswered
      have hmember : crew.advanceMember { tour with called } index below world =
          crew.advanceMember tour index below world := rfl
      have hnodup : called.Nodup := by
        have hnodup := htour.well.nodup
        rw [hcalled] at hnodup
        exact (List.nodup_cons.mp hnodup).2
      have helapses := hcrew.elapses_member tour index below world
      have hless : ∀ {next : Tour}, next.effort < tour.effort → next.effort ≤ fuel :=
        fun hlt => Nat.le_of_lt_succ (Nat.lt_of_lt_of_le hlt hfuel)
      rw [Crew.advanceCalled_member hcalled hanswer]
      dsimp only
      rw [hmember]
      cases hresult : (crew.advanceMember tour index below world).result with
      | failed fault =>
        rw [hresult] at hlater
        cases hlater
      | answered status =>
        rw [hresult] at hlater
        cases hlater
        have hfollows := follows_answer tour index hnodup status
          (crew.advanceMember tour index below world).again
        obtain ⟨middle, hstands, hpays⟩ := hnext _ hfollows
        obtain ⟨last, left, hrest⟩ := ih hstands (helapses.isFair hfair)
          (hcrew.distinct_member below hdistinct (by rw [hresult]; rfl) hfollows)
          (hless (Tour.effort_answer hcalled hslot hanswered status))
        exact ⟨last, left, hrest.after hslot rfl helapses hspawned hpays⟩
      | waiting run =>
        rw [hresult] at hlater
        cases hlater
        have hfollows := follows_suspend tour index hnodup run
          (crew.advanceMember tour index below world).again
        obtain ⟨middle, hstands, hpays⟩ := hnext _ hfollows
        dsimp only
        split
        · refine ⟨_, middle, ⟨rfl, ?_, hstands, .inl (Bool.or_true _), ?_⟩⟩
          · rw [Progress.spawned_after, hspawned]
            rfl
          · rw [Progress.journal_after, Journal.visits_append, Journal.visits_map_under]
            exact hpays.imp fun hstride => hstride.lastLook hslot helapses.waitsLeft_le
        · next hstays =>
          obtain ⟨last, left, hrest⟩ := ih hstands (helapses.isFair hfair)
            (hcrew.distinct_member below hdistinct (by rw [hresult]; rfl) hfollows)
            (hless (Tour.effort_suspend hcalled hslot hanswered run _
              (Bool.eq_false_iff.mpr hstays)))
          exact ⟨last, left, hrest.after hslot rfl helapses hspawned hpays⟩

end Crew.IsSettled

end BehaviorTree
