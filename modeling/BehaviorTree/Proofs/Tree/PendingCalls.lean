import BehaviorTree.Proofs.Tree.Blank
import BehaviorTree.Proofs.Tree.UniqueNumbers

/-!
# Pending calls reach the children that have something to do

A suspended execution stirs if a look at it would get it on: it has not begun to wait, or the time
that it waits for has come. The children of a crowd are looked at when they are called, so it
matters that whoever stirs is marked: it has been called, or a call that concerns it is pending.
Such an execution is heeded. A mark on a child that does not stir is in vain, and costs a look.

Calls that are passed on keep marks as they are, as long as every number is held once
(`isHeeded_notify`, `vain_notify`), and so do calls that concern nobody here (`vain_eq`).
-/

namespace BehaviorTree

/-! ## Stirring -/

/-- Whether a look at a pause would get it on. -/
def Pause.stirs (now : Nat) (pause : Pause) : Bool :=
  pause.timer.order.isNone || pause.timer.due ≤ now

mutual

/-- Whether a look at a run would get it on, or one at some child in it. -/
def Run.stirs (now : Nat) : Run → Bool
  | .child _ _ run => run.stirs now
  | .paused pause => pause.stirs now
  | .together slots => slotsStir now slots
  | .crowd _ slots _ => slotsStir now slots

/-- Whether a look at children that run side by side would get one of them on. -/
def slotsStir (now : Nat) : List (Slot Run) → Bool
  | [] => false
  | .fresh :: _ => true
  | .answered _ :: rest => slotsStir now rest
  | .waiting run :: rest => run.stirs now || slotsStir now rest

end

/-- Whether a look at a child would get it on. -/
def Slot.stirs (now : Nat) : Slot Run → Bool
  | .fresh => true
  | .answered _ => false
  | .waiting run => run.stirs now

/-- Children stir together if any of them stirs. -/
theorem slotsStir_eq (now : Nat) (slots : List (Slot Run)) :
    slotsStir now slots = slots.any (·.stirs now) := by
  induction slots with
  | nil => rfl
  | cons slot slots ih => cases slot <;> simp [slotsStir, Slot.stirs, ih]

/-- Children stir together if and only if the child with some index stirs. -/
theorem slotsStir_iff {now : Nat} {slots : List (Slot Run)} :
    slotsStir now slots = true ↔
      ∃ (index : Nat) (slot : Slot Run), slots[index]? = some slot ∧ slot.stirs now = true := by
  rw [slotsStir_eq, List.any_eq_true]
  constructor
  · rintro ⟨slot, hmem, hstirs⟩
    obtain ⟨index, hindex⟩ := List.getElem?_of_mem hmem
    exact ⟨index, slot, hindex, hstirs⟩
  · rintro ⟨index, slot, hindex, hstirs⟩
    exact ⟨slot, List.mem_of_getElem? hindex, hstirs⟩

/-! ## Marks -/

/-- Whether a pending call concerns a run. -/
def Run.isHailed (pending : List Call) (run : Run) : Bool := pending.any (run.awaits ·)

/-- Whether a child of a crowd is to be looked at, now that it has been called or when the pending
calls come. -/
def isMarked (pending : List Call) (id : Nat) (called : List Nat) (index : Nat) (run : Run) :
    Bool :=
  called.contains index || pending.contains (.turn id index) || run.isHailed pending

/-- A child is marked if it is called, or if a pending call is for it or for someone that it
runs. -/
theorem isMarked_iff {pending : List Call} {id : Nat} {called : List Nat} {index : Nat}
    {run : Run} :
    isMarked pending id called index run = true ↔
      index ∈ called ∨ .turn id index ∈ pending ∨ ∃ call ∈ pending, run.awaits call = true := by
  simp [isMarked, Run.isHailed, or_assoc]

mutual

/-- What the looks will cost that get nobody on. In a crowd every cost counts twice, and a look at
a child for each mark in vain. -/
def Run.vain (now : Nat) (pending : List Call) : Run → Nat
  | .child _ _ run => run.vain now pending
  | .paused _ => 0
  | .together slots => slotsVain now pending (fun _ _ => false) 0 slots
  | .crowd id slots called => slotsVain now pending (isMarked pending id called) 0 slots

/-- What the looks at children will cost that get nobody on, the first of them having the given
index. -/
def slotsVain (now : Nat) (pending : List Call) (marked : Nat → Run → Bool) (index : Nat) :
    List (Slot Run) → Nat
  | [] => 0
  | .fresh :: rest => slotsVain now pending marked (index + 1) rest
  | .answered _ :: rest => slotsVain now pending marked (index + 1) rest
  | .waiting run :: rest =>
    2 * run.vain now pending + (if marked index run && !run.stirs now then 1 else 0) +
      slotsVain now pending marked (index + 1) rest

end

/-- The part of one child. -/
def slotVain (now : Nat) (pending : List Call) (marked : Nat → Run → Bool) (index : Nat) :
    Slot Run → Nat
  | .fresh => 0
  | .answered _ => 0
  | .waiting run => 2 * run.vain now pending + if marked index run && !run.stirs now then 1 else 0

/-- The looks in vain at children are the sum over the children. -/
theorem slotsVain_eq (now : Nat) (pending : List Call) (marked : Nat → Run → Bool) (start : Nat)
    (slots : List (Slot Run)) :
    slotsVain now pending marked start slots =
      slotSum (slotVain now pending marked) start slots := by
  induction slots generalizing start with
  | nil => rfl
  | cons slot slots ih => cases slot <;> simp [slotsVain, slotSum, slotVain, ih]

mutual

/-- Someone waits in every part of the run, and in its crowds whoever stirs is marked. Nobody is
called twice, or after an answer. -/
def Run.IsHeeded (now : Nat) (pending : List Call) : Run → Prop
  | .child _ _ run => run.IsHeeded now pending
  | .paused _ => True
  | .together slots => Slot.allAnswered? slots = none ∧ SlotsHeeded now pending slots
  | .crowd id slots called =>
    Slot.allAnswered? slots = none ∧ SlotsHeeded now pending slots ∧ called.Nodup ∧
      (∀ index ∈ called, ∃ slot, slots[index]? = some slot ∧ slot.isAnswered = false) ∧
      (∀ index, slots[index]? = some .fresh → index ∈ called) ∧
      ∀ index run, slots[index]? = some (.waiting run) → run.stirs now = true →
        isMarked pending id called index run = true

/-- The suspended executions of children that run side by side are heeded. -/
def SlotsHeeded (now : Nat) (pending : List Call) : List (Slot Run) → Prop
  | [] => True
  | .fresh :: rest => SlotsHeeded now pending rest
  | .answered _ :: rest => SlotsHeeded now pending rest
  | .waiting run :: rest => run.IsHeeded now pending ∧ SlotsHeeded now pending rest

end

/-- The conditions on a crowd's calls. -/
structure CalledWell (now : Nat) (pending : List Call) (id : Nat) (slots : List (Slot Run))
    (called : List Nat) : Prop where
  /-- No child is called twice. -/
  nodup : called.Nodup
  /-- A child that is called has not answered. -/
  unanswered : ∀ index ∈ called, ∃ slot, slots[index]? = some slot ∧ slot.isAnswered = false
  /-- A child that has not begun is called. -/
  fresh : ∀ index, slots[index]? = some .fresh → index ∈ called
  /-- A child that waits and stirs is marked. -/
  marked : ∀ index run, slots[index]? = some (.waiting run) → run.stirs now = true →
    isMarked pending id called index run = true

/-- A crowd is heeded if someone waits in it, its children are heeded and it is called well. -/
theorem isHeeded_crowd {now : Nat} {pending : List Call} {id : Nat} {slots : List (Slot Run)}
    {called : List Nat} :
    (Run.crowd id slots called).IsHeeded now pending ↔
      Slot.allAnswered? slots = none ∧ SlotsHeeded now pending slots ∧
        CalledWell now pending id slots called := by
  rw [Run.IsHeeded]
  constructor
  · rintro ⟨hwaits, hslots, hnodup, hunanswered, hfresh, hmarked⟩
    exact ⟨hwaits, hslots, hnodup, hunanswered, hfresh, hmarked⟩
  · rintro ⟨hwaits, hslots, hwell⟩
    exact ⟨hwaits, hslots, hwell.nodup, hwell.unanswered, hwell.fresh, hwell.marked⟩

/-- Children are heeded if the suspended execution of each of them is. -/
theorem slotsHeeded_iff {now : Nat} {pending : List Call} {slots : List (Slot Run)} :
    SlotsHeeded now pending slots ↔
      ∀ (index : Nat) (run : Run), slots[index]? = some (.waiting run) →
        run.IsHeeded now pending := by
  induction slots with
  | nil => simp [SlotsHeeded]
  | cons slot slots ih =>
    have hcons : (∀ (index : Nat) (run : Run), (slot :: slots)[index]? = some (.waiting run) →
        run.IsHeeded now pending) ↔
          (∀ run, slot = .waiting run → run.IsHeeded now pending) ∧
            ∀ (index : Nat) (run : Run), slots[index]? = some (.waiting run) →
              run.IsHeeded now pending := by
      constructor
      · exact fun hall => ⟨fun run hrun => hall 0 run (by rw [hrun]; rfl),
          fun index run hrun => hall (index + 1) run hrun⟩
      · rintro ⟨hfirst, hrest⟩ index run hrun
        cases index with
        | zero => exact hfirst run (Option.some.inj hrun)
        | succ index => exact hrest index run hrun
    rw [hcons, ← ih]
    cases slot <;> simp [SlotsHeeded]

/-! ## Calls and numbers -/

/-- The number that a call names. -/
def Call.number? : Call → Option Number
  | .due order => some (.timer order)
  | .ended _ => none
  | .turn crowd _ => some (.crowd crowd)

/-- A call is for a child of a crowd if it names the crowd and the child is suspended. -/
theorem member?_eq_some {call : Call} {id index : Nat} {slots : List (Slot Run)} :
    call.member? id slots = some index ↔
      call = .turn id index ∧ ∃ run, slots[index]? = some (.waiting run) := by
  cases call with
  | due order => simp [Call.member?]
  | ended task => simp [Call.member?]
  | turn crowd position =>
    cases hslot : slots[position]? with
    | none =>
      simp only [Call.member?, hslot, reduceCtorEq, false_iff, not_and, not_exists]
      rintro ⟨rfl, rfl⟩ run
      simp [hslot]
    | some slot =>
      cases slot with
      | waiting run =>
        simp only [Call.member?, hslot]
        constructor
        · intro heq
          split at heq
          · next hcrowd =>
            cases heq
            exact ⟨by rw [hcrowd], run, hslot⟩
          · cases heq
        · rintro ⟨heq, -⟩
          cases heq
          exact if_pos rfl
      | fresh | answered status =>
        simp only [Call.member?, hslot, reduceCtorEq, false_iff, not_and, not_exists]
        rintro ⟨rfl, rfl⟩ run
        simp [hslot]

/-- If one child awaits a call, then so do the children together. -/
theorem slotAwaiting?_isSome {call : Call} {slots : List (Slot Run)} {index : Nat} {run : Run}
    (hslot : slots[index]? = some (.waiting run)) (hawaits : run.awaits call = true) :
    (slotAwaiting? call slots).isSome = true := by
  induction slots generalizing index with
  | nil => cases hslot
  | cons slot slots ih =>
    cases index with
    | zero =>
      cases hslot
      rw [slotAwaiting?, if_pos hawaits]
      rfl
    | succ index =>
      have hrest := ih (show slots[index]? = some (.waiting run) from hslot)
      cases slot with
      | fresh | answered status => rw [slotAwaiting?, Option.isSome_map, hrest]
      | waiting other =>
        rw [slotAwaiting?]
        split
        · rfl
        · rw [Option.isSome_map, hrest]

/-- If children await a call, then one of them does. -/
theorem exists_of_slotAwaiting? {call : Call} {slots : List (Slot Run)} {index : Nat}
    (hawaiting : slotAwaiting? call slots = some index) :
    ∃ run, slots[index]? = some (.waiting run) ∧ run.awaits call = true := by
  induction slots generalizing index with
  | nil => cases hawaiting
  | cons slot slots ih =>
    have hlater : ∀ found : Option Nat, found = slotAwaiting? call slots →
        found.map (· + 1) = some index →
          ∃ run, (slot :: slots)[index]? = some (.waiting run) ∧ run.awaits call = true := by
      rintro found rfl hfound
      obtain ⟨position, hposition, rfl⟩ := Option.map_eq_some_iff.mp hfound
      exact ih hposition
    cases slot with
    | fresh | answered status =>
      rw [slotAwaiting?] at hawaiting
      exact hlater _ rfl hawaiting
    | waiting run =>
      rw [slotAwaiting?] at hawaiting
      split at hawaiting
      · next hrun =>
        cases hawaiting
        exact ⟨run, rfl, hrun⟩
      · exact hlater _ rfl hawaiting

mutual

/-- Whoever awaits a call holds the number that it names. -/
theorem holds_of_awaits {call : Call} {number : Number} (hnumber : call.number? = some number) :
    (run : Run) → run.awaits call = true → 1 ≤ run.holds number
  | .child mark index run, hawaits => by
    rw [Run.awaits] at hawaits
    rw [Run.holds]
    exact holds_of_awaits hnumber run hawaits
  | .paused pause, hawaits => by
    cases call with
    | due order =>
      cases hnumber
      have horder : pause.timer.order = some order := by
        simpa [Run.awaits, Pause.awaits] using hawaits
      simp [Run.holds, Pause.holds, horder]
    | ended task => cases hnumber
    | turn crowd index => simp [Run.awaits, Pause.awaits] at hawaits
  | .together slots, hawaits => by
    rw [Run.awaits] at hawaits
    rw [Run.holds]
    exact slotsHold_of_awaiting hnumber slots hawaits
  | .crowd id slots called, hawaits => by
    rw [Run.awaits, Bool.or_eq_true] at hawaits
    rw [Run.holds]
    rcases hawaits with hmember | hslots
    · obtain ⟨index, hindex⟩ := Option.isSome_iff_exists.mp hmember
      obtain ⟨rfl, -⟩ := member?_eq_some.mp hindex
      cases hnumber
      simp
    · exact Nat.le_trans (slotsHold_of_awaiting hnumber slots hslots) (Nat.le_add_left _ _)

/-- Children that await a call hold the number that it names. -/
theorem slotsHold_of_awaiting {call : Call} {number : Number}
    (hnumber : call.number? = some number) : (slots : List (Slot Run)) →
    (slotAwaiting? call slots).isSome = true → 1 ≤ slotsHold number slots
  | [], hawaits => by cases hawaits
  | .fresh :: rest, hawaits => by
    rw [slotAwaiting?, Option.isSome_map] at hawaits
    rw [slotsHold]
    exact slotsHold_of_awaiting hnumber rest hawaits
  | .answered status :: rest, hawaits => by
    rw [slotAwaiting?, Option.isSome_map] at hawaits
    rw [slotsHold]
    exact slotsHold_of_awaiting hnumber rest hawaits
  | .waiting run :: rest, hawaits => by
    rw [slotAwaiting?] at hawaits
    rw [slotsHold]
    split at hawaits
    · next hrun => exact Nat.le_trans (holds_of_awaits hnumber run hrun) (Nat.le_add_right _ _)
    · rw [Option.isSome_map] at hawaits
      exact Nat.le_trans (slotsHold_of_awaiting hnumber rest hawaits) (Nat.le_add_left _ _)

end

/-- What a child holds its siblings hold with it. -/
theorem holds_le_slotsHold {slots : List (Slot Run)} {index : Nat} {run : Run}
    (hslot : slots[index]? = some (.waiting run)) (number : Number) :
    run.holds number ≤ slotsHold number slots := by
  rw [slotsHold_eq number 0]
  exact le_slotSum (fun _ slot => holdsOf slot.run? number) 0 hslot

/-! ## Passing calls on -/

mutual

/-- A run stirs as before when it has been notified of a call. -/
theorem stirs_notify (now : Nat) (call : Call) :
    (run : Run) → (run.notify call).stirs now = run.stirs now
  | .child mark index run => by rw [Run.notify, Run.stirs, Run.stirs, stirs_notify now call run]
  | .paused pause => by rw [Run.notify]
  | .together slots => by
    rw [Run.notify, Run.stirs, Run.stirs, slotsStir_notify now call slots]
  | .crowd id slots called => by
    rw [Run.notify, Run.stirs, Run.stirs, slotsStir_notify now call slots]

/-- Children stir as before when they have been notified of a call. -/
theorem slotsStir_notify (now : Nat) (call : Call) :
    (slots : List (Slot Run)) → slotsStir now (notifySlots call slots) = slotsStir now slots
  | [] => rfl
  | .fresh :: rest => rfl
  | .answered status :: rest => by
    rw [notifySlots, slotsStir, slotsStir, slotsStir_notify now call rest]
  | .waiting run :: rest => by
    rw [notifySlots, slotsStir, slotsStir, stirs_notify now call run,
      slotsStir_notify now call rest]

end

mutual

/-- A run holds the same numbers when it has been notified of a call. -/
theorem holds_notify (number : Number) (call : Call) :
    (run : Run) → (run.notify call).holds number = run.holds number
  | .child mark index run => by
    rw [Run.notify, Run.holds, Run.holds, holds_notify number call run]
  | .paused pause => by rw [Run.notify]
  | .together slots => by
    rw [Run.notify, Run.holds, Run.holds, slotsHold_notify number call slots]
  | .crowd id slots called => by
    rw [Run.notify, Run.holds, Run.holds, slotsHold_notify number call slots]

/-- Children hold the same numbers when they have been notified of a call. -/
theorem slotsHold_notify (number : Number) (call : Call) : (slots : List (Slot Run)) →
    slotsHold number (notifySlots call slots) = slotsHold number slots
  | [] => rfl
  | .fresh :: rest => by
    rw [notifySlots, slotsHold, slotsHold, slotsHold_notify number call rest]
  | .answered status :: rest => by
    rw [notifySlots, slotsHold, slotsHold, slotsHold_notify number call rest]
  | .waiting run :: rest => by
    rw [notifySlots, slotsHold, slotsHold, holds_notify number call run,
      slotsHold_notify number call rest]

end

/-- A call is for the same child of a crowd when another call has been passed on. -/
theorem member?_notifySlots (call passed : Call) (id : Nat) (slots : List (Slot Run)) :
    call.member? id (notifySlots passed slots) = call.member? id slots := by
  refine Option.ext fun index => ?_
  rw [member?_eq_some, member?_eq_some]
  refine and_congr_right fun _ => ?_
  simp only [getElem?_notifySlots]
  constructor
  · rintro ⟨-, held, hheld, -⟩
    exact ⟨held, hheld⟩
  · rintro ⟨held, hheld⟩
    exact ⟨_, held, hheld, rfl⟩

mutual

/-- A run awaits the same calls when it has been notified of one. -/
theorem awaits_notify (call passed : Call) :
    (run : Run) → (run.notify passed).awaits call = run.awaits call
  | .child mark index run => by
    rw [Run.notify, Run.awaits, Run.awaits, awaits_notify call passed run]
  | .paused pause => by rw [Run.notify]
  | .together slots => by
    rw [Run.notify, Run.awaits, Run.awaits, slotAwaiting?_notify call passed slots]
  | .crowd id slots called => by
    rw [Run.notify, Run.awaits, Run.awaits, slotAwaiting?_notify call passed slots,
      member?_notifySlots]

/-- Children await the same calls when they have been notified of one. -/
theorem slotAwaiting?_notify (call passed : Call) : (slots : List (Slot Run)) →
    slotAwaiting? call (notifySlots passed slots) = slotAwaiting? call slots
  | [] => rfl
  | .fresh :: rest => by
    rw [notifySlots, slotAwaiting?, slotAwaiting?, slotAwaiting?_notify call passed rest]
  | .answered status :: rest => by
    rw [notifySlots, slotAwaiting?, slotAwaiting?, slotAwaiting?_notify call passed rest]
  | .waiting run :: rest => by
    rw [notifySlots, slotAwaiting?, slotAwaiting?, awaits_notify call passed run,
      slotAwaiting?_notify call passed rest]

end

/-- Pending calls concern the same runs when a call has been passed on. -/
theorem isHailed_notify (pending : List Call) (call : Call) (run : Run) :
    (run.notify call).isHailed pending = run.isHailed pending := by
  simp only [Run.isHailed, awaits_notify]

/-- A call finds the one child of a crowd that it concerns. -/
theorem target_eq_some {call : Call} {number : Number} {id : Nat} {slots : List (Slot Run)}
    {index : Nat} {run : Run} (hnumber : call.number? = some number)
    (hslot : slots[index]? = some (.waiting run))
    (honce : (if number = .crowd id then 1 else 0) + slotsHold number slots ≤ 1) :
    (call.member? id slots).or (slotAwaiting? call slots) = some index ↔
      call = .turn id index ∨ run.awaits call = true := by
  constructor
  · intro htarget
    rcases Option.or_eq_some_iff.mp htarget with hmember | ⟨-, hawaiting⟩
    · exact .inl (member?_eq_some.mp hmember).1
    · obtain ⟨held, hheld, hawaits⟩ := exists_of_slotAwaiting? hawaiting
      rw [hslot] at hheld
      cases hheld
      exact .inr hawaits
  · rintro (rfl | hawaits)
    · rw [member?_eq_some.mpr ⟨rfl, run, hslot⟩]
      rfl
    · have hholds := Nat.le_trans (holds_of_awaits hnumber run hawaits)
        (holds_le_slotsHold hslot number)
      have hmember : call.member? id slots = none := by
        cases hfound : call.member? id slots with
        | none => rfl
        | some position =>
          obtain ⟨rfl, -⟩ := member?_eq_some.mp hfound
          cases hnumber
          simp only [if_true] at honce
          omega
      rw [hmember, Option.none_or]
      obtain ⟨position, hposition⟩ :=
        Option.isSome_iff_exists.mp (slotAwaiting?_isSome hslot hawaits)
      obtain ⟨other, hother, hotherAwaits⟩ := exists_of_slotAwaiting? hposition
      -- a second child that awaits the call would hold its number as well
      have htwo : ∀ (first second : Nat) (held later : Run), first < second →
          slots[first]? = some (.waiting held) → slots[second]? = some (.waiting later) →
            held.holds number + later.holds number ≤ slotsHold number slots := by
        intro first second held later hlt hfirst hsecond
        rw [slotsHold_eq number 0]
        exact add_le_slotSum (fun _ slot => holdsOf slot.run? number) 0 hlt hfirst hsecond
      have hone := holds_of_awaits hnumber run hawaits
      have htheOther := holds_of_awaits hnumber other hotherAwaits
      rcases Nat.lt_trichotomy position index with hlt | rfl | hlt
      · have hboth := htwo position index other run hlt hother hslot
        omega
      · exact hposition
      · have hboth := htwo index position run other hlt hslot hother
        omega

/-- The children that are called in a crowd after a call. -/
def calledAfter (call : Call) (id : Nat) (slots : List (Slot Run)) (called : List Nat) : List Nat :=
  match (call.member? id slots).or (slotAwaiting? call slots) with
  | some index => enlist index called
  | none => called

/-- Notifying a crowd notifies its children and calls the one that the call is for. -/
theorem notify_crowd (call : Call) (id : Nat) (slots : List (Slot Run)) (called : List Nat) :
    (Run.crowd id slots called).notify call =
      .crowd id (notifySlots call slots) (calledAfter call id slots called) := by
  rw [Run.notify]
  rfl

/-- Those called after a call are those called before and the child that the call is for. -/
theorem mem_calledAfter {call : Call} {id : Nat} {slots : List (Slot Run)} {called : List Nat}
    {index : Nat} :
    index ∈ calledAfter call id slots called ↔
      index ∈ called ∨ (call.member? id slots).or (slotAwaiting? call slots) = some index := by
  rw [calledAfter]
  split
  · next found hfound => simp [hfound, mem_enlist, eq_comm]
  · next hnone => simp [hnone]

/-- Passing a call on calls nobody twice. -/
theorem nodup_calledAfter {called : List Nat} (hnodup : called.Nodup) (call : Call) (id : Nat)
    (slots : List (Slot Run)) : (calledAfter call id slots called).Nodup := by
  rw [calledAfter]
  split
  · exact nodup_enlist hnodup
  · exact hnodup

/-- Only children that wait are called. -/
theorem waiting_of_mem_calledAfter {call : Call} {id : Nat} {slots : List (Slot Run)}
    {called : List Nat} {index : Nat} (hmem : index ∈ calledAfter call id slots called) :
    index ∈ called ∨ ∃ run, slots[index]? = some (.waiting run) := by
  refine (mem_calledAfter.mp hmem).imp_right fun htarget => ?_
  rcases Option.or_eq_some_iff.mp htarget with hmember | ⟨-, hawaiting⟩
  · exact (member?_eq_some.mp hmember).2
  · obtain ⟨run, hrun, -⟩ := exists_of_slotAwaiting? hawaiting
    exact ⟨run, hrun⟩

/-- A child is marked after a call that has been passed on, if it was when the call was pending. -/
theorem isMarked_notify {call : Call} {rest : List Call} {number : Number} {id : Nat}
    {slots : List (Slot Run)} {called : List Nat} {index : Nat} {run : Run}
    (hnumber : call.number? = some number) (hslot : slots[index]? = some (.waiting run))
    (honce : (if number = .crowd id then 1 else 0) + slotsHold number slots ≤ 1) :
    isMarked rest id (calledAfter call id slots called) index (run.notify call) =
      isMarked (call :: rest) id called index run := by
  rw [Bool.eq_iff_iff, isMarked_iff, isMarked_iff, mem_calledAfter,
    target_eq_some hnumber hslot honce]
  simp only [awaits_notify, List.mem_cons, exists_eq_or_imp]
  grind

mutual

/-- The looks in vain are the same whether a call is pending or has been passed on. -/
theorem vain_notify {call : Call} {number : Number} (hnumber : call.number? = some number)
    (now : Nat) (rest : List Call) : (run : Run) → run.holds number ≤ 1 →
    (run.notify call).vain now rest = run.vain now (call :: rest)
  | .child mark index run, honce => by
    rw [Run.holds] at honce
    rw [Run.notify, Run.vain, Run.vain, vain_notify hnumber now rest run honce]
  | .paused pause, _ => by rw [Run.notify, Run.vain, Run.vain]
  | .together slots, honce => by
    rw [Run.holds] at honce
    rw [Run.notify, Run.vain, Run.vain]
    exact slotsVain_notify hnumber now rest slots honce 0 _ _ fun _ _ _ => rfl
  | .crowd id slots called, honce => by
    rw [Run.holds] at honce
    rw [notify_crowd, Run.vain, Run.vain]
    refine slotsVain_notify hnumber now rest slots (by omega) 0 _ _ fun offset run hslot => ?_
    rw [Nat.zero_add]
    exact isMarked_notify hnumber hslot honce

/-- The looks in vain at children are the same whether a call is pending or has been passed on. -/
theorem slotsVain_notify {call : Call} {number : Number} (hnumber : call.number? = some number)
    (now : Nat) (rest : List Call) : (slots : List (Slot Run)) → slotsHold number slots ≤ 1 →
    (start : Nat) → (marked later : Nat → Run → Bool) →
    (∀ offset run, slots[offset]? = some (.waiting run) →
      later (start + offset) (run.notify call) = marked (start + offset) run) →
    slotsVain now rest later start (notifySlots call slots) =
      slotsVain now (call :: rest) marked start slots
  | [], _, _, _, _, _ => rfl
  | .fresh :: slots, honce, start, marked, later, hmarks => by
    rw [slotsHold] at honce
    rw [notifySlots, slotsVain, slotsVain]
    refine slotsVain_notify hnumber now rest slots honce _ _ _ fun offset run hslot => ?_
    rw [Nat.add_right_comm]
    exact hmarks (offset + 1) run hslot
  | .answered status :: slots, honce, start, marked, later, hmarks => by
    rw [slotsHold] at honce
    rw [notifySlots, slotsVain, slotsVain]
    refine slotsVain_notify hnumber now rest slots honce _ _ _ fun offset run hslot => ?_
    rw [Nat.add_right_comm]
    exact hmarks (offset + 1) run hslot
  | .waiting run :: slots, honce, start, marked, later, hmarks => by
    rw [slotsHold] at honce
    have hmark := hmarks 0 run rfl
    have hrest := slotsVain_notify hnumber now rest slots (by omega) (start + 1) marked later
      fun offset run hslot => by
        rw [Nat.add_right_comm]
        exact hmarks (offset + 1) run hslot
    rw [Nat.add_zero] at hmark
    rw [notifySlots, slotsVain, slotsVain, vain_notify hnumber now rest run (by omega), hmark,
      stirs_notify, hrest]

end

/-- A child that is notified of a call has an answer if and only if it had one before. -/
theorem isAnswered_notifySlots {call : Call} {slots : List (Slot Run)} {index : Nat}
    {slot : Slot Run} (hslot : slots[index]? = some slot) :
    ∃ later, (notifySlots call slots)[index]? = some later ∧ later.isAnswered = slot.isAnswered ∧
      (later = .fresh → slot = .fresh) := by
  induction slots generalizing index with
  | nil => cases hslot
  | cons first slots ih =>
    cases index with
    | zero =>
      cases hslot
      cases slot with
      | fresh => exact ⟨.fresh, rfl, rfl, fun _ => rfl⟩
      | answered status => exact ⟨.answered status, rfl, rfl, fun heq => by cases heq⟩
      | waiting run => exact ⟨.waiting (run.notify call), rfl, rfl, fun heq => by cases heq⟩
    | succ index =>
      obtain ⟨later, hlater, hsame⟩ := ih (show slots[index]? = some slot from hslot)
      exact ⟨later, by cases first <;> exact hlater, hsame⟩

/-- There are as many children when a call has been passed on. -/
theorem length_notifySlots (call : Call) (slots : List (Slot Run)) :
    (notifySlots call slots).length = slots.length := by
  induction slots with
  | nil => rfl
  | cons slot slots ih => cases slot <;> simp [notifySlots, ih]

/-- All children have answered if and only if they had before a call was passed on. -/
theorem allAnswered?_notifySlots (call : Call) (slots : List (Slot Run)) :
    Slot.allAnswered? (notifySlots call slots) = Slot.allAnswered? slots := by
  induction slots with
  | nil => rfl
  | cons slot slots ih => cases slot <;> simp [notifySlots, Slot.allAnswered?, ih]

/-- Nobody is called back to the beginning. -/
theorem fresh_of_notifySlots {call : Call} {slots : List (Slot Run)} {index : Nat}
    (hfresh : (notifySlots call slots)[index]? = some .fresh) : slots[index]? = some .fresh := by
  have hlt : index < slots.length := by
    rw [← length_notifySlots call]
    exact (List.getElem?_eq_some_iff.mp hfresh).1
  obtain ⟨later, hlater, -, hslot⟩ := isAnswered_notifySlots (List.getElem?_eq_getElem hlt)
  rw [hfresh] at hlater
  cases hlater
  rw [List.getElem?_eq_getElem hlt, hslot rfl]

/-- A crowd that is called well while a call is pending is so when the call has been passed on. -/
theorem calledWell_notify {call : Call} {number : Number} {now : Nat} {rest : List Call} {id : Nat}
    {slots : List (Slot Run)} {called : List Nat} (hnumber : call.number? = some number)
    (honce : (if number = .crowd id then 1 else 0) + slotsHold number slots ≤ 1)
    (hwell : CalledWell now (call :: rest) id slots called) :
    CalledWell now rest id (notifySlots call slots) (calledAfter call id slots called) where
  nodup := nodup_calledAfter hwell.nodup call id slots
  unanswered := by
    intro index hmem
    have hslot : ∃ slot, slots[index]? = some slot ∧ slot.isAnswered = false := by
      rcases waiting_of_mem_calledAfter hmem with hmem | ⟨run, hrun⟩
      · exact hwell.unanswered index hmem
      · exact ⟨_, hrun, rfl⟩
    obtain ⟨slot, hslot, hunanswered⟩ := hslot
    obtain ⟨later, hlater, hsame, -⟩ := isAnswered_notifySlots hslot
    exact ⟨later, hlater, hsame.trans hunanswered⟩
  fresh := fun index hfresh =>
    mem_calledAfter.mpr (.inl (hwell.fresh index (fresh_of_notifySlots hfresh)))
  marked := by
    intro index run hrun hstirs
    obtain ⟨held, hheld, rfl⟩ := (getElem?_notifySlots call slots index run).mp hrun
    rw [stirs_notify] at hstirs
    rw [isMarked_notify hnumber hheld honce]
    exact hwell.marked index held hheld hstirs

mutual

/-- A run that is heeded while a call is pending is so when the call has been passed on. -/
theorem isHeeded_notify {call : Call} {number : Number} (hnumber : call.number? = some number)
    {now : Nat} {rest : List Call} : (run : Run) → run.holds number ≤ 1 →
    run.IsHeeded now (call :: rest) → (run.notify call).IsHeeded now rest
  | .child mark index run, honce, hheeded => by
    rw [Run.holds] at honce
    rw [Run.IsHeeded] at hheeded
    rw [Run.notify, Run.IsHeeded]
    exact isHeeded_notify hnumber run honce hheeded
  | .paused pause, _, _ => by
    rw [Run.notify, Run.IsHeeded]
    trivial
  | .together slots, honce, hheeded => by
    rw [Run.holds] at honce
    rw [Run.IsHeeded] at hheeded
    rw [Run.notify, Run.IsHeeded, allAnswered?_notifySlots]
    exact ⟨hheeded.1, slotsHeeded_notify hnumber slots honce hheeded.2⟩
  | .crowd id slots called, honce, hheeded => by
    rw [Run.holds] at honce
    obtain ⟨hwaits, hslots, hwell⟩ := isHeeded_crowd.mp hheeded
    rw [notify_crowd]
    refine isHeeded_crowd.mpr ⟨?_, slotsHeeded_notify hnumber slots (by omega) hslots,
      calledWell_notify hnumber honce hwell⟩
    rw [allAnswered?_notifySlots]
    exact hwaits

/-- Children that are heeded while a call is pending are so when the call has been passed on. -/
theorem slotsHeeded_notify {call : Call} {number : Number} (hnumber : call.number? = some number)
    {now : Nat} {rest : List Call} : (slots : List (Slot Run)) → slotsHold number slots ≤ 1 →
    SlotsHeeded now (call :: rest) slots → SlotsHeeded now rest (notifySlots call slots)
  | [], _, _ => trivial
  | .fresh :: slots, honce, hheeded => by
    rw [slotsHold] at honce
    rw [SlotsHeeded] at hheeded
    rw [notifySlots, SlotsHeeded]
    exact slotsHeeded_notify hnumber slots honce hheeded
  | .answered status :: slots, honce, hheeded => by
    rw [slotsHold] at honce
    rw [SlotsHeeded] at hheeded
    rw [notifySlots, SlotsHeeded]
    exact slotsHeeded_notify hnumber slots honce hheeded
  | .waiting run :: slots, honce, hheeded => by
    rw [slotsHold] at honce
    rw [SlotsHeeded] at hheeded
    rw [notifySlots, SlotsHeeded]
    exact ⟨isHeeded_notify hnumber run (by omega) hheeded.1,
      slotsHeeded_notify hnumber slots (by omega) hheeded.2⟩

end

/-! ## More calls -/

/-- More calls are pending than before, and none of the others concerns anyone who holds one of
these numbers. -/
structure Adds (pending more : List Call) (holds : Number → Nat) : Prop where
  /-- No call is lost. -/
  subset : ∀ call ∈ pending, call ∈ more
  /-- A call that is added concerns a number that nobody holds. -/
  passes : ∀ call ∈ more, call ∈ pending ∨
    ∃ number, call.number? = some number ∧ holds number = 0

/-- Calls that concern nobody who holds some numbers concern nobody who holds fewer. -/
theorem Adds.mono {pending more : List Call} {holds fewer : Number → Nat}
    (hadds : Adds pending more holds) (hle : ∀ number, fewer number ≤ holds number) :
    Adds pending more fewer where
  subset := hadds.subset
  passes := fun call hmem => by
    rcases hadds.passes call hmem with hmem | ⟨number, hnumber, hholds⟩
    · exact .inl hmem
    · have hnone := hle number
      rw [hholds] at hnone
      exact .inr ⟨number, hnumber, Nat.le_zero.mp hnone⟩

/-- Calls that concern nobody in a run leave open whether pending ones concern it as before. -/
theorem Adds.isHailed_eq {pending more : List Call} {run : Run}
    (hadds : Adds pending more (run.holds ·)) : run.isHailed more = run.isHailed pending := by
  rw [Bool.eq_iff_iff, Run.isHailed, Run.isHailed, List.any_eq_true, List.any_eq_true]
  constructor
  · rintro ⟨call, hmem, hawaits⟩
    rcases hadds.passes call hmem with hmem | ⟨number, hnumber, hholds⟩
    · exact ⟨call, hmem, hawaits⟩
    · have hone := holds_of_awaits hnumber run hawaits
      exact absurd hone (by simp [hholds])
  · rintro ⟨call, hmem, hawaits⟩
    exact ⟨call, hadds.subset call hmem, hawaits⟩

/-- A child that is marked stays so with more calls. -/
theorem isMarked_mono {pending more : List Call} {id : Nat} {called later : List Nat} {index : Nat}
    {run : Run} (hsubset : ∀ call ∈ pending, call ∈ more) (hcalled : index ∈ called → index ∈ later)
    (hmarked : isMarked pending id called index run = true) :
    isMarked more id later index run = true := by
  rw [isMarked_iff] at hmarked ⊢
  rcases hmarked with hmem | hturn | ⟨call, hmem, hawaits⟩
  · exact .inl (hcalled hmem)
  · exact .inr (.inl (hsubset _ hturn))
  · exact .inr (.inr ⟨call, hsubset call hmem, hawaits⟩)

mutual

/-- Whoever is heeded is heeded when more calls are pending. -/
theorem isHeeded_mono {now : Nat} {pending more : List Call}
    (hsubset : ∀ call ∈ pending, call ∈ more) :
    (run : Run) → run.IsHeeded now pending → run.IsHeeded now more
  | .child mark index run, hheeded => by
    rw [Run.IsHeeded] at hheeded ⊢
    exact isHeeded_mono hsubset run hheeded
  | .paused pause, _ => by
    rw [Run.IsHeeded]
    trivial
  | .together slots, hheeded => by
    rw [Run.IsHeeded] at hheeded ⊢
    exact ⟨hheeded.1, slotsHeeded_mono hsubset slots hheeded.2⟩
  | .crowd id slots called, hheeded => by
    obtain ⟨hwaits, hslots, hwell⟩ := isHeeded_crowd.mp hheeded
    exact isHeeded_crowd.mpr ⟨hwaits, slotsHeeded_mono hsubset slots hslots,
      { hwell with
        marked := fun index run hslot hstirs =>
          isMarked_mono hsubset (fun hmem => hmem) (hwell.marked index run hslot hstirs) }⟩

/-- Children that are heeded stay so with more calls. -/
theorem slotsHeeded_mono {now : Nat} {pending more : List Call}
    (hsubset : ∀ call ∈ pending, call ∈ more) :
    (slots : List (Slot Run)) → SlotsHeeded now pending slots → SlotsHeeded now more slots
  | [], _ => trivial
  | .fresh :: slots, hheeded => by
    rw [SlotsHeeded] at hheeded ⊢
    exact slotsHeeded_mono hsubset slots hheeded
  | .answered status :: slots, hheeded => by
    rw [SlotsHeeded] at hheeded ⊢
    exact slotsHeeded_mono hsubset slots hheeded
  | .waiting run :: slots, hheeded => by
    rw [SlotsHeeded] at hheeded ⊢
    exact ⟨isHeeded_mono hsubset run hheeded.1, slotsHeeded_mono hsubset slots hheeded.2⟩

end

mutual

/-- Calls that concern nobody here cost nothing. -/
theorem vain_eq {now : Nat} {pending more : List Call} :
    (run : Run) → Adds pending more (run.holds ·) → run.vain now more = run.vain now pending
  | .child mark index run, hadds => by
    rw [Run.vain, Run.vain]
    exact vain_eq run (hadds.mono fun number => Nat.le_of_eq (by rw [Run.holds]))
  | .paused pause, _ => by rw [Run.vain, Run.vain]
  | .together slots, hadds => by
    rw [Run.vain, Run.vain]
    exact slotsVain_eq_of_adds slots
      (hadds.mono fun number => Nat.le_of_eq (by rw [Run.holds])) 0 _ _ fun _ _ _ => rfl
  | .crowd id slots called, hadds => by
    have hslots : Adds pending more (slotsHold · slots) := hadds.mono fun number => by
      rw [Run.holds]
      exact Nat.le_add_left _ _
    rw [Run.vain, Run.vain]
    refine slotsVain_eq_of_adds slots hslots 0 _ _ fun offset run hslot => ?_
    have hrun : run.isHailed more = run.isHailed pending :=
      (hslots.mono fun number => holds_le_slotsHold hslot number).isHailed_eq
    have hturn : Call.turn id offset ∈ more ↔ Call.turn id offset ∈ pending := by
      constructor
      · intro hmem
        rcases hadds.passes _ hmem with hmem | ⟨number, hnumber, hholds⟩
        · exact hmem
        · cases hnumber
          simp [Run.holds] at hholds
      · exact hadds.subset _
    rw [Bool.eq_iff_iff, Nat.zero_add]
    simp [isMarked, hrun, hturn]

/-- Calls that concern none of the children leave the looks in vain at them as they are. -/
theorem slotsVain_eq_of_adds {now : Nat} {pending more : List Call} :
    (slots : List (Slot Run)) → Adds pending more (slotsHold · slots) →
    (start : Nat) → (marked later : Nat → Run → Bool) →
    (∀ offset run, slots[offset]? = some (.waiting run) →
      later (start + offset) run = marked (start + offset) run) →
    slotsVain now more later start slots = slotsVain now pending marked start slots
  | [], _, _, _, _, _ => rfl
  | .fresh :: slots, hadds, start, marked, later, hmarks => by
    rw [slotsVain, slotsVain]
    refine slotsVain_eq_of_adds slots
      (hadds.mono fun number => Nat.le_of_eq (by rw [slotsHold])) _ _ _ fun offset run hslot => ?_
    rw [Nat.add_right_comm]
    exact hmarks (offset + 1) run hslot
  | .answered status :: slots, hadds, start, marked, later, hmarks => by
    rw [slotsVain, slotsVain]
    refine slotsVain_eq_of_adds slots
      (hadds.mono fun number => Nat.le_of_eq (by rw [slotsHold])) _ _ _ fun offset run hslot => ?_
    rw [Nat.add_right_comm]
    exact hmarks (offset + 1) run hslot
  | .waiting run :: slots, hadds, start, marked, later, hmarks => by
    have hmark := hmarks 0 run rfl
    have hslots : Adds pending more (slotsHold · slots) := hadds.mono fun number => by
      rw [slotsHold]
      exact Nat.le_add_left _ _
    have hfirst : Adds pending more (run.holds ·) := hadds.mono fun number => by
      rw [slotsHold]
      exact Nat.le_add_right _ _
    have hrest := @slotsVain_eq_of_adds now _ _ slots hslots (start + 1) marked later
      fun offset run hslot => by
        rw [Nat.add_right_comm]
        exact hmarks (offset + 1) run hslot
    rw [Nat.add_zero] at hmark
    rw [slotsVain, slotsVain, vain_eq run hfirst, hmark, hrest]

end

end BehaviorTree
