import BehaviorTree.Tree.World

/-!
# Passing calls on

A call that is passed on along a run changes none of the timers that the run waits for, and a run
that does not await the call stays as it is. A run awaits the calls of the timers that it waits for,
and of no others.
-/

namespace BehaviorTree

mutual

/-- A run that is notified of a call waits for the same timers. -/
theorem timers_notify (call : Call) : (run : Run) → (run.notify call).timers = run.timers
  | .child mark index run => by
    rw [Run.notify, Run.timers, Run.timers, timers_notify call run]
  | .paused pause => by rw [Run.notify]
  | .together slots => by
    rw [Run.notify, Run.timers, Run.timers, timers_notifySlots call slots]
  | .crowd id slots called => by
    rw [Run.notify, Run.timers, Run.timers, timers_notifySlots call slots]

/-- Children that are notified of a call wait for the same timers. -/
theorem timers_notifySlots (call : Call) :
    (slots : List (Slot Run)) → slotTimers (notifySlots call slots) = slotTimers slots
  | [] => rfl
  | .fresh :: rest => by
    rw [notifySlots, slotTimers, slotTimers, timers_notifySlots call rest]
  | .answered status :: rest => by
    rw [notifySlots, slotTimers, slotTimers, timers_notifySlots call rest]
  | .waiting run :: rest => by
    rw [notifySlots, slotTimers, slotTimers, timers_notify call run, timers_notifySlots call rest]

end

mutual

/-- A run that does not await a call is not changed by it. -/
theorem notify_eq_self {call : Call} :
    (run : Run) → run.awaits call = false → run.notify call = run
  | .child mark index run, hawaits => by
    rw [Run.awaits] at hawaits
    rw [Run.notify, notify_eq_self run hawaits]
  | .paused pause, _ => by rw [Run.notify]
  | .together slots, hawaits => by
    rw [Run.awaits] at hawaits
    rw [Run.notify, notifySlots_eq_self slots hawaits]
  | .crowd id slots called, hawaits => by
    rw [Run.awaits, Bool.or_eq_false_iff] at hawaits
    have hmember : call.member? id slots = none :=
      Option.not_isSome_iff_eq_none.mp (by simp [hawaits.1])
    have hslot : slotAwaiting? call slots = none :=
      Option.not_isSome_iff_eq_none.mp (by simp [hawaits.2])
    rw [Run.notify, notifySlots_eq_self slots hawaits.2, hmember, hslot]
    rfl

/-- Children that do not await a call stay as they are when notified of it. -/
theorem notifySlots_eq_self {call : Call} : (slots : List (Slot Run)) →
    (slotAwaiting? call slots).isSome = false → notifySlots call slots = slots
  | [], _ => rfl
  | .fresh :: rest, hawaits => by
    rw [slotAwaiting?, Option.isSome_map] at hawaits
    rw [notifySlots, notifySlots_eq_self rest hawaits]
  | .answered status :: rest, hawaits => by
    rw [slotAwaiting?, Option.isSome_map] at hawaits
    rw [notifySlots, notifySlots_eq_self rest hawaits]
  | .waiting run :: rest, hawaits => by
    rw [slotAwaiting?] at hawaits
    split at hawaits
    · cases hawaits
    · next hrun =>
      rw [Option.isSome_map] at hawaits
      rw [notifySlots, notify_eq_self run (by simpa using hrun), notifySlots_eq_self rest hawaits]

end

mutual

/-- Only a run that waits for a timer awaits its call. -/
theorem exists_timer_of_awaits {order : Nat} :
    (run : Run) → run.awaits (.due order) = true → ∃ timer ∈ run.timers, timer.order = some order
  | .child mark index run, hawaits => by
    rw [Run.awaits] at hawaits
    rw [Run.timers]
    exact exists_timer_of_awaits run hawaits
  | .paused pause, hawaits => by
    have horder : pause.timer.order = some order := by
      simpa [Run.awaits, Pause.awaits] using hawaits
    exact ⟨pause.timer, by simp [Run.timers, horder], horder⟩
  | .together slots, hawaits => by
    rw [Run.awaits] at hawaits
    rw [Run.timers]
    exact exists_timer_of_slotAwaiting slots hawaits
  | .crowd id slots called, hawaits => by
    have hslots : (slotAwaiting? (.due order) slots).isSome = true := by
      simpa [Run.awaits, Call.member?] using hawaits
    rw [Run.timers]
    exact exists_timer_of_slotAwaiting slots hslots

/-- If children await the call of a timer, then one of them waits for that timer. -/
theorem exists_timer_of_slotAwaiting {order : Nat} : (slots : List (Slot Run)) →
    (slotAwaiting? (.due order) slots).isSome = true →
      ∃ timer ∈ slotTimers slots, timer.order = some order
  | [], hawaits => by cases hawaits
  | .fresh :: rest, hawaits => by
    rw [slotAwaiting?, Option.isSome_map] at hawaits
    rw [slotTimers]
    exact exists_timer_of_slotAwaiting rest hawaits
  | .answered status :: rest, hawaits => by
    rw [slotAwaiting?, Option.isSome_map] at hawaits
    rw [slotTimers]
    exact exists_timer_of_slotAwaiting rest hawaits
  | .waiting run :: rest, hawaits => by
    rw [slotAwaiting?] at hawaits
    rw [slotTimers]
    split at hawaits
    · next hrun =>
      obtain ⟨timer, hmem, horder⟩ := exists_timer_of_awaits run hrun
      exact ⟨timer, List.mem_append_left _ hmem, horder⟩
    · rw [Option.isSome_map] at hawaits
      obtain ⟨timer, hmem, horder⟩ := exists_timer_of_slotAwaiting rest hawaits
      exact ⟨timer, List.mem_append_right _ hmem, horder⟩

end

mutual

/-- Every timer that a run waits for has been started, and the run awaits its call. -/
theorem awaits_of_mem_timers {timer : Timer} : (run : Run) → timer ∈ run.timers →
    ∃ order, timer.order = some order ∧ run.awaits (.due order) = true
  | .child mark index run, hmem => by
    rw [Run.timers] at hmem
    obtain ⟨order, horder, hawaits⟩ := awaits_of_mem_timers run hmem
    exact ⟨order, horder, by rw [Run.awaits, hawaits]⟩
  | .paused pause, hmem => by
    rw [Run.timers] at hmem
    split at hmem
    · next hstarted =>
      obtain rfl := List.mem_singleton.mp hmem
      obtain ⟨order, horder⟩ := Option.isSome_iff_exists.mp hstarted
      exact ⟨order, horder, by simp [Run.awaits, Pause.awaits, horder]⟩
    · cases hmem
  | .together slots, hmem => by
    rw [Run.timers] at hmem
    obtain ⟨order, horder, hawaits⟩ := slotAwaiting_of_mem_timers slots hmem
    exact ⟨order, horder, by rw [Run.awaits, hawaits]⟩
  | .crowd id slots called, hmem => by
    rw [Run.timers] at hmem
    obtain ⟨order, horder, hawaits⟩ := slotAwaiting_of_mem_timers slots hmem
    exact ⟨order, horder, by rw [Run.awaits, hawaits, Bool.or_true]⟩

/-- Children await the call of each timer that one of them waits for. -/
theorem slotAwaiting_of_mem_timers {timer : Timer} : (slots : List (Slot Run)) →
    timer ∈ slotTimers slots →
      ∃ order, timer.order = some order ∧ (slotAwaiting? (.due order) slots).isSome = true
  | [], hmem => by cases hmem
  | .fresh :: rest, hmem => by
    rw [slotTimers] at hmem
    obtain ⟨order, horder, hawaits⟩ := slotAwaiting_of_mem_timers rest hmem
    exact ⟨order, horder, by rw [slotAwaiting?, Option.isSome_map, hawaits]⟩
  | .answered status :: rest, hmem => by
    rw [slotTimers] at hmem
    obtain ⟨order, horder, hawaits⟩ := slotAwaiting_of_mem_timers rest hmem
    exact ⟨order, horder, by rw [slotAwaiting?, Option.isSome_map, hawaits]⟩
  | .waiting run :: rest, hmem => by
    rw [slotTimers] at hmem
    rcases List.mem_append.mp hmem with hmem | hmem
    · obtain ⟨order, horder, hawaits⟩ := awaits_of_mem_timers run hmem
      exact ⟨order, horder, by rw [slotAwaiting?, if_pos hawaits]; rfl⟩
    · obtain ⟨order, horder, hawaits⟩ := slotAwaiting_of_mem_timers rest hmem
      refine ⟨order, horder, ?_⟩
      rw [slotAwaiting?]
      split
      · rfl
      · rw [Option.isSome_map, hawaits]

end

end BehaviorTree
