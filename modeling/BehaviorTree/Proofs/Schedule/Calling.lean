import BehaviorTree.Schedule.System

/-!
# Who is called when the clock moves

The timers whose time has come call in an order of their own. One timer more is called somewhere in
between, and the others call in the order in which they would have called without it
(`Timer.filter_calling`).
-/

namespace BehaviorTree

namespace Timer

/-- Times with numbers, in the order of the calls. -/
def Before (first second : Nat × Nat) : Prop :=
  first.1 < second.1 ∨ first.1 = second.1 ∧ first.2 ≤ second.2

/-- Whether a call is not that of the timer with a number. -/
def isOther (own : Nat) (call : Nat × Nat) : Bool := call.2 != own

variable {due order : Nat} {found : List (Nat × Nat)}

/-- A list has a call more when one has been inserted. -/
theorem mem_insertDue {call : Nat × Nat} :
    call ∈ insertDue due order found ↔ call = (due, order) ∨ call ∈ found := by
  induction found with
  | nil => simp [insertDue]
  | cons head rest ih =>
    rw [insertDue]
    split
    · simp
    · rw [List.mem_cons, ih, List.mem_cons]
      exact or_left_comm

/-- Whoever is put into the list stands where its time and number belong. -/
theorem pairwise_insertDue (hsorted : found.Pairwise Before) :
    (insertDue due order found).Pairwise Before := by
  induction found with
  | nil => exact List.pairwise_singleton _ _
  | cons head rest ih =>
    obtain ⟨hhead, hrest⟩ := List.pairwise_cons.mp hsorted
    rw [insertDue]
    split
    · next hearlier =>
      refine List.pairwise_cons.mpr ⟨fun call hmem => ?_, hsorted⟩
      rcases List.mem_cons.mp hmem with rfl | hmem
      · simp only [Before]
        omega
      · have hbefore := hhead call hmem
        simp only [Before] at hbefore ⊢
        omega
    · next hlater =>
      refine List.pairwise_cons.mpr ⟨fun call hmem => ?_, ih hrest⟩
      rcases mem_insertDue.mp hmem with rfl | hmem
      · simp only [Before]
        omega
      · exact hhead call hmem

/-- A call that comes before all others is inserted first. -/
theorem insertDue_of_first
    (hfirst : ∀ call ∈ found, due < call.1 ∨ due = call.1 ∧ order < call.2) :
    insertDue due order found = (due, order) :: found := by
  cases found with
  | nil => rfl
  | cons head rest => exact if_pos (hfirst head List.mem_cons_self)

/-- Whoever is put into the list stands where it would stand without one of the others. -/
theorem filter_insertDue {own : Nat} (hsorted : found.Pairwise Before) (hother : order ≠ own) :
    (insertDue due order found).filter (isOther own) =
      insertDue due order (found.filter (isOther own)) := by
  have hkept : isOther own (due, order) = true := by simpa [isOther] using hother
  induction found with
  | nil => rw [insertDue, List.filter_cons_of_pos hkept]; rfl
  | cons head rest ih =>
    obtain ⟨hhead, hrest⟩ := List.pairwise_cons.mp hsorted
    by_cases hown : head.2 = own
    · have hdropped : ¬ isOther own head = true := by simpa [isOther] using hown
      rw [List.filter_cons_of_neg hdropped, insertDue]
      split
      · next hearlier =>
        rw [List.filter_cons_of_pos hkept, List.filter_cons_of_neg hdropped]
        refine (insertDue_of_first fun call hmem => ?_).symm
        have hbefore := hhead call (List.mem_filter.mp hmem).1
        simp only [Before] at hbefore
        omega
      · rw [List.filter_cons_of_neg hdropped, ih hrest]
    · have hheld : isOther own head = true := by simpa [isOther] using hown
      rw [List.filter_cons_of_pos hheld, insertDue, insertDue]
      split
      · rw [List.filter_cons_of_pos hkept, List.filter_cons_of_pos hheld]
      · rw [List.filter_cons_of_pos hheld, ih hrest]

/-- The started timers whose time has come, put into a list one after the other. -/
def collect (now : Nat) (found : List (Nat × Nat)) (timers : List Timer) : List (Nat × Nat) :=
  timers.foldl (fun found timer =>
    match timer.order with
    | some order => if timer.due ≤ now then insertDue timer.due order found else found
    | none => found) found

/-- The calls are those that are collected from all timers. -/
theorem calling_eq (now : Nat) (timers : List Timer) :
    calling now timers = (collect now [] timers).map (·.2) := rfl

/-- A call that has been found stays so while others are collected. -/
theorem mem_collect {now : Nat} {call : Nat × Nat} (timers : List Timer) (hmem : call ∈ found) :
    call ∈ collect now found timers := by
  induction timers generalizing found with
  | nil => exact hmem
  | cons timer timers ih =>
    refine ih ?_
    dsimp only
    split
    · split
      · exact mem_insertDue.mpr (.inr hmem)
      · exact hmem
    · exact hmem

/-- Collecting without the calls of one timer is collecting and leaving those calls out. -/
theorem filter_collect {now own : Nat} {timers : List Timer} (hsorted : found.Pairwise Before)
    (hother : ∀ timer ∈ timers, timer.order ≠ some own) :
    (collect now found timers).filter (isOther own) =
      collect now (found.filter (isOther own)) timers := by
  induction timers generalizing found with
  | nil => rfl
  | cons timer timers ih =>
    have hrest : ∀ timer ∈ timers, timer.order ≠ some own :=
      fun timer hmem => hother timer (List.mem_cons_of_mem _ hmem)
    have hfirst := hother timer List.mem_cons_self
    rw [collect, collect, List.foldl_cons, List.foldl_cons, ← collect, ← collect]
    cases horder : timer.order with
    | none => exact ih hsorted hrest
    | some order =>
      have hne : order ≠ own := fun heq => hfirst (heq ▸ horder)
      dsimp only
      by_cases hdue : timer.due ≤ now
      · rw [if_pos hdue, if_pos hdue, ih (pairwise_insertDue hsorted) hrest,
          filter_insertDue hsorted hne]
      · rw [if_neg hdue, if_neg hdue]
        exact ih hsorted hrest

/-- Every started timer whose time has come calls. -/
theorem mem_calling {now called : Nat} {timers : List Timer} {timer : Timer}
    (hmem : timer ∈ timers) (horder : timer.order = some called) (hdue : timer.due ≤ now) :
    called ∈ calling now timers := by
  have hcollect : ∀ (timers : List Timer) (found : List (Nat × Nat)), timer ∈ timers →
      (timer.due, called) ∈ collect now found timers := by
    intro timers
    induction timers with
    | nil => exact fun _ hmem => absurd hmem List.not_mem_nil
    | cons first timers ih =>
      intro found hmem
      rw [collect, List.foldl_cons, ← collect]
      rcases List.mem_cons.mp hmem with rfl | hmem
      · refine mem_collect timers ?_
        rw [horder]
        dsimp only
        rw [if_pos hdue]
        exact mem_insertDue.mpr (.inl rfl)
      · exact ih _ hmem
  exact List.mem_map.mpr ⟨_, hcollect timers [] hmem, rfl⟩

variable {now : Nat} {timers : List Timer}

/-- A call that is collected had been found before, or its timer is among the others and due. -/
theorem exists_of_mem_collect {now : Nat} {call : Nat × Nat} (timers : List Timer)
    (hmem : call ∈ collect now found timers) :
    call ∈ found ∨ ∃ timer ∈ timers, timer.order = some call.2 ∧ timer.due ≤ now := by
  induction timers generalizing found with
  | nil => exact .inl hmem
  | cons timer timers ih =>
    rw [collect, List.foldl_cons, ← collect] at hmem
    rcases ih hmem with hfound | ⟨other, hother, horder, hdue⟩
    · cases horder : timer.order with
      | none =>
        rw [horder] at hfound
        exact .inl hfound
      | some order =>
        rw [horder] at hfound
        dsimp only at hfound
        split at hfound
        · next hdue =>
          rcases mem_insertDue.mp hfound with rfl | hfound
          · exact .inr ⟨timer, List.mem_cons_self, horder, hdue⟩
          · exact .inl hfound
        · exact .inl hfound
    · exact .inr ⟨other, List.mem_cons_of_mem _ hother, horder, hdue⟩

/-- Whoever calls is one of the timers, and its time has come. -/
theorem exists_of_mem_calling {now called : Nat} {timers : List Timer}
    (hmem : called ∈ calling now timers) :
    ∃ timer ∈ timers, timer.order = some called ∧ timer.due ≤ now := by
  obtain ⟨call, hcall, rfl⟩ := List.mem_map.mp hmem
  rcases exists_of_mem_collect timers hcall with hnone | htimer
  · cases hnone
  · exact htimer

/-- A timer whose time has not come does not call. -/
theorem calling_cons_of_lt (hdue : now < due) :
    calling now (⟨due, some order⟩ :: timers) = calling now timers := by
  have hfirst : collect now [] (⟨due, some order⟩ :: timers) = collect now [] timers := by
    rw [collect, List.foldl_cons]
    dsimp only
    rw [if_neg (Nat.not_le.mpr hdue)]
    rfl
  rw [calling_eq, hfirst, ← calling_eq]

/-- A timer that is due is the first to be collected. -/
theorem collect_cons_of_le (hdue : due ≤ now) :
    collect now [] (⟨due, some order⟩ :: timers) = collect now [(due, order)] timers := by
  rw [collect, List.foldl_cons]
  dsimp only
  rw [if_pos hdue]
  rfl

/-- The others call as they would call without it. -/
theorem filter_calling (hdue : due ≤ now) (hother : ∀ timer ∈ timers, timer.order ≠ some order) :
    (calling now (⟨due, some order⟩ :: timers)).filter (· != order) = calling now timers := by
  have hdropped : [(due, order)].filter (isOther order) = [] := by simp [isOther]
  have hcollected := @filter_collect _ now _ _ (List.pairwise_singleton Before (due, order)) hother
  rw [hdropped] at hcollected
  rw [calling_eq, calling_eq, collect_cons_of_le hdue, List.filter_map, ← hcollected]
  rfl

end Timer

end BehaviorTree
