import BehaviorTree.Proofs.Tree.Tick
import BehaviorTree.Proofs.Tree.Walk
import Mathlib.Data.List.Chain

/-!
# One pass in several ticks

A chain goes over its children in order (`Chain.Walks`). A child that answers running cuts the pass
short, and the next tick resumes it. The pieces put together, without the executions that were cut
short, are one uninterrupted pass: nothing is skipped and nothing is repeated
(`Chain.ticks_isOnePass`).
-/

namespace BehaviorTree

open Journal

variable {κ : Type} [Application κ]

/-- A status that ends an execution is not running. -/
theorem Status.ne_running {status : Status} (hterminal : status.isTerminal) :
    status ≠ .running := by
  rintro rfl
  cases hterminal

namespace Chain

variable {passed status : Status} {size position later last : Nat}
  {executions more : List Execution}

/-! ## The way through the children -/

/-- The executions from a position on, the answer that ends them, and where the next pass begins. -/
inductive Walks (passed : Status) (size : Nat) :
    Nat → List Execution → Status → Nat → Prop where
  | through {position : Nat} (hend : size ≤ position) : Walks passed size position [] passed 0
  | pass {position : Nat} (hchild : position < size) {executions : List Execution} {status : Status}
      {later : Nat} (hrest : Walks passed size (position + 1) executions status later) :
    Walks passed size position (⟨position, passed⟩ :: executions) status later
  | suspend {position : Nat} (hchild : position < size) :
    Walks passed size position [⟨position, .running⟩] .running position
  | stop {position : Nat} (hchild : position < size) {status : Status} (hended : status ≠ .running)
      (hother : status ≠ passed) : Walks passed size position [⟨position, status⟩] status 0

/-- The executions that have not been cut short. -/
def settled (executions : List Execution) : List Execution :=
  executions.filter (·.status ≠ .running)

namespace Walks

/-- A pass that is not suspended has no executions that were cut short, and the next one begins with
the first child. -/
theorem of_ended (hwalks : Walks passed size position executions status later)
    (hended : status ≠ .running) (hpassed : passed ≠ .running) :
    settled executions = executions ∧ later = 0 := by
  induction hwalks with
  | through hend => exact ⟨rfl, rfl⟩
  | pass hchild _ ih =>
    obtain ⟨hsettled, hlater⟩ := ih hended
    refine ⟨?_, hlater⟩
    rw [settled, List.filter_cons_of_pos (by simpa using hpassed)]
    exact congrArg (List.cons _) hsettled
  | suspend hchild => exact absurd rfl hended
  | stop hchild hstatus hother => exact ⟨List.filter_cons_of_pos (by simpa using hstatus), rfl⟩

/-- A suspended pass ends with the execution of the child at which it is taken up again. -/
theorem of_running (hwalks : Walks passed size position executions .running later)
    (hpassed : passed ≠ .running) :
    later < size ∧ executions = settled executions ++ [⟨later, .running⟩] := by
  generalize hstatus : Status.running = status at hwalks
  induction hwalks with
  | through hend => exact absurd hstatus.symm hpassed
  | pass hchild _ ih =>
    obtain ⟨hlater, hexecutions⟩ := ih hstatus
    refine ⟨hlater, ?_⟩
    rw [settled, List.filter_cons_of_pos (by simpa using hpassed), List.cons_append]
    exact congrArg (List.cons _) hexecutions
  | suspend hchild => exact ⟨hchild, rfl⟩
  | stop hchild hended hother => exact absurd hstatus.symm hended

/-- A suspended pass and the one that takes it up are one pass together. -/
theorem trans (hwalks : Walks passed size position executions .running later)
    (hpassed : passed ≠ .running) (hrest : Walks passed size later more status last) :
    Walks passed size position (settled executions ++ more) status last := by
  generalize hstatus : Status.running = answer at hwalks
  induction hwalks with
  | through hend => exact absurd hstatus.symm hpassed
  | pass hchild _ ih =>
    rw [settled, List.filter_cons_of_pos (by simpa using hpassed), List.cons_append]
    exact .pass hchild (ih hrest hstatus)
  | suspend hchild => exact hrest
  | stop hchild hended hother => exact absurd hstatus.symm hended

/-- A pass begins with the child at its position. -/
theorem head (hwalks : Walks passed size position executions status later)
    (hchild : position < size) : (executions.head?).map (·.child) = some position := by
  cases hwalks with
  | through hend => exact absurd hchild (Nat.not_lt.mpr hend)
  | pass => rfl
  | suspend => rfl
  | stop => rfl

/-- An uninterrupted pass runs the children in order, and only the last one can end it. -/
theorem eq_map_range' (hwalks : Walks passed size position executions status later)
    (hended : status ≠ .running) :
    status = passed ∧ executions = (List.range' position (size - position)).map (⟨·, passed⟩) ∨
      status ≠ passed ∧ ∃ count, position + count < size ∧
        executions = (List.range' position count).map (⟨·, passed⟩) ++
          [⟨position + count, status⟩] := by
  induction hwalks with
  | through hend =>
    rw [Nat.sub_eq_zero_of_le hend]
    exact .inl ⟨rfl, rfl⟩
  | @pass position hchild executions status later _ ih =>
    obtain ⟨hstatus, rfl⟩ | ⟨hstatus, count, hcount, rfl⟩ := ih hended
    · have hleft : size - position = size - (position + 1) + 1 := by omega
      refine .inl ⟨hstatus, ?_⟩
      rw [hleft, List.range'_succ]
      rfl
    · refine .inr ⟨hstatus, count + 1, by omega, ?_⟩
      have hposition : position + (count + 1) = position + 1 + count := by omega
      rw [List.range'_succ, hposition]
      rfl
  | suspend hchild => exact absurd rfl hended
  | stop hchild hstatus hother => exact .inr ⟨hother, 0, hchild, rfl⟩

/-- What an uninterrupted pass from the first child on consists of. -/
theorem eq_map_range (hwalks : Walks passed size 0 executions status later)
    (hended : status ≠ .running) :
    status = passed ∧ executions = (List.range size).map (⟨·, passed⟩) ∨
      status ≠ passed ∧ ∃ child < size,
        executions = (List.range child).map (⟨·, passed⟩) ++ [⟨child, status⟩] := by
  have hexplicit := hwalks.eq_map_range' hended
  simp only [Nat.zero_add, Nat.sub_zero, ← List.range_eq_range'] at hexplicit
  exact hexplicit

/-- The children that a pass executes are the first ones, in order. -/
theorem children_eq (hwalks : Walks passed size 0 executions status later)
    (hended : status ≠ .running) : executions.map (·.child) = List.range executions.length := by
  obtain ⟨-, rfl⟩ | ⟨-, child, -, rfl⟩ := hwalks.eq_map_range hended
  · simp [Function.comp_def]
  · simp [Function.comp_def, List.range_succ]

/-- Every child but the last that a pass executes is passed over. -/
theorem status_eq_of_mem_dropLast (hwalks : Walks passed size 0 executions status later)
    (hended : status ≠ .running) {execution : Execution} (hmem : execution ∈ executions.dropLast) :
    execution.status = passed := by
  obtain ⟨-, rfl⟩ | ⟨-, child, -, rfl⟩ := hwalks.eq_map_range hended
  · obtain ⟨position, -, rfl⟩ := List.mem_map.mp ((List.dropLast_sublist _).mem hmem)
    rfl
  · rw [List.dropLast_concat] at hmem
    obtain ⟨position, -, rfl⟩ := List.mem_map.mp hmem
    rfl

/-- A pass answers the status that is passed over if and only if all children are. -/
theorem through_iff (hwalks : Walks passed size 0 executions status later)
    (hended : status ≠ .running) :
    status = passed ↔ executions = (List.range size).map (⟨·, passed⟩) := by
  obtain ⟨hstatus, hexecutions⟩ | ⟨hstatus, child, -, rfl⟩ := hwalks.eq_map_range hended
  · exact iff_of_true hstatus hexecutions
  · refine iff_of_false hstatus fun hsame => ?_
    have hmem : (⟨child, status⟩ : Execution) ∈ (List.range size).map (⟨·, passed⟩) :=
      hsame ▸ List.mem_append_right _ List.mem_cons_self
    obtain ⟨position, -, hposition⟩ := List.mem_map.mp hmem
    cases hposition
    exact hstatus rfl

/-- A pass answers another status if and only if a child gives it after all before it are passed
over. -/
theorem stopped_iff (hwalks : Walks passed size 0 executions status later)
    (hended : status ≠ .running) {other : Status} (hother : other ≠ passed) :
    status = other ↔ ∃ child < size,
      executions = (List.range child).map (⟨·, passed⟩) ++ [⟨child, other⟩] := by
  obtain ⟨hstatus, hexecutions⟩ | ⟨hstatus, child, hchild, rfl⟩ := hwalks.eq_map_range hended
  · refine iff_of_false (fun hsame => hother (hsame ▸ hstatus)) ?_
    rintro ⟨child, -, rfl⟩
    have hmem : (⟨child, other⟩ : Execution) ∈ (List.range size).map (⟨·, passed⟩) :=
      hexecutions ▸ List.mem_append_right _ List.mem_cons_self
    obtain ⟨position, -, hposition⟩ := List.mem_map.mp hmem
    cases hposition
    exact hother rfl
  · constructor
    · rintro rfl
      exact ⟨child, hchild, rfl⟩
    · rintro ⟨position, -, hsame⟩
      have hlast := congrArg List.getLast? hsame
      rw [List.getLast?_concat, List.getLast?_concat] at hlast
      cases hlast
      rfl

end Walks

/-! ## Ticks of a chain -/

/-- Which child a signal is about, and the execution that it reports. -/
inductive Reports (size cursor : Nat) : Signal → Nat → List Execution → Prop where
  | started : Reports size cursor .started cursor []
  | answered {child : Nat} (hchild : child < size) (status : Status) :
    Reports size cursor (.answered child status) child [⟨child, status⟩]

/-- A chain goes on with its way, or it ends it. -/
theorem respond_cases (hpassed : passed ≠ .running) {moment : Moment} {cursor : Nat}
    {signal : Signal} {first : List Execution}
    (hreports : Reports moment.size cursor signal position first) :
    (∃ next, respond passed moment cursor signal = proceed passed moment.size cursor next ∧
        ∀ executions status later, Walks passed moment.size next executions status later →
          Walks passed moment.size position (first ++ executions) status later) ∨
      ∃ status later, respond passed moment cursor signal = .finish later status ∧
        Walks passed moment.size position first status later := by
  cases hreports with
  | started => exact .inl ⟨position, rfl, fun _ _ _ hrest => hrest⟩
  | answered hchild status =>
    by_cases hrunning : status = .running
    · subst hrunning
      exact .inr ⟨.running, position, rfl, .suspend hchild⟩
    · rw [respond]
      · by_cases hstatus : status = passed
        · subst hstatus
          exact .inl ⟨position + 1, if_pos rfl, fun _ _ _ hrest => .pass hchild hrest⟩
        · exact .inr ⟨status, 0, if_neg hstatus, .stop hchild hrunning hstatus⟩
      · exact hrunning

/-- The exchanges of a chain are a walk from the child that the signal is about. -/
theorem walks_of_talks (hpassed : passed ≠ .running) {cursor : Nat} {signal : Signal}
    {exchanges : List Exchange} {request : Request} {first : List Execution}
    (htalks : Machine.Talks (respond passed) size cursor signal exchanges later request)
    (hrequest : request = .finish status)
    (hreports : Reports size cursor signal position first) :
    ∃ executions, exchanges.flatMap Exchange.deeds = executions.flatMap Execution.deeds ∧
      Walks passed size position (first ++ executions) status later := by
  induction htalks generalizing position first with
  | asks cursor signal moment hsize =>
    subst hsize
    refine ⟨[], rfl, ?_⟩
    obtain ⟨next, hrespond, hgoes⟩ | ⟨status', later', hrespond, hwalks⟩ :=
      respond_cases hpassed hreports
    · rw [hrespond, proceed] at hrequest ⊢
      split at hrequest
      · cases hrequest
      · next hend =>
        cases hrequest
        rw [if_neg hend]
        exact hgoes _ _ _ (.through (Nat.le_of_not_lt hend))
    · rw [hrespond] at hrequest ⊢
      cases hrequest
      rw [List.append_nil]
      exact hwalks
  | hears cursor signal moment hsize hanswer _ ih =>
    subst hsize
    obtain ⟨next, hrespond, hgoes⟩ | ⟨status', later', hrespond, -⟩ :=
      respond_cases hpassed hreports
    · rw [hrespond, proceed] at hanswer ih ⊢
      by_cases hnext : next < moment.size
      · rw [if_pos hnext] at hanswer ih ⊢
        cases hanswer with
        | run _ _ answer =>
          obtain ⟨executions, hdeeds, hwalks⟩ := ih hrequest (.answered hnext answer)
          refine ⟨⟨next, answer⟩ :: executions, ?_, hgoes _ _ _ hwalks⟩
          rw [List.flatMap_cons, List.flatMap_cons, hdeeds]
          rfl
      · rw [if_neg hnext] at hanswer
        cases hanswer
    · rw [hrespond] at hanswer
      cases hanswer

/-- A chain runs its children one at a time. -/
theorem isPlain_respond (passed : Status) (size : Nat) :
    Machine.IsPlain (respond passed) size := by
  intro moment cursor signal hsize
  subst hsize
  have hproceed : ∀ position,
      (proceed passed moment.size cursor position).request.IsPlain moment.size := by
    intro position
    unfold proceed
    split
    · next hchild => exact hchild
    · trivial
  cases signal with
  | started => exact hproceed cursor
  | answered position status =>
    cases status with
    | running => trivial
    | success | failure =>
      rw [respond]
      · split
        · exact hproceed (position + 1)
        · trivial
      · intro hrunning
        cases hrunning
  | _ => trivial

/-- Ticks of which each goes on where the one before it has left off. -/
inductive Passes (passed : Status) (size : Nat) : Nat → List Tick → Nat → Prop where
  | nil (position : Nat) : Passes passed size position [] position
  | cons {position : Nat} {tick : Tick} {later : Nat} {ticks : List Tick} {last : Nat}
      (hdeeds : tick.deeds = tick.executions.flatMap Execution.deeds)
      (hwalks : Walks passed size position tick.executions tick.status later)
      (hrest : Passes passed size later ticks last) :
    Passes passed size position (tick :: ticks) last

/-- What happened in several ticks without the executions that were cut short. -/
def settledIn (ticks : List Tick) : List Execution := settled (ticks.flatMap Tick.executions)

/-- The tick ends with a child that answers running, and the next one begins with that child. -/
def Resumes (tick next : Tick) : Prop :=
  ∃ child, tick.executions.getLast? = some ⟨child, .running⟩ ∧
    next.deeds.head? = some (.begun child)

/-- The settled executions of two lists are those of the one and then of the other. -/
theorem settled_append (first rest : List Execution) :
    settled (first ++ rest) = settled first ++ settled rest :=
  List.filter_append first rest

/-- A settled execution has not been cut short. -/
theorem status_ne_running_of_mem_settled {execution : Execution}
    (hmem : execution ∈ settled executions) : execution.status ≠ .running := by
  simpa using (List.mem_filter.mp hmem).2

/-- Only the last execution of a pass can be cut short. -/
theorem Walks.status_ne_running_of_mem_dropLast
    (hwalks : Walks passed size position executions status later) (hpassed : passed ≠ .running)
    {execution : Execution} (hmem : execution ∈ executions.dropLast) :
    execution.status ≠ .running := by
  by_cases hstatus : status = .running
  · subst hstatus
    rw [(hwalks.of_running hpassed).2, List.dropLast_concat] at hmem
    exact status_ne_running_of_mem_settled hmem
  · rw [← (hwalks.of_ended hstatus hpassed).1] at hmem
    exact status_ne_running_of_mem_settled ((List.dropLast_sublist _).mem hmem)

namespace Passes

variable {ticks before : List Tick} {tick final : Tick}

/-- Every tick among those that go on is a walk. -/
theorem exists_walks (hpasses : Passes passed size position ticks last) (hmem : tick ∈ ticks) :
    tick.deeds = tick.executions.flatMap Execution.deeds ∧
      ∃ position later, Walks passed size position tick.executions tick.status later := by
  induction hpasses with
  | nil position => cases hmem
  | cons hdeeds hwalks _ ih =>
    obtain rfl | hmem := List.mem_cons.mp hmem
    · exact ⟨hdeeds, _, _, hwalks⟩
    · exact ih hmem

/-- Suspended ticks and one that is not are one pass. -/
theorem walks (hpasses : Passes passed size position (before ++ [final]) last)
    (hpassed : passed ≠ .running) (hbefore : ∀ tick ∈ before, tick.status = .running)
    (hended : final.status ≠ .running) :
    Walks passed size position (settledIn (before ++ [final])) final.status last := by
  induction before generalizing position with
  | nil =>
    cases hpasses with
    | cons _ hwalks hrest =>
      cases hrest
      rw [settledIn, List.nil_append, List.flatMap_singleton, (hwalks.of_ended hended hpassed).1]
      exact hwalks
  | cons tick before ih =>
    cases hpasses with
    | cons _ hwalks hrest =>
      rw [hbefore tick List.mem_cons_self] at hwalks
      have hwhole := ih hrest fun tick hmem => hbefore tick (List.mem_cons_of_mem _ hmem)
      rw [settledIn, List.cons_append, List.flatMap_cons, settled_append]
      exact hwalks.trans hpassed hwhole

/-- The first tick after a suspension begins with the child at the cursor. -/
theorem head_deeds (hpasses : Passes passed size position (tick :: ticks) last)
    (hchild : position < size) : tick.deeds.head? = some (.begun position) := by
  cases hpasses with
  | cons hdeeds hwalks hrest =>
    rw [hdeeds]
    have hhead := hwalks.head hchild
    cases hexecutions : tick.executions with
    | nil => simp [hexecutions] at hhead
    | cons execution executions =>
      rw [hexecutions] at hhead
      cases hhead
      rfl

/-- Each tick that is suspended is resumed by the next one. -/
theorem isChain_resumes (hpasses : Passes passed size position (before ++ [final]) last)
    (hpassed : passed ≠ .running) (hbefore : ∀ tick ∈ before, tick.status = .running) :
    List.IsChain Resumes (before ++ [final]) := by
  induction before generalizing position with
  | nil => exact List.isChain_singleton final
  | cons tick before ih =>
    cases hpasses with
    | @cons _ _ later _ _ _ hwalks hrest =>
      rw [hbefore tick List.mem_cons_self] at hwalks
      obtain ⟨hchild, hexecutions⟩ := hwalks.of_running hpassed
      have hmore := ih hrest fun tick hmem => hbefore tick (List.mem_cons_of_mem _ hmem)
      refine hmore.cons fun next hnext => ⟨later, ?_, ?_⟩
      · rw [hexecutions, List.getLast?_concat]
      · obtain ⟨rest, hticks⟩ := List.head?_eq_some_iff.mp hnext
        have hresumed : Passes passed size later (next :: rest) last := hticks ▸ hrest
        exact hresumed.head_deeds hchild

end Passes

/-- Ticks of a chain with so many children are one pass: `before` are suspended, and the last one
ends the pass. -/
structure OnePass (passed : Status) (size : Nat) (before : List Tick) (final : Tick) : Prop where
  /-- Every execution of a child ends before the next one begins. -/
  deeds_eq : ∀ tick ∈ before ++ [final], tick.deeds = tick.executions.flatMap Execution.deeds
  /-- Without those that were cut short, the first children are executed in order. -/
  children_eq : (settledIn (before ++ [final])).map (·.child) =
    List.range (settledIn (before ++ [final])).length
  /-- Every settled execution but the last one has the status that lets the chain go on. -/
  passed_over : ∀ execution ∈ (settledIn (before ++ [final])).dropLast, execution.status = passed
  /-- A child that answers running ends the tick. -/
  suspended : ∀ tick ∈ before ++ [final], ∀ execution ∈ tick.executions.dropLast,
    execution.status ≠ .running
  /-- Every tick after the first one begins with the child that was suspended. -/
  resumed : List.IsChain Resumes (before ++ [final])
  /-- In the last tick no child answers running. -/
  not_suspended : ∀ execution ∈ final.executions, execution.status ≠ .running
  /-- The chain is passed through exactly when every child answers with this status. -/
  through_iff : final.status = passed ↔
    settledIn (before ++ [final]) = (List.range size).map (⟨·, passed⟩)
  /-- The first child with the other status ends the pass. -/
  stopped_iff : final.status = passed.inverted ↔
    ∃ child < size, settledIn (before ++ [final]) =
        (List.range child).map (⟨·, passed⟩) ++ [⟨child, passed.inverted⟩] ∧
      final.executions.getLast? = some ⟨child, passed.inverted⟩

/-- Several ticks that go on from the first child, the last of which answers success or failure. -/
theorem Passes.onePass {before : List Tick} {final : Tick}
    (hpasses : Passes passed size 0 (before ++ [final]) last) (hpassed : passed.isTerminal)
    (hbefore : ∀ tick ∈ before, tick.status = .running) (hended : final.status.isTerminal) :
    OnePass passed size before final ∧ last = 0 := by
  have hrunning := Status.ne_running hpassed
  have hanswered := Status.ne_running hended
  have hwhole := hpasses.walks hrunning hbefore hanswered
  have hfinal : ∀ execution ∈ final.executions, execution.status ≠ .running := by
    obtain ⟨-, _, _, hwalks⟩ := hpasses.exists_walks (List.mem_append_right _ List.mem_cons_self)
    rw [← (hwalks.of_ended hanswered hrunning).1]
    exact fun _ => status_ne_running_of_mem_settled
  have hother : passed.inverted ≠ passed := by
    cases passed with
    | running => exact absurd rfl hrunning
    | success | failure => exact nofun
  refine ⟨⟨fun tick hmem => (hpasses.exists_walks hmem).1, hwhole.children_eq hanswered,
    fun execution => hwhole.status_eq_of_mem_dropLast hanswered, ?_,
    hpasses.isChain_resumes hrunning hbefore, hfinal, hwhole.through_iff hanswered, ?_⟩,
    (hwhole.of_ended hanswered hrunning).2⟩
  · intro tick hmem execution
    obtain ⟨-, _, _, hwalks⟩ := hpasses.exists_walks hmem
    exact hwalks.status_ne_running_of_mem_dropLast hrunning
  · rw [hwhole.stopped_iff hanswered hother]
    refine exists_congr fun child => and_congr_right fun hchild =>
      (and_iff_left_of_imp fun hsettled => ?_).symm
    -- the last tick is not empty, so the last of all executions is in it
    have hstatus := (hwhole.stopped_iff hanswered hother).mpr ⟨child, hchild, hsettled⟩
    obtain ⟨-, _, _, hwalks⟩ := hpasses.exists_walks (List.mem_append_right _ List.mem_cons_self)
    obtain ⟨hthrough, -⟩ | ⟨-, count, -, hexecutions⟩ := hwalks.eq_map_range' hanswered
    · exact absurd (hstatus.symm.trans hthrough) hother
    · have hlast := congrArg List.getLast? hsettled
      rw [settledIn, List.flatMap_append, List.flatMap_singleton, settled_append,
        (hwalks.of_ended hanswered hrunning).1, List.getLast?_append, List.getLast?_concat] at hlast
      rw [hexecutions, List.getLast?_concat] at hlast ⊢
      exact hlast

end Chain

/-! ## Histories of a chain -/

section History

variable {chain : ChainKind} {name : String} {children : List (Tree κ)}
  {stage : Stage (⟨name, chain.kind, children⟩ : Tree κ)} {cursor : Nat}

/-- The kind of a chain runs its children one at a time. -/
theorem ChainKind.isPlain (chain : ChainKind) (size : Nat) :
    Machine.IsPlain (chain.kind : Kind κ).respond size := by
  cases chain with
  | sequence => exact Chain.isPlain_respond .success size
  | selector => exact Chain.isPlain_respond .failure size

/-- The exchanges in a tick of a chain are a walk from its cursor. -/
theorem ChainKind.walks_of_talks {size : Nat} {exchanges : List Exchange}
    {last : (chain.kind : Kind κ).State} {status : Status}
    (htalks : Machine.Talks (chain.kind : Kind κ).respond size (chain.state cursor) .started
      exchanges last (.finish status)) :
    ∃ later executions, last = chain.state later ∧
      exchanges.flatMap Exchange.deeds = executions.flatMap Execution.deeds ∧
      Chain.Walks chain.passed size cursor executions status later := by
  cases chain with
  | sequence =>
    have hsuccess : Status.success ≠ .running := nofun
    obtain ⟨executions, hdeeds, hwalks⟩ :=
      Chain.walks_of_talks hsuccess htalks rfl .started
    exact ⟨last, executions, rfl, hdeeds, hwalks⟩
  | selector =>
    have hfailure : Status.failure ≠ .running := nofun
    obtain ⟨executions, hdeeds, hwalks⟩ :=
      Chain.walks_of_talks hfailure htalks rfl .started
    exact ⟨last, executions, rfl, hdeeds, hwalks⟩

/-- What happens between ticks leaves the cursor alone, unless it is a reset. -/
theorem ChainKind.state_act {act : Act (⟨name, chain.kind, children⟩ : Tree κ)}
    (hturn : act.isTurn = false) (hreset : ∀ now, act ≠ .reset now) :
    (stage.act act).memory.state = stage.memory.state := by
  cases act with
  | turn world => cases hturn
  | abort now =>
    rw [Stage.state_act_abort]
    cases chain <;> rfl
  | reset now => exact absurd rfl (hreset now)
  | notify call => exact Stage.state_act_of_isQuiet rfl
  | around binding below => exact Stage.state_act_of_isQuiet rfl

/-- The ticks in a history without resets go on from the cursor. -/
theorem Stage.Lives.passes {episodes : List (Episode ⟨name, chain.kind, children⟩)}
    (hlives : stage.Lives episodes) (hidle : stage.run = none)
    (hcursor : stage.memory.state = chain.state cursor)
    (hresets : ∀ now, .between (.reset now) ∉ episodes) :
    ∃ later, Chain.Passes chain.passed children.length cursor (stage.ticks episodes) later ∧
      (stage.afterAll episodes).run = none ∧
      (stage.afterAll episodes).memory.state = chain.state later := by
  induction hlives generalizing cursor with
  | nil stage => exact ⟨cursor, .nil cursor, hidle, hcursor⟩
  | @tick stage acts status episodes hanswers _ ih =>
    obtain ⟨exchanges, htalks, -, hdeeds⟩ := hanswers.talks (chain.isPlain _) hidle
    rw [hcursor] at htalks
    obtain ⟨later, executions, hlater, hexecutions, hwalks⟩ := ChainKind.walks_of_talks htalks
    rw [hexecutions] at hdeeds
    obtain rfl := Tick.executions_eq hdeeds
    obtain ⟨last, hpasses, hend⟩ := ih hanswers.run_eq_none hlater fun now hmem =>
      hresets now (List.mem_cons_of_mem _ hmem)
    exact ⟨last, .cons hdeeds hwalks hpasses, hend⟩
  | @between stage act episodes hturn _ ih =>
    have hreset : ∀ now, act ≠ .reset now := by
      rintro now rfl
      exact hresets now List.mem_cons_self
    exact ih (Stage.run_act_eq_none hidle hturn)
      ((ChainKind.state_act hturn hreset).trans hcursor) fun now hmem =>
        hresets now (List.mem_cons_of_mem _ hmem)

/-- A chain skips and repeats nothing. It has any children, begins at the first one and is executed
tick after tick, with aborts and other things in between but no reset, until it answers success or
failure. Then its ticks are one pass over the children, and the next one begins at the first child
again. -/
theorem ChainKind.isOnePass (chain : ChainKind) (name : String) (children : List (Tree κ))
    (stage : Stage (⟨name, chain.kind, children⟩ : Tree κ)) (hidle : stage.run = none)
    (hcursor : stage.memory.state = chain.state 0)
    (episodes : List (Episode ⟨name, chain.kind, children⟩)) (hlives : stage.Lives episodes)
    (hresets : ∀ now, .between (.reset now) ∉ episodes) {before : List Tick} {final : Tick}
    (hticks : stage.ticks episodes = before ++ [final])
    (hbefore : ∀ tick ∈ before, tick.status = .running) (hended : final.status.isTerminal) :
    Chain.OnePass chain.passed children.length before final ∧
      (stage.afterAll episodes).memory.state = chain.state 0 ∧
      (stage.afterAll episodes).run = none := by
  obtain ⟨later, hpasses, hend, hstate⟩ := hlives.passes hidle hcursor hresets
  rw [hticks] at hpasses
  have hpassed : chain.passed.isTerminal := by cases chain <;> rfl
  obtain ⟨honePass, rfl⟩ := hpasses.onePass hpassed hbefore hended
  exact ⟨honePass, hstate, hend⟩

end History

/-- A sequence of a child that sleeps between two attempts and one that asks for more ticks. -/
abbrev slowSequence : Tree Empty :=
  ⟨"Sequence", .sequence,
    [⟨"Succeeder", .succeeder, [⟨"Retry", .retry ⟨2, 10, false⟩, [⟨"Never", .forceFailure, []⟩]⟩]⟩,
      ⟨"Wait", .wait 20, []⟩]⟩

/-- Three ticks of which the first has two turns, with an abort that makes the wait start over. -/
def slowTicks : List (Episode slowSequence) :=
  [.tick [.turn {}, .turn { now := 10 }] .running, .between (.abort 20),
    .tick [.turn { now := 30 }] .running, .tick [.turn { now := 50 }] .success]

/-- The second child is executed in all three ticks, the first one only in the first tick. -/
theorem ChainKind.isOnePass_slowTicks :
    let stage := Stage.fresh slowSequence (.own {})
    ∃ before final, stage.ticks slowTicks = before ++ [final] ∧
      before.map Tick.executions = [[⟨0, .success⟩, ⟨1, .running⟩], [⟨1, .running⟩]] ∧
      final.executions = [⟨1, .success⟩] ∧
      Chain.OnePass .success 2 before final ∧ (stage.afterAll slowTicks).memory.state = (0 : Nat) ∧
      (stage.afterAll slowTicks).run = none := by
  intro stage
  let second := (stage.after [.turn {}, .turn { now := 10 }]).act (.abort 20)
  let third := second.after [.turn { now := 30 }]
  have hlives : stage.Lives slowTicks :=
    .tick (.wait {} rfl (.last { now := 10 } rfl)) <| .between rfl <|
      .tick (.last { now := 30 } rfl) <| .tick (.last { now := 50 } rfl) <| .nil _
  have hresets : ∀ now, .between (.reset now) ∉ slowTicks := by
    intro now hmem
    simp [slowTicks] at hmem
  have hticks : stage.ticks slowTicks =
      [stage.tick [.turn {}, .turn { now := 10 }] .running,
          second.tick [.turn { now := 30 }] .running] ++
        [third.tick [.turn { now := 50 }] .success] := rfl
  refine ⟨_, _, hticks, ?_, ?_, ?_⟩
  · decide +kernel
  · decide +kernel
  · exact ChainKind.isOnePass .sequence "Sequence" _ stage rfl rfl slowTicks hlives hresets hticks
      (by simp [Stage.tick]) rfl

end BehaviorTree
