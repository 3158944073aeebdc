import BehaviorTree.Proofs.Schedule.Simulation
import BehaviorTree.Proofs.Tree.Nesting
import BehaviorTree.Rehearsal.Cast

/-!
# Nested chains flatten

A sequence that has a sequence among its children responds as one sequence of all members does, and
so it is with selectors (`System.nested_flattens`). After every operation the cursor of the flat
chain is where the cursors of the outer and the inner chain together point. An execution that fails
gives no status and leaves cursors behind that may point at different members.
-/

namespace BehaviorTree

variable {κ : Type} [Application κ]

/-! ## Suspended executions -/

section

variable {before inside after cursor : Nat} {run other : Run}

/-- The same member is held up after a call. -/
theorem HeldRuns.notify (hruns : HeldRuns before inside after cursor run other) (call : Call) :
    HeldRuns before inside after cursor (run.notify call) (other.notify call) := by
  cases hruns with
  | before hposition run =>
    simp only [Run.notify]
    exact .before hposition _
  | inside hposition cursor run =>
    simp only [Run.notify]
    exact .inside hposition _ _
  | after hposition run =>
    simp only [Run.notify]
    exact .after hposition _

/-- Both chains await the same calls while the same member is held up. -/
theorem HeldRuns.awaits_eq (hruns : HeldRuns before inside after cursor run other) (call : Call) :
    run.awaits call = other.awaits call := by
  cases hruns <;> simp only [Run.awaits]

/-- Both chains wait for the same timers while the same member is held up. -/
theorem HeldRuns.timers_eq (hruns : HeldRuns before inside after cursor run other) :
    run.timers = other.timers := by
  cases hruns <;> simp only [Run.timers]

/-- Both chains stand at the same member after a call. -/
theorem Stances.notify {run otherRun : Option Run} {position other cursor : Nat}
    (hstances : Stances before inside after run otherRun position other cursor) (call : Call) :
    Stances before inside after (run.map (·.notify call)) (otherRun.map (·.notify call)) position
      other cursor := by
  cases hstances with
  | idle hcursors => exact .idle hcursors
  | held hruns position other => exact .held (hruns.notify call) position other

end

section

variable (chain : ChainKind) (xs ys zs : List (Tree κ)) (name outer inner : String)

/-! ## The simulation -/

/-- The nested chain simulates the flat one. -/
def nestedSimulation (binding : Binding) :
    Simulation (flatChain chain xs ys zs name) (nestedChain chain xs ys zs outer inner) where
  toLikeness := flatLikeness chain binding xs ys zs name outer inner
  runs := FlatRuns xs.length ys.length zs.length
  stands := Stands chain binding xs ys zs name outer inner
  front := fun hstands world => (relates_flat hstands world).relates
  front_stands := fun hstands world => (relates_flat hstands world).stands
  task := by
    rintro memory otherMemory path otherPath ⟨position, other, cursor, hmemories⟩ hpaths run world
    exact relates_of_placed (relates_placed hpaths run hmemories world)
  task_stands := by
    rintro memory otherMemory run otherRun path otherPath
      ⟨position, other, cursor, hstances, hmemories⟩ hpaths taskRun world
    exact ⟨position, other, cursor, hstances,
      (relates_placed hpaths taskRun hmemories world).memory⟩
  notify := fun hruns call => hruns.imp fun _ hruns => hruns.notify call
  notify_stands := by
    rintro memory otherMemory run otherRun ⟨position, other, cursor, hstances, hmemories⟩ call
    exact ⟨position, other, cursor, hstances.notify call, hmemories⟩
  awaits_eq := by
    rintro run otherRun ⟨cursor, hruns⟩ call
    exact hruns.awaits_eq call
  timers_eq := by
    rintro run otherRun ⟨cursor, hruns⟩
    exact hruns.timers_eq
  abort := by
    rintro memory otherMemory ⟨position, other, cursor, hmemories⟩ now
    have hcontrols := controls_placed (passesOn_abort now) hmemories
    exact ⟨⟨position, other, cursor, hcontrols.memory⟩, hcontrols.journal⟩
  abort_stands := by
    rintro memory otherMemory ⟨position, other, cursor, hstances, hmemories⟩ now
    exact ⟨position, other, cursor, hstances,
      (controls_placed (passesOn_abort now) hmemories).memory⟩
  reset := by
    rintro memory otherMemory ⟨position, other, cursor, hmemories⟩ now
    have hcontrols := controls_placed (passesOn_reset now) hmemories
    exact ⟨⟨0, 0, 0, hcontrols.memory⟩, hcontrols.journal⟩
  reset_stands := by
    rintro memory otherMemory ⟨position, other, cursor, _, hmemories⟩ now
    exact ⟨0, 0, 0, .idle .start, (controls_placed (passesOn_reset now) hmemories).memory⟩
  binding_eq := by
    rintro memory otherMemory ⟨position, other, cursor, below, otherBelow, _, rfl, rfl⟩
    rfl

variable {chain xs ys zs name outer inner}

/-- Two systems in which nothing is under way, with trees that stand at the same member. -/
theorem alike_of_stands {binding : Binding}
    {system : System (flatChain chain xs ys zs name)}
    {copy : System (nestedChain chain xs ys zs outer inner)}
    (hstands : Stands chain binding xs ys zs name outer inner none none system.memory copy.memory)
    (hfront : system.front = none ∧ copy.front = none)
    (htasks : system.tasks = [] ∧ copy.tasks = []) (hworld : system.world = copy.world)
    (hcalled : system.called = copy.called) (hready : system.ready = copy.ready) :
    (nestedSimulation chain xs ys zs name outer inner binding).Alike True system copy := by
  have hmemories := hstands
  obtain ⟨position, other, cursor, _, hplaced⟩ := hmemories
  refine ⟨⟨position, other, cursor, hplaced⟩, hworld, ?_, hcalled, ?_, hready, fun _ => ?_⟩
  · rw [hfront.1, hfront.2]
    exact .none
  · rw [htasks.1, htasks.2]
    exact .nil
  · rw [hfront.1, hfront.2]
    exact hstands

variable (chain xs ys zs name outer inner)

/-- Both chains begin in systems that are alike. -/
theorem alike_nested (start : Start) :
    (nestedSimulation chain xs ys zs name outer inner start.binding).Alike True
      (start.system (flatChain chain xs ys zs name))
      (start.system (nestedChain chain xs ys zs outer inner)) := by
  cases start with
  | bound context =>
    exact alike_of_stands (stands_fresh (.shared 0)) ⟨rfl, rfl⟩ ⟨rfl, rfl⟩ rfl rfl rfl
  | unbound context =>
    exact alike_of_stands (stands_fresh (.own {})) ⟨rfl, rfl⟩ ⟨rfl, rfl⟩ rfl rfl rfl
  | begun context =>
    exact alike_of_stands (stands_bind 0 0 (stands_fresh (.own {}))) ⟨rfl, rfl⟩ ⟨rfl, rfl⟩
      rfl rfl rfl

/-! ## What is seen of both trees -/

/-- Where the cursors of the outer and the inner chain together point. -/
def pointedAt (before inside outerCursor innerCursor : Nat) : Nat :=
  if outerCursor < before then outerCursor
  else if outerCursor = before then before + innerCursor
  else outerCursor - 1 + inside

/-- The cursor of the flat chain is where the cursors of the other two point. -/
theorem Cursors.eq_pointedAt {before inside after position other cursor : Nat}
    (hcursors : Cursors before inside after position other cursor) :
    position = pointedAt before inside other cursor := by
  unfold pointedAt
  cases hcursors with
  | before hposition => rw [if_pos hposition]
  | inside hposition => rw [if_neg (Nat.lt_irrefl _), if_pos rfl]
  | after hposition =>
    rw [if_neg (by omega), if_neg (by omega)]
    omega

/-- What is seen of an operation on the flat and on the nested chain. -/
structure SameForMembers (step : Response × System (flatChain chain xs ys zs name))
    (copy : Response × System (nestedChain chain xs ys zs outer inner)) : Prop where
  /-- The answers are the same. -/
  result_eq : step.1.result = copy.1.result
  /-- The contexts are the same. -/
  context_eq : step.1.context = copy.1.context
  /-- The same happens at the members and below them. -/
  members_eq : step.1.journal.filterMap Entry.below? =
    copy.1.journal.filterMap (Entry.flattened? xs.length ys.length)
  /-- The cursors of the nested chains point at the member that the flat cursor points at. -/
  cursors : step.1.IsSound → ∃ outerCursor innerCursor,
    copy.2.memory.gaugeAt [] = some (.cursor outerCursor) ∧
      copy.2.memory.gaugeAt [xs.length] = some (.cursor innerCursor) ∧
      step.2.memory.gaugeAt [] =
        some (.cursor (pointedAt xs.length ys.length outerCursor innerCursor))

variable {chain xs ys zs name outer inner}

/-- The cursors show in the memories. -/
theorem gauges_of_placed {binding : Binding} {position other cursor : Nat}
    {flat : Memory (flatChain chain xs ys zs name)}
    {nested : Memory (nestedChain chain xs ys zs outer inner)}
    (hmemories : (placedLikeness chain binding xs ys zs name outer inner position other
      cursor).memories flat nested) :
    flat.gaugeAt [] = some (.cursor position) ∧ nested.gaugeAt [] = some (.cursor other) ∧
      nested.gaugeAt [xs.length] = some (.cursor cursor) := by
  obtain ⟨_, _, ⟨first, middle, last, rfl, rfl⟩, rfl, rfl⟩ := hmemories
  have hgauge : ∀ cursor, (chain.kind : Kind κ).gauge? (chain.state cursor) =
      some (.cursor cursor) := by
    intro cursor
    cases chain <;> rfl
  refine ⟨hgauge position, hgauge other, ?_⟩
  have hinner := gaugeAt_append_right 0 [] first
    (.cons (innerMemory binding cursor middle) last : Memories (innerChain chain ys inner :: zs))
  exact hinner.trans (hgauge cursor)

/-- What both systems show is the same for the members. -/
theorem SameForMembers.of_sees {binding : Binding}
    {step : Response × System (flatChain chain xs ys zs name)}
    {copy : Response × System (nestedChain chain xs ys zs outer inner)}
    (hsees : (nestedSimulation chain xs ys zs name outer inner binding).Sees step.1.IsSound step
      copy) :
    SameForMembers chain xs ys zs name outer inner step copy where
  result_eq := hsees.response.result_eq
  context_eq := hsees.response.context_eq
  members_eq := hsees.response.journal
  cursors := by
    intro hsound
    have hstands := hsees.alike.stands hsound
    rw [hsees.idle, hsees.alike.front_eq_none hsees.idle] at hstands
    obtain ⟨position, other, cursor, hstances, hmemories⟩ := hstands
    obtain ⟨hflat, houter, hinner⟩ := gauges_of_placed hmemories
    cases hstances with
    | idle hcursors => exact ⟨other, cursor, houter, hinner, hcursors.eq_pointedAt ▸ hflat⟩

end

/-- A chain that has a chain of its kind among its children does what the flat chain of all members
does. Whatever is done with both trees, up to the first execution that fails, they respond in the
same way, the same happens to the members in the same order, and the cursor of the flat chain is
where the cursors of the outer and the inner chain together point. This is so within any bound on
the rounds, and within those of the two trees if these are not reached. -/
theorem System.nested_flattens (chain : ChainKind) (xs ys zs : List (Tree κ))
    (name outer inner : String) (start : Start) (operations : List Operation) :
    let flat := start.system (flatChain chain xs ys zs name)
    let nested := start.system (nestedChain chain xs ys zs outer inner)
    (∀ patience, UntilFault (SameForMembers chain xs ys zs name outer inner)
        (flat.historyWithin patience operations) (nested.historyWithin patience operations)) ∧
      (flat.IsPatient operations → nested.IsPatient operations →
        UntilFault (SameForMembers chain xs ys zs name outer inner) (flat.history operations)
          (nested.history operations)) := by
  intro flat nested
  have halike := alike_nested chain xs ys zs name outer inner start
  have hidle := start.front_eq_none (flatChain chain xs ys zs name)
  have hwithin : ∀ patience, UntilFault (SameForMembers chain xs ys zs name outer inner)
      (flat.historyWithin patience operations) (nested.historyWithin patience operations) :=
    fun patience => (halike.untilFault hidle patience operations).imp fun _ _ => .of_sees
  refine ⟨hwithin, fun hpatient hotherPatient => ?_⟩
  let patience : Patience := fun count =>
    max (ownPatience (flatChain chain xs ys zs name) count)
      (ownPatience (nestedChain chain xs ys zs outer inner) count)
  have hsame := hwithin patience
  rwa [hpatient patience fun _ => Nat.le_max_left _ _,
    hotherPatient patience fun _ => Nat.le_max_right _ _] at hsame

/-- A leaf that follows a script. -/
def scriptedMember (name script : String) : Tree Performer :=
  ⟨name, .custom (.scripted script ""), []⟩

/-- The inner sequence is suspended at each of its members in turn and aborted, comes to its end, is
suspended again and reset. -/
theorem System.nested_flattens_scriptedMembers :
    let xs := [scriptedMember "A" "S"]
    let ys := [scriptedMember "B" "R,S", scriptedMember "C" "R@10,S,R,S"]
    let zs := [scriptedMember "D" "R@20,F"]
    let flat := (Start.begun {}).system (flatChain .sequence xs ys zs "Flat")
    let nested := (Start.begun {}).system (nestedChain .sequence xs ys zs "Outer" "Inner")
    let operations := [.execute, .abort, .execute, .execute, .execute, .execute, .reset, .execute]
    (flat.IsPatient operations ∧ nested.IsPatient operations) ∧
      (flat.history operations).map (fun step => step.1.result.bind Except.toOption) =
        [some .running, none, some .running, some .running, some .failure, some .running, none,
          some .failure] ∧
      UntilFault (SameForMembers .sequence xs ys zs "Flat" "Outer" "Inner")
        (flat.history operations) (nested.history operations) := by
  intro xs ys zs flat nested operations
  have htimeless : ∀ duration, Operation.pass duration ∉ operations := by
    intro duration hmem
    simp [operations] at hmem
  have hended : ∀ step ∈ flat.history operations, step.1.isEndless = false := by
    decide +kernel
  have hnestedEnded : ∀ step ∈ nested.history operations, step.1.isEndless = false := by
    decide +kernel
  have hpatient : flat.IsPatient operations := isPatient_of_ended htimeless hended
  have hnestedPatient : nested.IsPatient operations := isPatient_of_ended htimeless hnestedEnded
  refine ⟨⟨hpatient, hnestedPatient⟩, by decide +kernel, ?_⟩
  exact (nested_flattens .sequence xs ys zs "Flat" "Outer" "Inner" (.begun {}) operations).2
    hpatient hnestedPatient

end BehaviorTree
