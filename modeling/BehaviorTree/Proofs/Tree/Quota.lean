import BehaviorTree.Proofs.Tree.Resumption
import BehaviorTree.Proofs.Tree.NodeTurnCost
import Mathlib.Tactic.Ring

/-!
# What a tree may cost

A tree has a quota, the number of leaf executions that one execution of it may take, and a price, in
which the steps count as well that get an execution on. Without the steps the price is the quota
(`Tree.price_zero`), and with them it stays within the span (`Tree.price_one_le`). Every turn of a
tree of limited nodes is paid for out of its price (`Tree.settles`).
-/

namespace BehaviorTree

variable {κ : Type} [Application κ] {step : Nat}

/-! ## Quotas and prices -/

omit [Application κ] in
/-- How many leaf executions an execution of a node may take, if its children take so many. -/
def Kind.quota (total : Nat) : Kind κ → Nat
  | .sequence | .selector | .parallel _ | .timeout _ | .repeating _ | .inverter | .succeeder =>
    total
  | .retry settings => settings.maxRetries.toNat * total
  | .retryUntilSuccess settings => settings.attempts.toNat * total
  | .wait _ | .setValue _ | .alwaysSuccess | .forceFailure | .custom _ => 1

mutual

/-- How many leaf executions an execution of a tree may take. -/
def Tree.quota : Tree κ → Nat
  | ⟨_, kind, children⟩ => kind.quota (Tree.quotas children)

/-- How many leaf executions one execution of each of several trees may take. -/
def Tree.quotas : List (Tree κ) → Nat
  | [] => 0
  | tree :: trees => tree.quota + Tree.quotas trees

end

/-- The executions of leaves among the costs. -/
def Kind.visit (kind : Kind κ) : Nat := if kind.isLeaf then 1 else 0

mutual

/-- What an execution of a tree may cost: a step to begin it, a visit if it is a leaf, and what the
requests of the node cost. -/
def Tree.price (step : Nat) : Tree κ → Nat
  | ⟨_, kind, children⟩ => step + kind.visit + kind.outlay step (Tree.prices step children)

/-- What one execution of each of several trees may cost. -/
def Tree.prices (step : Nat) : List (Tree κ) → Nat
  | [] => 0
  | tree :: trees => tree.price step + Tree.prices step trees

end

omit [Application κ] in
/-- Without the steps, a node costs its quota. -/
theorem Kind.visit_add_outlay_zero (kind : Kind κ) (total : Nat) :
    kind.visit + kind.outlay 0 total = kind.quota total := by
  cases kind <;> simp [visit, isLeaf, outlay, quota]

omit [Application κ] in
mutual

/-- Without the steps only the executions of leaves cost anything. -/
theorem Tree.price_zero : (tree : Tree κ) → tree.price 0 = tree.quota
  | ⟨_, kind, children⟩ => by
    rw [Tree.price, Tree.quota, Tree.prices_zero children, Nat.zero_add,
      kind.visit_add_outlay_zero]

/-- Without the steps, several trees cost their quotas. -/
theorem Tree.prices_zero : (trees : List (Tree κ)) → Tree.prices 0 trees = Tree.quotas trees
  | [] => rfl
  | tree :: trees => by rw [Tree.prices, Tree.quotas, tree.price_zero, Tree.prices_zero trees]

end

/-! ## The span -/

/-- The attempts of a node and the sleeps between them cost less than three times its allowance. -/
theorem attempts_le (attempts : Nat) {total span : Nat} (htotal : total ≤ 3 * span) :
    1 + attempts * (total + 2) ≤ 3 * ((2 * attempts + 2) * (span + 1)) :=
  calc 1 + attempts * (total + 2)
      ≤ 1 + attempts * (3 * span + 2) :=
        Nat.add_le_add_left (Nat.mul_le_mul_left attempts (Nat.add_le_add_right htotal 2)) 1
    _ = 3 * (attempts * span) + 2 * attempts + 1 := by ring
    _ ≤ 6 * (attempts * span) + 6 * attempts + 6 * span + 6 := by omega
    _ = 3 * ((2 * attempts + 2) * (span + 1)) := by ring

/-- With the steps, a limited node costs no more than three times its allowance for each unit of
span. -/
theorem Kind.price_one_le {kind : Kind κ} {size total span : Nat} (hlimited : kind.IsLimited size)
    (htotal : total ≤ 3 * span) :
    1 + kind.visit + kind.outlay 1 total ≤ 3 * (kind.allowance size * (span + 1)) := by
  -- a node that may make two moves affords each of its children twice
  have htwice : ∀ moves, 2 ≤ moves → 2 + 2 * total ≤ 3 * (moves * (span + 1)) := by
    intro moves hmoves
    have hle : 2 * (span + 1) ≤ moves * (span + 1) := Nat.mul_le_mul_right _ hmoves
    omega
  cases kind with
  | sequence | selector =>
    have hle := htwice (size + 2) (Nat.le_add_left 2 size)
    change 1 + 0 + total ≤ 3 * ((size + 2) * (span + 1))
    omega
  | parallel settings =>
    have hle := htwice 4 (by decide)
    change 1 + 0 + 2 * total ≤ 3 * (4 * (span + 1))
    omega
  | timeout limit => exact hlimited.elim
  | repeating _ | inverter | succeeder =>
    have hle := htwice 4 (by decide)
    change 1 + 0 + total ≤ 3 * (4 * (span + 1))
    omega
  | retry settings => exact attempts_le settings.maxRetries.toNat htotal
  | retryUntilSuccess settings =>
    have hallowance : (Kind.retryUntilSuccess settings : Kind κ).allowance size =
        2 * settings.attempts.toNat + 3 := if_neg (Int.not_lt.mpr hlimited)
    rw [hallowance]
    exact Nat.le_trans (attempts_le settings.attempts.toNat htotal)
      (Nat.mul_le_mul_left 3 (Nat.mul_le_mul_right _ (Nat.le_succ _)))
  | wait _ | setValue _ | alwaysSuccess | forceFailure =>
    change 1 + 1 + 0 ≤ 3 * (4 * (span + 1))
    omega
  | custom node =>
    have hpatience : 2 ≤ Kind.patience := by decide
    have hle : Kind.patience * 1 ≤ Kind.patience * (span + 1) :=
      Nat.mul_le_mul_left _ (Nat.le_add_left 1 span)
    change 1 + 1 + Kind.patience * (2 * 1) ≤ 3 * (Kind.patience * (span + 1))
    omega

mutual

/-- Every node of the tree has a limited number of attempts, or is a leaf whose execution
returns. -/
def Tree.IsLimited : Tree κ → Prop
  | ⟨_, kind, children⟩ => kind.IsLimited children.length ∧ Tree.AreLimited children

/-- Every node of the trees is limited. -/
def Tree.AreLimited : List (Tree κ) → Prop
  | [] => True
  | tree :: trees => tree.IsLimited ∧ Tree.AreLimited trees

end

/-- Several trees are limited if each of them is. -/
theorem Tree.areLimited_iff {trees : List (Tree κ)} :
    Tree.AreLimited trees ↔ ∀ tree ∈ trees, tree.IsLimited := by
  induction trees with
  | nil => simp [AreLimited]
  | cons tree trees ih => simp [AreLimited, ih]

mutual

/-- The price of a tree, with the steps, is within its span. -/
theorem Tree.price_one_le : (tree : Tree κ) → tree.IsLimited → tree.price 1 ≤ 3 * tree.span
  | ⟨_, kind, children⟩, hlimited => by
    rw [Tree.price, Tree.span]
    exact kind.price_one_le hlimited.1 (Tree.prices_one_le children hlimited.2)

/-- With the steps, several trees cost no more than three times their span. -/
theorem Tree.prices_one_le : (trees : List (Tree κ)) → Tree.AreLimited trees →
    Tree.prices 1 trees ≤ 3 * Tree.spans trees
  | [], _ => Nat.le_refl 0
  | tree :: trees, hlimited => by
    have hfirst := tree.price_one_le hlimited.1
    have hrest := Tree.prices_one_le trees hlimited.2
    rw [Tree.prices, Tree.spans, Nat.mul_add]
    exact Nat.add_le_add hfirst hrest

end

/-! ## Debts -/

/-- What it costs to run the children of the root. -/
def Tree.ledger (hstep : step ≤ 1) (tree : Tree κ) : Ledger where
  size := tree.children.length
  step := step
  step_le := hstep
  price := fun index => (tree.children[index]?.map (Tree.price step)).getD 0
  counted := tree.isLeafAt

omit [Application κ] in
/-- The prices of the children add up to what all of them may cost. -/
theorem sumFrom_price {price : Nat → Nat} (trees : List (Tree κ)) (start : Nat)
    (hprice : ∀ offset, offset < trees.length →
      price (start + offset) = (trees[offset]?.map (Tree.price step)).getD 0) :
    sumFrom price start trees.length = Tree.prices step trees := by
  induction trees generalizing start with
  | nil => rfl
  | cons tree trees ih =>
    have hfirst := hprice 0 (Nat.zero_lt_succ _)
    have hrest := ih (start + 1) fun offset hlt => by
      rw [Nat.add_assoc, Nat.add_comm 1, hprice (offset + 1) (Nat.succ_lt_succ hlt)]
      rfl
    rw [List.length_cons, sumFrom, Tree.prices, hrest]
    exact congrArg (· + _) hfirst

mutual

/-- A debt covers what a suspended execution of a tree may still cost. -/
def Memory.Owes (hstep : step ≤ 1) : {tree : Tree κ} → Memory tree → Run → Nat → Prop
  | ⟨name, kind, children⟩, .node cell below =>
    (Tree.ledger hstep ⟨name, kind, children⟩).NodeOwes kind cell.state (Memories.Owes hstep below)

/-- The same of the child with an index. -/
def Memories.Owes (hstep : step ≤ 1) :
    {trees : List (Tree κ)} → Memories trees → Nat → Run → Nat → Prop
  | [], .nil, _ => fun _ _ => False
  | _ :: _, .cons first _, 0 => first.Owes hstep
  | _ :: _, .cons _ rest, index + 1 => rest.Owes hstep index

end

/-- Every look at the tree is paid for. -/
def Tree.Settles (hstep : step ≤ 1) (tree : Tree κ) : Prop :=
  ∀ {slot : Slot Run} {memory : Memory tree} {world : World} {total : Nat},
    slot.isAnswered = false → world.IsFair → world.Distinct (holdsOf slot.run?) →
    slot.Owes (tree.price step) (Charged step (memory.Owes hstep) world) total →
    ∃ later left, BehaviorTree.Settles step tree.isLeafAt
      ((advance tree slot.run? memory world).memory.Owes hstep) world.present world slot total
      (advance tree slot.run? memory world) later left

section

variable {hstep : step ≤ 1} {trees : List (Tree κ)}

/-- A look at one of several trees is paid for. -/
theorem settles_advanceChild (htrees : ∀ tree ∈ trees, tree.Settles hstep) {index : Nat}
    {slot : Slot Run} {below : Memories trees} {world : World} {total : Nat}
    (hindex : index < trees.length) (hanswered : slot.isAnswered = false) (hfair : world.IsFair)
    (hdistinct : world.Distinct (holdsOf slot.run?))
    (howes : slot.Owes ((trees[index]?.map (Tree.price step)).getD 0)
      (Charged step (below.Owes hstep index) world) total) :
    ∃ later left, Settles step (Tree.isLeafIn trees index)
      ((advanceChild trees index slot.run? below world).memory.Owes hstep index) world.present world
      slot total (advanceChild trees index slot.run? below world) later left := by
  induction trees generalizing index with
  | nil => exact absurd hindex (Nat.not_lt_zero index)
  | cons tree trees ih =>
    cases below with
    | cons first rest =>
      cases index with
      | zero =>
        obtain ⟨later, left, hsettles⟩ := htrees tree (by simp) hanswered hfair hdistinct howes
        exact ⟨later, left, hsettles.slot_eq, hsettles.spawned_eq, hsettles.owed,
          hsettles.attended, hsettles.pays⟩
      | succ index =>
        obtain ⟨later, left, hsettles⟩ := ih (fun tree hmem => htrees tree (by simp [hmem]))
          (Nat.lt_of_succ_lt_succ hindex) howes
        exact ⟨later, left, hsettles.slot_eq, hsettles.spawned_eq, hsettles.owed,
          hsettles.attended, hsettles.pays⟩

/-- A look at one tree changes nothing about the debts of the others. -/
theorem owes_advanceChild {index other : Nat} (run : Option Run) (below : Memories trees)
    (world : World) {held : Run} {debt : Nat} (hne : other ≠ index)
    (howes : below.Owes hstep other held debt) :
    (advanceChild trees index run below world).memory.Owes hstep other held debt := by
  induction trees generalizing index other with
  | nil =>
    cases below
    exact howes.elim
  | cons tree trees ih =>
    cases below with
    | cons first rest =>
      cases index with
      | zero =>
        cases other with
        | zero => exact absurd rfl hne
        | succ other => exact howes
      | succ index =>
        cases other with
        | zero => exact howes
        | succ other => exact ih rest (fun heq => hne (congrArg _ heq)) howes

end

/-- Visits are milestones. -/
theorem Journal.visits_eq (counted : Path → Bool) (journal : Journal) :
    visits counted journal =
      (milestones journal).countP fun milestone =>
        milestone.answer.isNone && counted milestone.path := by
  induction journal with
  | nil => rfl
  | cons entry journal ih =>
    have hentry : (if entry.isVisit counted then 1 else 0) =
        entry.milestone?.toList.countP fun milestone =>
          milestone.answer.isNone && counted milestone.path := by
      obtain ⟨time, path, happening⟩ := entry
      cases happening with
      | notice notice => rfl
      | event event =>
        cases event with
        | entered name => exact List.countP_singleton.symm
        | _ => rfl
    rw [milestones_cons, List.countP_append, ← hentry, ← ih, visits, List.countP_cons, visits,
      Nat.add_comm]

/-- A journal without milestones counts no visits. -/
theorem Journal.visits_of_milestones {journal : Journal} (hquiet : milestones journal = [])
    (counted : Path → Bool) : visits counted journal = 0 := by
  rw [visits_eq, hquiet]
  rfl

/-- The crew of a node settles its debts if every child does. -/
theorem isSettled_crewOf {hstep : step ≤ 1} (name : String) (kind : Kind κ)
    {children : List (Tree κ)} (htrees : ∀ tree ∈ children, tree.Settles hstep) :
    (crewOf children).IsSettled (Tree.ledger hstep ⟨name, kind, children⟩)
      (Memories.Owes hstep) where
  advance := settles_advanceChild htrees
  apart := owes_advanceChild
  conserves := conserves_crewOf children
  elapses := Course.elapsing.leads_crewOf children
  sideBySide := advanceAll_eq children
  visits_abort := fun counted now index below =>
    Journal.visits_of_milestones (milestones_abortChild now children index below) counted
  visits_reset := fun counted now index below =>
    Journal.visits_of_milestones (milestones_resetChild now children index below) counted

/-! ## Turns -/

section

variable {hstep : step ≤ 1} {name : String} {kind : Kind κ} {children : List (Tree κ)}

/-- The execution of a leaf is visited when it begins, and all other visits are made by the turn
itself. -/
theorem visits_advance (run : Option Run) (cell : Cell kind.State) (below : Memories children)
    (world : World) :
    (advance ⟨name, kind, children⟩ run (.node cell below) world).journal.visits
        (Tree.isLeafAt ⟨name, kind, children⟩) =
      (if run = none then kind.visit else 0) +
        (turnOf name kind children run cell below world).journal.visits
          (Tree.isLeafAt ⟨name, kind, children⟩) := by
  have hentry : (entryOf name run world).visits (Tree.isLeafAt ⟨name, kind, children⟩) =
      if run = none then kind.visit else 0 := by
    cases run with
    | none =>
      rw [entryOf, Journal.visits, List.countP_singleton]
      rfl
    | some run => rfl
  have hexit : (exitEntry name kind (turnOf name kind children run cell below world)).visits
      (Tree.isLeafAt ⟨name, kind, children⟩) = 0 := by
    unfold exitEntry
    split <;> rfl
  rw [advance_eq, Journal.visits_append, Journal.visits_append, hentry, hexit, Nat.add_zero]

end

/-- A turn that is paid for leaves its slot with an answer or with a suspended execution. -/
theorem Progress.IsPaid.exists_slot {μ : Type} {counted : Path → Bool} {owes : μ → Run → Nat → Prop}
    {world : World} {before : Bool} {total left : Nat} {progress : Progress Outcome μ}
    (hpaid : progress.IsPaid .stop step counted owes world before total left) :
    ∃ later, progress.result.slot = .ok later ∧
      (∀ run, later = .waiting run →
        Charged step (owes progress.memory) progress.world run left) ∧
      Attended world.present progress.world progress.again (later.stirs world.now) later.awaits ∧
      Pays step (progress.journal.visits counted) left total
        (Stride before world (later.stirs world.now) progress.again progress.world) := by
  obtain ⟨hsound, -, howed, hattended, hpays⟩ := hpaid
  cases hresult : progress.result with
  | failed fault => exact absurd (congrArg Reply.stop hresult) (hsound fault)
  | answered status =>
    rw [hresult] at hpays
    exact ⟨.answered status, rfl, nofun, nofun, hpays⟩
  | waiting run =>
    rw [hresult] at howed hattended hpays
    refine ⟨.waiting run, rfl, ?_, hattended run rfl, hpays⟩
    rintro run ⟨⟩
    exact howed run rfl

/-- Every turn of a tree of limited nodes is paid for out of its price. -/
theorem Tree.settles (hstep : step ≤ 1) (tree : Tree κ) (hlimited : tree.IsLimited) :
    tree.Settles hstep := by
  induction tree using Tree.nodeInduction with
  | node name kind children ih =>
    intro slot memory world total hanswered hfair hdistinct howes
    obtain ⟨hkind, hchildren⟩ := hlimited
    have hcrew := isSettled_crewOf name kind fun tree hmem =>
      ih tree hmem (Tree.areLimited_iff.mp hchildren tree hmem)
    let ledger := Tree.ledger hstep ⟨name, kind, children⟩
    cases memory with
    | node cell below =>
      have hvisits := @visits_advance κ _ name kind children slot.run? cell below world
      rw [advance_eq] at hvisits ⊢
      rw [Crew.turnOf_eq] at hvisits ⊢
      cases slot with
      | answered status => cases hanswered
      | fresh =>
        have hsum : sumFrom ledger.price 0 children.length = Tree.prices step children :=
          sumFrom_price children 0 fun offset _ => by
            rw [Nat.zero_add]
            rfl
        have haffords : Machine.Affords kind.respond ledger.size
            (Request.cost step ledger.price ledger.size) (kind.allowance ledger.size)
            (kind.outlay step (sumFrom ledger.price 0 children.length)) cell.state .started :=
          Kind.affords_started hkind cell.state
        rw [hsum] at haffords
        obtain ⟨left, hdriven⟩ := hcrew.turn_begins hfair hdistinct haffords name below
        obtain ⟨later, hlater, howed, hattended, hpays⟩ := hdriven.exists_slot
        refine ⟨later, left, hlater, hdriven.spawned_eq, howed, hattended, ?_⟩
        have hprice : step + kind.visit + kind.outlay step (Tree.prices step children) ≤ total :=
          howes
        have hwithin : left + ((crewOf children).turn name kind children.length none cell below
            world).journal.visits (Tree.isLeafAt ⟨name, kind, children⟩) ≤
              kind.outlay step (Tree.prices step children) := hpays.within
        rw [hvisits]
        simp only [Slot.run?, if_true]
        exact ⟨by omega, fun _ => by omega⟩
      | waiting run =>
        obtain ⟨left, hdriven⟩ := hcrew.turn_goesOn hfair hdistinct howes name
        obtain ⟨later, hlater, howed, hattended, hpays⟩ := hdriven.exists_slot
        refine ⟨later, left, hlater, hdriven.spawned_eq, howed, hattended, ?_⟩
        rw [hvisits]
        simp only [Slot.run?, reduceCtorEq, if_false, Nat.zero_add, false_or]
        exact hpays

/-! ## Calls -/

namespace Ledger

variable {ledger : Ledger} {owes : Nat → Run → Nat → Prop} {call : Call}

/-- Children owe the same when a call has been passed on to them. -/
theorem SlotsOwe.notify
    (hnotify : ∀ index run debt, owes index run debt → owes index (run.notify call) debt)
    {slots : List (Slot Run)} {start total : Nat}
    (howe : ledger.SlotsOwe owes (fun _ _ => 0) start slots total) :
    ledger.SlotsOwe owes (fun _ _ => 0) start (notifySlots call slots) total := by
  induction slots generalizing start total with
  | nil => exact howe
  | cons slot slots ih =>
    obtain ⟨debt, rest, hfirst, hrest, hle⟩ := slotsOwe_cons.mp howe
    cases slot with
    | fresh => exact slotsOwe_cons.mpr ⟨debt, rest, hfirst, ih hrest, hle⟩
    | answered status => exact slotsOwe_cons.mpr ⟨debt, rest, hfirst, ih hrest, hle⟩
    | waiting run =>
      exact slotsOwe_cons.mpr ⟨debt, rest, hnotify start run debt hfirst, ih hrest, hle⟩

/-- A suspended execution owes the same when it has been notified of a call. -/
theorem RunOwes.notify
    (hnotify : ∀ index run debt, owes index run debt → owes index (run.notify call) debt)
    {run : Run} {debt : Nat} (howes : ledger.RunOwes owes run debt) :
    ledger.RunOwes owes (run.notify call) debt := by
  cases run with
  | child mark index run =>
    rw [Run.notify]
    exact ⟨howes.1, hnotify index run debt howes.2⟩
  | paused pause => exact howes
  | together slots =>
    rw [Run.notify]
    exact ⟨Nat.le_trans (Nat.le_of_eq (length_notifySlots call slots)) howes.1,
      howes.2.notify hnotify⟩
  | crowd id slots called =>
    rw [Run.notify]
    exact ⟨Nat.le_trans (Nat.le_of_eq (length_notifySlots call slots)) howes.1,
      howes.2.notify hnotify⟩

end Ledger

/-- Calls do not change what is owed. -/
theorem Memory.Owes.notify {hstep : step ≤ 1} {tree : Tree κ} (call : Call) :
    ∀ {memory : Memory tree} {run : Run} {debt : Nat},
      memory.Owes hstep run debt → memory.Owes hstep (run.notify call) debt := by
  induction tree using Tree.nodeInduction with
  | node name kind children ih =>
    intro memory run debt howes
    have hchildren : ∀ {trees : List (Tree κ)} (below : Memories trees),
        (∀ tree ∈ trees, ∀ {memory : Memory tree} {run : Run} {debt : Nat},
          memory.Owes hstep run debt → memory.Owes hstep (run.notify call) debt) →
        ∀ index run debt, below.Owes hstep index run debt →
          below.Owes hstep index (run.notify call) debt := by
      intro trees
      induction trees with
      | nil =>
        intro below _ index run debt hnone
        cases below
        exact hnone.elim
      | cons tree trees ihTrees =>
        intro below hall index run debt howes
        cases below with
        | cons first rest =>
          cases index with
          | zero => exact hall tree (by simp) howes
          | succ index =>
            exact ihTrees rest (fun tree hmem => hall tree (by simp [hmem])) index run debt howes
    cases memory with
    | node cell below =>
      obtain ⟨request, pending, rest, hwaits, hpending, hle, hanswers⟩ := howes
      exact ⟨request, pending, rest, hwaits.notify call,
        hpending.notify (hchildren below ih), hle, hanswers⟩

end BehaviorTree
