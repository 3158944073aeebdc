import BehaviorTree.Tree.Execution

/-!
# Running one child at a time

Most node types have at most one child under way. Such a node resumes, in its next execution, the
child that answered running in the last one, and otherwise keeps all its children at rest. The
discipline of a node type says how its state shows which child that is, and bounds its moves. Every
move keeps to the discipline (`Kind.keeps_respond`).
-/

namespace BehaviorTree

/-- How a node that runs one child at a time keeps order among its children. -/
structure Discipline (σ : Type) where
  /-- The states with nothing to resume. -/
  atRest : σ → Prop
  /-- What holds of the state between executions. -/
  sane : σ → Prop
  /-- The child that the next execution begins with. Only this one need not be at rest. -/
  focus? : σ → Option Nat
  /-- The child that is run under a mark. -/
  childOf : Nat → Nat
  /-- The signals that the node can get. -/
  Hears : Signal → Prop
  /-- A bound on the moves from a signal on, while so many waits may end. -/
  need : Nat → Signal → Nat

namespace Discipline

variable {σ : Type}

/-- The child that need not be at rest when the node gets a signal. -/
def standing? (discipline : Discipline σ) (state : σ) : Signal → Option Nat
  | .started => discipline.focus? state
  | .answered mark .running => some (discipline.childOf mark)
  | _ => none

/-- The moves of a node that gets a signal while all its children are at rest. -/
inductive Frees (discipline : Discipline σ) (size waits : Nat) (signal : Signal) : Move σ → Prop
  | ends {state : σ} {status : Status} {notices : List Notice} {writes : List (String × Value)}
      (hterminal : status.isTerminal) (hrest : discipline.atRest state) :
      Frees discipline size waits signal ⟨state, .finish status, notices, writes⟩
  | yields {state : σ} {notices : List Notice} {writes : List (String × Value)}
      (hsane : discipline.sane state) :
      Frees discipline size waits signal ⟨state, .finish .running, notices, writes⟩
  | crashes {state : σ} {notices : List Notice} {writes : List (String × Value)} :
      Frees discipline size waits signal ⟨state, .crash, notices, writes⟩
  | runs {state : σ} {mark : Nat} (hlt : discipline.childOf mark < size)
      (hhears : ∀ status, discipline.Hears (.answered mark status))
      (hneed : ∀ left ≤ waits, ∀ status,
        discipline.need left (.answered mark status) < discipline.need waits signal) :
      Frees discipline size waits signal (.ask state (.run mark (discipline.childOf mark)))
  | sleeps {state : σ} {mark duration : Nat} {notices : List Notice}
      {writes : List (String × Value)} (hhears : discipline.Hears (.woken mark))
      (hneed : 0 < waits →
        discipline.need (waits - 1) (.woken mark) < discipline.need waits signal) :
      Frees discipline size waits signal ⟨state, .sleep mark duration, notices, writes⟩
  | resets {state : σ} (hhears : discipline.Hears .childReset)
      (hneed : discipline.need waits .childReset < discipline.need waits signal) :
      Frees discipline size waits signal (.ask state (.resetChild 0))

/-- The moves that keep to the discipline: a child that has something to resume is run at once,
and a running answer is passed on at once, with the focus on the child that gave it. -/
inductive Keeps (discipline : Discipline σ) (size : Nat) (state : σ) (waits : Nat) :
    Signal → Move σ → Prop
  | resumes {next : σ} {mark : Nat}
      (hfocus : discipline.focus? state = some (discipline.childOf mark))
      (hhears : ∀ status, discipline.Hears (.answered mark status))
      (hneed : ∀ left ≤ waits, ∀ status,
        discipline.need left (.answered mark status) < discipline.need waits .started) :
      Keeps discipline size state waits .started (.ask next (.run mark (discipline.childOf mark)))
  | yields {next : σ} {mark : Nat} (hsane : discipline.sane next)
      (hfocus : discipline.focus? next = some (discipline.childOf mark)) :
      Keeps discipline size state waits (.answered mark .running) (.finish next .running)
  | free {signal : Signal} {move : Move σ} (hstanding : discipline.standing? state signal = none)
      (hfrees : discipline.Frees size waits signal move) :
      Keeps discipline size state waits signal move

end Discipline

/-! ## Node types -/

namespace Chain

/-- A chain begins with the child at its cursor. -/
def discipline (size : Nat) : Discipline Nat where
  atRest cursor := cursor = 0
  sane _ := True
  focus? cursor := if cursor < size then some cursor else none
  childOf mark := mark
  Hears
    | .started => True
    | .answered mark _ => mark < size
    | _ => False
  need _
    | .answered mark _ => size - mark + 1
    | _ => size + 2

/-- A chain that goes on does so with a child that is at rest. -/
theorem frees_proceed {passed : Status} (hpassed : passed.isTerminal) (size cursor waits mark : Nat)
    {status : Status} :
    (discipline size).Frees size waits (.answered mark status)
      (proceed passed size cursor (mark + 1)) := by
  unfold proceed
  split
  · next hlt =>
    refine .runs hlt (fun _ => hlt) fun _ _ _ => ?_
    simp only [discipline]
    omega
  · exact .ends hpassed rfl

/-- A chain keeps to its discipline. -/
theorem keeps_respond {passed : Status} (hpassed : passed.isTerminal) (moment : Moment)
    (cursor waits : Nat) {signal : Signal} (hhears : (discipline moment.size).Hears signal) :
    (discipline moment.size).Keeps moment.size cursor waits signal
      (respond passed moment cursor signal) := by
  cases signal with
  | started =>
    rw [respond, proceed]
    split
    · next hlt =>
      refine .resumes (if_pos hlt) (fun _ => hlt) fun _ _ _ => ?_
      simp only [discipline]
      omega
    · next hge => exact .free (if_neg hge) (.ends hpassed rfl)
  | answered mark status =>
    cases status with
    | running => exact .yields trivial (if_pos hhears)
    | success | failure =>
      rw [respond]
      · refine .free rfl ?_
        split
        · exact frees_proceed hpassed moment.size cursor waits mark
        · exact .ends rfl rfl
      · exact nofun
  | gathered statuses => exact hhears.elim
  | woken mark => exact hhears.elim
  | joined status => exact hhears.elim
  | expired => exact hhears.elim
  | childReset => exact hhears.elim
  | childAborted => exact hhears.elim

end Chain

namespace Retry

/-- Marks are numbers of attempts, and there is one child only. -/
def discipline (settings : RetrySettings) : Discipline Unit where
  atRest state := state = ()
  sane _ := True
  focus? _ := if 1 ≤ settings.maxRetries then some 0 else none
  childOf _ := 0
  Hears
    | .started | .woken _ => True
    | .answered .. => 1 ≤ settings.maxRetries
    | _ => False
  need _
    | .answered number _ => 2 * (settings.maxRetries.toNat - number) + 2
    | .woken number => 2 * (settings.maxRetries.toNat - number) + 1
    | _ => 2 * settings.maxRetries.toNat + 1

/-- A retry node with its child keeps to its discipline. -/
theorem keeps_respond (settings : RetrySettings) {moment : Moment} (hsize : moment.size = 1)
    (state : Unit) (waits : Nat) {signal : Signal} (hhears : (discipline settings).Hears signal) :
    (discipline settings).Keeps moment.size state waits signal
      (respond settings moment signal) := by
  rw [hsize]
  cases signal with
  | started =>
    rw [respond, if_neg (by rw [hsize]; exact Nat.one_ne_zero), attempt]
    split
    · next hleft =>
      refine .resumes (if_pos hleft) (fun _ => hleft) fun _ _ _ => ?_
      simp only [discipline]
      omega
    · next hnone => exact .free (if_neg hnone) (.ends rfl rfl)
  | answered number status =>
    cases status with
    | running => exact .yields trivial (if_pos hhears)
    | success => exact .free rfl (.ends rfl rfl)
    | failure =>
      refine .free rfl ?_
      rw [respond]
      split
      · exact .sleeps trivial fun _ => Nat.lt_succ_self _
      · rw [attempt, if_neg (by omega)]
        exact .ends rfl rfl
  | woken number =>
    refine .free rfl ?_
    rw [respond, attempt]
    split
    · next hleft =>
      refine .runs Nat.one_pos (fun _ => by simp only [discipline]; omega) fun _ _ _ => ?_
      simp only [discipline]
      omega
    · exact .ends rfl rfl
  | gathered statuses => exact hhears.elim
  | joined status => exact hhears.elim
  | expired => exact hhears.elim
  | childReset => exact hhears.elim
  | childAborted => exact hhears.elim

end Retry

namespace Persist

/-- With a budget of zero the child is never run. -/
def discipline (settings : PersistSettings) : Discipline Nat where
  atRest count := count = 0
  sane _ := True
  focus? _ := if settings.attempts < 0 then some 0 else none
  childOf _ := 0
  Hears
    | .started => True
    | .answered .. | .woken _ => settings.attempts < 0
    | _ => False
  need waits
    | .answered .. => 2 * waits + 2
    | _ => if settings.attempts < 0 then 2 * waits + 3 else 1

/-- Without a limit an attempt is always made. -/
theorem attempt_of_unlimited {settings : PersistSettings} (hunlimited : settings.attempts < 0)
    (name : String) (count : Nat) :
    attempt settings name count = .ask (count + 1) (.run (count + 1) 0) :=
  if_pos (by simp [hasLeft, hunlimited])

/-- A node that retries until success keeps to its discipline if its budget is unlimited or zero. -/
theorem keeps_respond {settings : PersistSettings} (hattempts : settings.attempts ≤ 0)
    {moment : Moment} (hsize : moment.size = 1) (count waits : Nat) {signal : Signal}
    (hhears : (discipline settings).Hears signal) :
    (discipline settings).Keeps moment.size count waits signal
      (respond settings moment count signal) := by
  rw [hsize]
  cases signal with
  | started =>
    rw [respond, if_neg (by rw [hsize]; exact Nat.one_ne_zero)]
    by_cases hunlimited : settings.attempts < 0
    · rw [attempt_of_unlimited hunlimited]
      refine .resumes (if_pos hunlimited) (fun _ => hunlimited) fun _ _ _ => ?_
      simp only [discipline, if_pos hunlimited]
      omega
    · rw [attempt, if_neg (by simp [hasLeft]; omega)]
      exact .free (if_neg hunlimited) (.ends rfl rfl)
  | answered number status =>
    have hunlimited : settings.attempts < 0 := hhears
    cases status with
    | running => exact .yields trivial (if_pos hunlimited)
    | success => exact .free rfl (.ends rfl rfl)
    | failure =>
      refine .free rfl ?_
      rw [respond, if_pos (by simp [hasLeft, hunlimited])]
      refine .sleeps hunlimited fun _ => ?_
      simp only [discipline, if_pos hunlimited]
      omega
  | woken mark =>
    have hunlimited : settings.attempts < 0 := hhears
    refine .free rfl ?_
    rw [respond, attempt_of_unlimited hunlimited]
    refine .runs Nat.one_pos (fun _ => hunlimited) fun _ _ _ => ?_
    simp only [discipline, if_pos hunlimited]
    omega
  | gathered statuses => exact hhears.elim
  | joined status => exact hhears.elim
  | expired => exact hhears.elim
  | childReset => exact hhears.elim
  | childAborted => exact hhears.elim

end Persist

namespace Repeat

/-- With a count of zero the child is never run, and no iteration is counted. -/
def discipline (settings : RepeatSettings) : Discipline Nat where
  atRest done := done = 0
  sane done := settings.count = 0 → done = 0
  focus? _ := if settings.count = 0 then none else some 0
  childOf _ := 0
  Hears
    | .started => True
    | .answered .. | .childReset => settings.count ≠ 0
    | _ => False
  need _
    | .started => 3
    | .answered .. => 2
    | _ => 1

/-- A repeat node with its child keeps to its discipline, provided that it begins with no iteration
counted if its count is zero. -/
theorem keeps_respond (settings : RepeatSettings) {moment : Moment} (hsize : moment.size = 1)
    (done waits : Nat) {signal : Signal} (hhears : (discipline settings).Hears signal)
    (hsane : signal = .started → (discipline settings).sane done) :
    (discipline settings).Keeps moment.size done waits signal
      (respond settings moment done signal) := by
  rw [hsize]
  cases signal with
  | started =>
    rw [respond, if_neg (by rw [hsize]; exact Nat.one_ne_zero)]
    split
    · next hzero => exact .free (if_pos hzero) (.ends rfl (hsane rfl hzero))
    · next hcount =>
      exact .resumes (if_neg hcount) (fun _ => hcount) fun _ _ _ => Nat.lt_succ_self _
  | answered mark status =>
    have hcount : settings.count ≠ 0 := hhears
    cases status with
    | running => exact .yields (fun hzero => absurd hzero hcount) (if_neg hcount)
    | success | failure =>
      refine .free rfl ?_
      rw [respond]
      · split
        · exact .ends rfl rfl
        · exact .resets hcount (Nat.lt_succ_self _)
      · exact nofun
  | childReset =>
    have hcount : settings.count ≠ 0 := hhears
    refine .free rfl ?_
    rw [respond]
    split
    · exact .yields fun hzero => absurd hzero hcount
    · split
      · exact .ends rfl rfl
      · exact .yields fun hzero => absurd hzero hcount
  | gathered statuses => exact hhears.elim
  | woken mark => exact hhears.elim
  | joined status => exact hhears.elim
  | expired => exact hhears.elim
  | childAborted => exact hhears.elim

end Repeat

namespace Relabel

/-- A node that relabels the answer runs its child in every execution and keeps nothing. -/
def discipline : Discipline Unit where
  atRest state := state = ()
  sane _ := True
  focus? _ := some 0
  childOf _ := 0
  Hears
    | .started | .answered .. => True
    | _ => False
  need _
    | .started => 2
    | _ => 1

/-- A node that relabels the answer keeps to its discipline, if running stays running and terminal
answers stay terminal. -/
theorem keeps_respond {image : Status → Status} (hrunning : image .running = .running)
    (hterminal : ∀ status, status.isTerminal → (image status).isTerminal) {moment : Moment}
    (hsize : moment.size = 1) (state : Unit) (waits : Nat) {signal : Signal}
    (hhears : discipline.Hears signal) :
    discipline.Keeps moment.size state waits signal (respond image moment signal) := by
  cases signal with
  | started =>
    rw [respond, if_neg (by rw [hsize]; exact Nat.one_ne_zero)]
    exact .resumes rfl (fun _ => trivial) fun _ _ _ => Nat.lt_succ_self _
  | answered mark status =>
    rw [respond]
    cases status with
    | running =>
      rw [hrunning]
      exact .yields trivial rfl
    | success | failure => exact .free rfl (.ends (hterminal _ rfl) rfl)
  | gathered statuses => exact hhears.elim
  | woken mark => exact hhears.elim
  | joined status => exact hhears.elim
  | expired => exact hhears.elim
  | childReset => exact hhears.elim
  | childAborted => exact hhears.elim

end Relabel

/-- A leaf that answers without waiting. -/
def Discipline.ofLeaf {σ : Type} (initial : σ) : Discipline σ where
  atRest state := state = initial
  sane _ := True
  focus? _ := none
  childOf _ := 0
  Hears signal := signal = .started
  need _ _ := 1

/-- A wait node keeps to the discipline of a leaf. -/
theorem Wait.keeps_respond (delay : Int) (moment : Moment) (size : Nat) (begun : Option Nat)
    (waits : Nat) {signal : Signal} (hhears : signal = .started) :
    (Discipline.ofLeaf none).Keeps size begun waits signal (respond delay moment begun signal) := by
  subst hhears
  refine .free rfl ?_
  cases begun with
  | none => exact .yields trivial
  | some start =>
    simp only [respond]
    split
    · exact .ends rfl rfl
    · exact .yields trivial

/-- A setter keeps to the discipline of a leaf. -/
theorem SetValue.keeps_respond (settings : SetValueSettings) (moment : Moment) (size : Nat)
    (state : Unit) (waits : Nat) {signal : Signal} (hhears : signal = .started) :
    (Discipline.ofLeaf ()).Keeps size state waits signal (respond settings moment signal) := by
  subst hhears
  refine .free rfl ?_
  rw [respond, execute]
  split
  · exact .ends rfl rfl
  · split
    · exact .ends rfl rfl
    · split
      · exact .ends rfl rfl
      · exact .ends rfl rfl

variable {κ : Type} [Application κ]

/-- Whether a request has nothing to do with children. -/
def Request.IsSolitary : Request → Prop
  | .finish _ | .crash | .sleep .. => True
  | _ => False

/-- A node type of an application that does without children. -/
def IsSolitary (node : κ) : Prop :=
  ∀ moment state signal, (Application.respond node moment state signal).request.IsSolitary

/-- A node of an application may keep what it likes, and each of its sleeps takes up one wait. -/
def Discipline.ofSolitary (node : κ) : Discipline (Application.State node) where
  atRest _ := True
  sane _ := True
  focus? _ := none
  childOf _ := 0
  Hears
    | .started | .woken _ => True
    | _ => False
  need waits _ := waits + 1

/-- A solitary node of an application keeps to its discipline. -/
theorem IsSolitary.keeps_respond {node : κ} (hsolitary : IsSolitary node) (moment : Moment)
    (size : Nat) (state : Application.State node) (waits : Nat) {signal : Signal}
    (hhears : (Discipline.ofSolitary node).Hears signal) :
    (Discipline.ofSolitary node).Keeps size state waits signal
      (Application.respond node moment state signal) := by
  have hstanding : (Discipline.ofSolitary node).standing? state signal = none := by
    cases signal <;> first | rfl | exact hhears.elim
  refine .free hstanding ?_
  have hrequest := hsolitary moment state signal
  generalize Application.respond node moment state signal = move at hrequest ⊢
  obtain ⟨next, request, notices, writes⟩ := move
  cases request with
  | finish status =>
    cases status with
    | running => exact .yields trivial
    | success | failure => exact .ends rfl trivial
  | crash => exact .crashes
  | sleep mark duration =>
    refine .sleeps trivial fun hwaits => ?_
    simp only [Discipline.ofSolitary]
    omega
  | run mark child => exact hrequest.elim
  | runAll => exact hrequest.elim
  | race child limit => exact hrequest.elim
  | resetChild child => exact hrequest.elim
  | abortChild child => exact hrequest.elim

namespace Kind

/-- Whether a node of the kind has no children to run. -/
def isLeaf : Kind κ → Bool
  | wait _ | setValue _ | alwaysSuccess | forceFailure | custom _ => true
  | _ => false

/-- The kinds of which a node with so many children runs at most one child at a time: sequences,
selectors, decorators with their child except timeouts and limited budgets, and leaves. -/
def IsSequential : Kind κ → Nat → Prop
  | sequence, _ | selector, _ => True
  | retry _, size | repeating _, size | inverter, size | succeeder, size => size = 1
  | retryUntilSuccess settings, size => settings.attempts ≤ 0 ∧ size = 1
  | wait _, size | setValue _, size | alwaysSuccess, size | forceFailure, size => size = 0
  | custom node, size => IsSolitary node ∧ size = 0
  | parallel _, _ | timeout _, _ => False

/-- A built-in node is at rest in the state of one that has never moved. -/
def AtRest : (kind : Kind κ) → kind.State → Prop
  | custom _, _ => True
  | kind, state => state = kind.initial

/-- The discipline of a node with so many children. Parallel nodes and timeouts have none, and
hear nothing. -/
def discipline : (kind : Kind κ) → Nat → Discipline kind.State
  | sequence, size | selector, size => Chain.discipline size
  | retry settings, _ => Retry.discipline settings
  | retryUntilSuccess settings, _ => Persist.discipline settings
  | repeating settings, _ => Repeat.discipline settings
  | inverter, _ | succeeder, _ => Relabel.discipline
  | wait _, _ => .ofLeaf (none : Option Nat)
  | setValue _, _ | alwaysSuccess, _ | forceFailure, _ => .ofLeaf ()
  | parallel _, _ | timeout _, _ => .ofLeaf ()
  | custom node, _ => .ofSolitary node

variable {kind : Kind κ} {size : Nat}

/-- A node is at rest for its discipline exactly if it is at rest. -/
theorem atRest_discipline (kind : Kind κ) (size : Nat) (state : kind.State) :
    (kind.discipline size).atRest state ↔ kind.AtRest state := by
  cases kind <;> exact Iff.rfl

/-- Every node of a sequential kind keeps to the discipline. -/
theorem keeps_respond (moment : Moment) (hsequential : kind.IsSequential moment.size)
    {state : kind.State} (waits : Nat) {signal : Signal}
    (hhears : (kind.discipline moment.size).Hears signal)
    (hsane : signal = .started → (kind.discipline moment.size).sane state) :
    (kind.discipline moment.size).Keeps moment.size state waits signal
      (kind.respond moment state signal) := by
  cases kind with
  | sequence => exact Chain.keeps_respond rfl moment state waits hhears
  | selector => exact Chain.keeps_respond rfl moment state waits hhears
  | parallel settings => exact hsequential.elim
  | retry settings => exact Retry.keeps_respond settings hsequential state waits hhears
  | retryUntilSuccess settings =>
    exact Persist.keeps_respond hsequential.1 hsequential.2 state waits hhears
  | timeout limit => exact hsequential.elim
  | repeating settings =>
    exact Repeat.keeps_respond settings hsequential state waits hhears hsane
  | inverter =>
    refine Relabel.keeps_respond rfl (fun status hterminal => ?_) hsequential state waits hhears
    cases status <;> first | rfl | exact hterminal
  | succeeder =>
    refine Relabel.keeps_respond rfl (fun status hterminal => ?_) hsequential state waits hhears
    cases status <;> first | rfl | exact hterminal
  | wait delay => exact Wait.keeps_respond delay moment _ state waits hhears
  | setValue settings => exact SetValue.keeps_respond settings moment _ state waits hhears
  | alwaysSuccess =>
    cases hhears
    exact .free rfl (.ends rfl rfl)
  | forceFailure =>
    cases hhears
    exact .free rfl (.ends rfl rfl)
  | custom node => exact hsequential.1.keeps_respond moment _ state waits hhears

/-- Every discipline allows an execution to begin. -/
theorem hears_started (kind : Kind κ) (size : Nat) :
    (kind.discipline size).Hears .started := by
  cases kind <;> trivial

/-- A leaf has no child to resume. -/
theorem focus?_of_isLeaf {kind : Kind κ} (hleaf : kind.isLeaf) (size : Nat) (state : kind.State) :
    (kind.discipline size).focus? state = none := by
  cases kind <;> first | rfl | cases hleaf

/-- A leaf has no children, and so nothing below it to resume. -/
theorem eq_zero_of_isLeaf (hsequential : kind.IsSequential size) (hleaf : kind.isLeaf) :
    size = 0 := by
  cases kind with
  | wait _ | setValue _ | alwaysSuccess | forceFailure => exact hsequential
  | custom node => exact hsequential.2
  | _ => cases hleaf

/-- As long as a signal is on its way, a move is needed. -/
theorem need_pos (kind : Kind κ) (size waits : Nat) (signal : Signal) :
    0 < (kind.discipline size).need waits signal := by
  cases kind with
  | retryUntilSuccess settings =>
    cases signal <;> simp only [discipline, Persist.discipline] <;> (try split) <;> omega
  | _ => cases signal <;> exact Nat.succ_pos _

/-- A node can always make the moves that it needs in one turn. -/
theorem need_le_allowance (hsequential : kind.IsSequential size) {waits : Nat}
    (hwaits : waits ≤ turnLength) {signal : Signal}
    (hhears : (kind.discipline size).Hears signal) :
    (kind.discipline size).need waits signal ≤ kind.allowance size := by
  have hpatience : 2 * turnLength + 3 ≤ patience := by decide
  cases kind with
  | sequence | selector =>
    cases signal <;> simp only [discipline, Chain.discipline, allowance] <;> omega
  | retry settings =>
    cases signal <;> simp only [discipline, Retry.discipline, allowance] <;> omega
  | retryUntilSuccess settings =>
    simp only [allowance]
    cases signal <;> simp only [discipline, Persist.discipline] at hhears ⊢ <;> split <;> omega
  | custom node =>
    simp only [discipline, Discipline.ofSolitary, allowance]
    omega
  | parallel settings => exact hsequential.elim
  | timeout limit => exact hsequential.elim
  | repeating settings =>
    cases signal <;> simp only [discipline, Repeat.discipline, allowance] <;> omega
  | inverter | succeeder =>
    cases signal <;> simp only [discipline, Relabel.discipline, allowance] <;> omega
  | wait _ | setValue _ | alwaysSuccess | forceFailure =>
    simp only [discipline, Discipline.ofLeaf, allowance]
    omega

/-- The child that a node resumes is one of its children. -/
theorem focus?_lt (hsequential : kind.IsSequential size) {state : kind.State} {index : Nat}
    (hfocus : (kind.discipline size).focus? state = some index) : index < size := by
  cases kind with
  | sequence | selector =>
    simp only [discipline, Chain.discipline, Option.ite_none_right_eq_some] at hfocus
    cases hfocus.2
    exact hfocus.1
  | retry settings =>
    simp only [discipline, Retry.discipline, Option.ite_none_right_eq_some] at hfocus
    cases hfocus.2
    exact Nat.lt_of_lt_of_eq Nat.one_pos hsequential.symm
  | retryUntilSuccess settings =>
    simp only [discipline, Persist.discipline, Option.ite_none_right_eq_some] at hfocus
    cases hfocus.2
    exact Nat.lt_of_lt_of_eq Nat.one_pos hsequential.2.symm
  | repeating settings =>
    simp only [discipline, Repeat.discipline, Option.ite_none_left_eq_some] at hfocus
    cases hfocus.2
    exact Nat.lt_of_lt_of_eq Nat.one_pos hsequential.symm
  | inverter | succeeder =>
    cases hfocus
    exact Nat.lt_of_lt_of_eq Nat.one_pos hsequential.symm
  | parallel _ | timeout _ => exact hsequential.elim
  | wait _ | setValue _ | alwaysSuccess | forceFailure | custom _ => cases hfocus

end Kind

end BehaviorTree
