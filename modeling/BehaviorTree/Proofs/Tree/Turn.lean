import BehaviorTree.Tree.Execution

/-!
# A turn of a node

Advancing a tree gives its root a turn: the execution begins or is taken up, and goes on until it
ends or waits. What the turn writes to the journal between the entries for its beginning and its
end is about nodes below the root, apart from notices (`isInner_turn`). So an execution has
exactly one entry for its beginning (`starts_nil_advance`).
-/

namespace BehaviorTree

namespace Progress

variable {ρ τ μ ν : Type}

/-- What a stretch of execution results in is the same seen from the parent. -/
@[simp] theorem result_under (index : Nat) (progress : Progress ρ μ) :
    (progress.under index).result = progress.result := rfl

/-- The memory after a stretch of execution is the same seen from the parent. -/
@[simp] theorem memory_under (index : Nat) (progress : Progress ρ μ) :
    (progress.under index).memory = progress.memory := rfl

/-- The world after a stretch of execution is the same seen from the parent. -/
@[simp] theorem world_under (index : Nat) (progress : Progress ρ μ) :
    (progress.under index).world = progress.world := rfl

/-- Seen from the parent, the entries of a journal are about positions below the child. -/
@[simp] theorem journal_under (index : Nat) (progress : Progress ρ μ) :
    (progress.under index).journal = progress.journal.map (·.under index) := rfl

/-- Seen from the parent, tasks are started at positions below the child. -/
@[simp] theorem spawned_under (index : Nat) (progress : Progress ρ μ) :
    (progress.under index).spawned = progress.spawned.map (·.under index) := rfl

/-- What went before a stretch of execution leaves its result as it is. -/
@[simp] theorem result_after (journal : Journal) (spawned : List Spawn) (again : Bool)
    (progress : Progress ρ μ) :
    (progress.after journal spawned again).result = progress.result := rfl

/-- What went before a stretch of execution leaves the memory after it as it is. -/
@[simp] theorem memory_after (journal : Journal) (spawned : List Spawn) (again : Bool)
    (progress : Progress ρ μ) :
    (progress.after journal spawned again).memory = progress.memory := rfl

/-- What went before a stretch of execution leaves the world after it as it is. -/
@[simp] theorem world_after (journal : Journal) (spawned : List Spawn) (again : Bool)
    (progress : Progress ρ μ) :
    (progress.after journal spawned again).world = progress.world := rfl

/-- The journal of what went before comes first. -/
@[simp] theorem journal_after (journal : Journal) (spawned : List Spawn) (again : Bool)
    (progress : Progress ρ μ) :
    (progress.after journal spawned again).journal = journal ++ progress.journal := rfl

/-- The tasks that were started before come first. -/
@[simp] theorem spawned_after (journal : Journal) (spawned : List Spawn) (again : Bool)
    (progress : Progress ρ μ) :
    (progress.after journal spawned again).spawned = spawned ++ progress.spawned := rfl

/-- A map of results applies to the result. -/
@[simp] theorem result_map (result : ρ → τ) (memory : μ → ν) (progress : Progress ρ μ) :
    (progress.map result memory).result = result progress.result := rfl

/-- A map of memories applies to the memory. -/
@[simp] theorem memory_map (result : ρ → τ) (memory : μ → ν) (progress : Progress ρ μ) :
    (progress.map result memory).memory = memory progress.memory := rfl

/-- A map of results and memories leaves the world as it is. -/
@[simp] theorem world_map (result : ρ → τ) (memory : μ → ν) (progress : Progress ρ μ) :
    (progress.map result memory).world = progress.world := rfl

/-- A map of results and memories leaves the journal as it is. -/
@[simp] theorem journal_map (result : ρ → τ) (memory : μ → ν) (progress : Progress ρ μ) :
    (progress.map result memory).journal = progress.journal := rfl

/-- A map of results and memories leaves the tasks that were started as they are. -/
@[simp] theorem spawned_map (result : ρ → τ) (memory : μ → ν) (progress : Progress ρ μ) :
    (progress.map result memory).spawned = progress.spawned := rfl

/-- A journal that went before may be put before in two parts. -/
theorem after_append (first rest : Journal) (spawned : List Spawn) (again : Bool)
    (progress : Progress ρ μ) :
    progress.after (first ++ rest) spawned again =
      (progress.after rest spawned again).after first [] false := by
  simp [after, List.append_assoc]

/-- What follows a stretch of execution has the journal and the tasks of that stretch before its
own. -/
theorem andThen_eq (progress : Progress ρ μ) (next : ρ → μ → World → Progress τ ν) :
    progress.andThen next =
      (next progress.result progress.memory progress.world).after progress.journal
        progress.spawned progress.again := rfl

end Progress

/-- The suspended execution that a turn leaves behind. -/
def Outcome.run? : Outcome → Option Run
  | .waiting run => some run
  | .answered _ | .failed _ => none

/-- Whether an execution has ended with success or failure. -/
def Outcome.isTerminal : Outcome → Bool
  | .answered status => status.isTerminal
  | .waiting _ | .failed _ => false

/-- An execution that has ended with success or failure leaves nothing suspended. -/
theorem Outcome.run?_isNone_of_isTerminal {outcome : Outcome} (hterminal : outcome.isTerminal) :
    outcome.run?.isNone := by
  cases outcome with
  | answered status => rfl
  | waiting run => exact absurd hterminal Bool.false_ne_true
  | failed fault => rfl

variable {κ : Type} [Application κ]

/-- What a node can do with its children. -/
def crewOf (children : List (Tree κ)) : Crew (Memories children) where
  advance := advanceChild children
  advanceAll := advanceAll children 0
  abort := fun now index memories => memories.abortChild now index
  reset := fun now index memories => memories.resetChild now index

/-- The turn of a node between the entries for its beginning and its end. -/
def turnOf (name : String) (kind : Kind κ) (children : List (Tree κ)) (run : Option Run)
    (cell : Cell kind.State) (below : Memories children) (world : World) :
    Progress Outcome (Cell kind.State × Memories children) :=
  let crew := crewOf children
  let size := children.length
  match run with
  | none => crew.drive name kind size (kind.allowance size) (.signal .started) cell below world
  | some run =>
    (crew.recheck run below world).andThen
      (crew.drive name kind size (kind.allowance size) · cell · ·)

/-- The entry for the beginning of an execution. -/
def entryOf (name : String) (run : Option Run) (world : World) : Journal :=
  match run with
  | none => [eventAt world.now (.entered name)]
  | some _ => []

/-- Advancing a tree is the turn of its root between the entries for its beginning and its end. -/
theorem advance_eq (name : String) (kind : Kind κ) (children : List (Tree κ))
    (run : Option Run) (cell : Cell kind.State) (below : Memories children) (world : World) :
    advance ⟨name, kind, children⟩ run (.node cell below) world =
      let turn := turnOf name kind children run cell below world
      { result := turn.result
        memory := .node turn.memory.1 turn.memory.2
        world := turn.world
        journal := entryOf name run world ++ turn.journal ++ exitEntry name kind turn
        spawned := turn.spawned
        again := turn.again } := by
  cases run <;> rfl

/-- Advancing what is at the root is advancing the tree. -/
theorem advanceAt_nil {tree : Tree κ} (run : Option Run) (memory : Memory tree) (world : World) :
    advanceAt tree [] run memory world = advance tree run memory world := by
  rw [advanceAt]

/-- A child is the tree at the empty position inside it. -/
theorem advanceIn_nil {trees : List (Tree κ)} (index : Nat) (run : Option Run)
    (memories : Memories trees) (world : World) :
    advanceAt.advanceIn trees index [] run memories world =
      advanceChild trees index run memories world := by
  induction trees generalizing index with
  | nil =>
    cases memories
    rw [advanceAt.advanceIn, advanceChild]
  | cons tree trees ih =>
    cases memories with
    | cons first rest =>
      cases index with
      | zero => rw [advanceAt.advanceIn, advanceAt_nil, advanceChild]
      | succ index => rw [advanceAt.advanceIn, advanceChild, ih]

/-- Writing nothing changes neither the world nor the binding. -/
@[simp] theorem World.write_nil (world : World) (binding : Binding) :
    world.write binding [] = (world, binding) := by
  cases binding with
  | own context => rfl
  | shared id =>
    have hcontexts : world.contexts.modify id (·.setAll []) = world.contexts :=
      List.modify_id id world.contexts
    rw [World.write, World.modifyContext, hcontexts]

/-- Writing to a context takes none of the waits that are left. -/
@[simp] theorem World.waitsLeft_write (world : World) (binding : Binding)
    (writes : List (String × Value)) :
    (world.write binding writes).1.waitsLeft = world.waitsLeft := by
  cases binding <;> rfl

/-- A drive with a signal makes one move, serves its request, and goes on with the reply. -/
theorem Crew.drive_signal {μ : Type} (crew : Crew μ) (name : String) (kind : Kind κ)
    (size fuel : Nat) (signal : Signal) (cell : Cell kind.State) (below : μ) (world : World) :
    crew.drive name kind size (fuel + 1) (.signal signal) cell below world =
      let move := kind.respond ⟨name, size, world.now, world.context cell.binding⟩ cell.state signal
      let written := world.write cell.binding move.writes
      let served := crew.serve size move.request below written.1
      (crew.drive name kind size fuel served.result ⟨move.state, written.2⟩ served.memory
        served.world).after
        (move.notices.map (noticeAt written.1.now) ++ served.journal) served.spawned
        served.again := by
  rw [Crew.drive]
  simp only [Progress.andThen_eq, Progress.after, List.append_assoc, List.nil_append,
    Bool.false_or]

/-- A node that stops does nothing more. -/
theorem Crew.drive_stop {μ : Type} (crew : Crew μ) (name : String) (kind : Kind κ)
    (size fuel : Nat) (outcome : Outcome) (cell : Cell kind.State) (below : μ) (world : World) :
    crew.drive name kind size fuel (.stop outcome) cell below world =
      { result := outcome, memory := (cell, below), world } := by
  cases fuel <;> rfl

/-! ## Whom the entries are about -/

namespace Journal

/-- Every event in the journal is about a node below the root. -/
def IsInner (journal : Journal) : Prop :=
  ∀ entry ∈ journal, ∀ event, entry.happening = .event event → entry.path ≠ []

/-- An empty journal has no event about the root. -/
theorem isInner_nil : IsInner [] := fun _ hmem => absurd hmem List.not_mem_nil

/-- Two journals without events about the root have none together. -/
theorem IsInner.append {first rest : Journal} (hfirst : IsInner first) (hrest : IsInner rest) :
    IsInner (first ++ rest) := fun entry hmem =>
  (List.mem_append.mp hmem).elim (hfirst entry) (hrest entry)

/-- Seen from the parent, no event is about the root. -/
theorem isInner_map_under (index : Nat) (journal : Journal) :
    IsInner (journal.map (·.under index)) := by
  intro entry hmem _ _
  obtain ⟨_, _, rfl⟩ := List.mem_map.mp hmem
  exact List.cons_ne_nil _ _

/-- Notices are no events. -/
theorem isInner_map_noticeAt (now : Nat) (notices : List Notice) :
    IsInner (notices.map (noticeAt now)) := by
  intro entry hmem event hevent
  obtain ⟨_, _, rfl⟩ := List.mem_map.mp hmem
  cases hevent

/-- Whether an entry is for the beginning of an execution at a position. -/
def startsAt (path : Path) (entry : Entry) : Bool :=
  match entry.happening with
  | .event (.entered _) => entry.path = path
  | _ => false

/-- How many executions of the node at a position begin. -/
def starts (path : Path) (journal : Journal) : Nat := journal.countP (startsAt path)

/-- No execution begins in an empty journal. -/
@[simp] theorem starts_nil (path : Path) : starts path [] = 0 := rfl

/-- The executions that begin in two journals add up. -/
@[simp] theorem starts_append (path : Path) (first rest : Journal) :
    starts path (first ++ rest) = starts path first + starts path rest :=
  List.countP_append

/-- No execution begins in notices. -/
@[simp] theorem starts_map_noticeAt (path : Path) (now : Nat) (notices : List Notice) :
    starts path (notices.map (noticeAt now)) = 0 := by
  rw [starts, List.countP_map, List.countP_eq_zero]
  intro notice _
  simp [startsAt, noticeAt]

/-- The executions that begin at a position in a child begin below its index in the parent. -/
theorem starts_map_under (index : Nat) (path : Path) (journal : Journal) :
    starts (index :: path) (journal.map (·.under index)) = starts path journal := by
  rw [starts, List.countP_map]
  refine List.countP_congr fun entry _ => ?_
  simp only [startsAt, Entry.under, Function.comp_apply]
  split <;> simp

/-- A journal without events about the root tells of no execution of it that begins. -/
theorem IsInner.starts_eq_zero {journal : Journal} (hinner : IsInner journal) :
    starts [] journal = 0 := by
  refine List.countP_eq_zero.mpr fun entry hmem hstarts => ?_
  unfold startsAt at hstarts
  split at hstarts
  · next hevent => exact hinner entry hmem _ hevent (by simpa using hstarts)
  · cases hstarts

/-- The entry for the beginning of an execution is about no node below. -/
theorem starts_entryOf_cons (index : Nat) (path : Path) (name : String) (run : Option Run)
    (world : World) : starts (index :: path) (entryOf name run world) = 0 := by
  cases run with
  | none => simp [starts, startsAt, entryOf, eventAt]
  | some run => rfl

end Journal

open Journal

/-- A sleep that is looked at ends, or it holds the node up from then on. -/
theorem attend_sleep {μ : Type} (mark : Nat) (timer : Timer) (below : μ) (world : World) :
    0 < world.waitsLeft ∧
        attend (.sleep mark timer) below world =
          { result := .signal (.woken mark), memory := below, world := world.endWait } ∨
      ∃ timer' world', world'.waitsLeft = world.waitsLeft ∧
        attend (.sleep mark timer) below world =
          { result := .stop (.waiting (.paused (.sleep mark timer'))), memory := below,
            world := world' } := by
  rw [attend]
  split
  · exact .inr ⟨timer, world.putOffWait, rfl, rfl⟩
  · next hleft =>
    split
    · exact .inl ⟨Nat.pos_of_ne_zero hleft, rfl⟩
    · refine .inr ?_
      dsimp only
      rw [World.startTimer]
      split
      · exact ⟨timer, world, rfl, rfl⟩
      · exact ⟨{ timer with order := some world.timersStarted },
          { world with timersStarted := world.timersStarted + 1 }, rfl, rfl⟩

/-- Attending to a pause leaves no entry in the journal. -/
theorem journal_attend {μ : Type} (pause : Pause) (below : μ) (world : World) :
    (attend pause below world).journal = [] := by
  unfold attend
  split
  · rfl
  · split
    · rfl
    · cases pause with
      | sleep mark timer => rfl
      | race task timer =>
        dsimp only
        split <;> rfl

/-- Advancing several children is about no node but the children and what is below them. -/
theorem isInner_advanceAll (trees : List (Tree κ)) (index : Nat) (slots : List (Slot Run))
    (memories : Memories trees) (world : World) :
    IsInner (advanceAll trees index slots memories world).journal := by
  induction trees generalizing index slots world with
  | nil =>
    cases memories
    exact isInner_nil
  | cons tree trees ih =>
    cases memories with
    | cons first rest =>
      match slots with
      | [] => exact isInner_nil
      | .answered status :: slots => exact ih (index + 1) slots rest world
      | .fresh :: slots =>
        rw [advanceAll, Progress.andThen_eq, Progress.journal_after]
        · refine (isInner_map_under index _).append ?_
          split
          · exact isInner_nil
          · exact ih (index + 1) slots rest _
          · exact ih (index + 1) slots rest _
        all_goals exact nofun
      | .waiting run :: slots =>
        rw [advanceAll, Progress.andThen_eq, Progress.journal_after]
        refine (isInner_map_under index _).append ?_
        split
        · exact isInner_nil
        · exact ih (index + 1) slots rest _
        · exact ih (index + 1) slots rest _

namespace Crew

variable {μ : Type} {crew : Crew μ}

/-- A tour of the called children is about no node but the children and what is below them. -/
theorem isInner_advanceCalled (crew : Crew μ) (fuel : Nat) (tour : Tour) (below : μ)
    (world : World) : IsInner (crew.advanceCalled fuel tour below world).journal := by
  induction fuel generalizing tour below world with
  | zero => exact isInner_nil
  | succ fuel ih =>
    rw [advanceCalled]
    split
    · exact isInner_nil
    · dsimp only
      split
      · exact ih _ _ _
      · rw [Progress.andThen_eq, Progress.journal_after]
        refine (isInner_map_under _ _).append ?_
        split
        · exact isInner_nil
        · exact ih _ _ _
        · split
          · exact isInner_nil
          · exact ih _ _ _

/-- Serving a request is about no node but the children and what is below them. -/
theorem isInner_serve
    (hall : ∀ slots below world, IsInner (crew.advanceAll slots below world).journal)
    (size : Nat) (request : Request) (below : μ) (world : World) :
    IsInner (crew.serve size request below world).journal := by
  cases request with
  | finish status => exact isInner_nil
  | crash => exact isInner_nil
  | run mark index => exact isInner_map_under index _
  | runAll =>
    rw [serve, beginAll]
    split
    · exact hall _ _ _
    · exact crew.isInner_advanceCalled _ _ _ _
  | sleep mark duration =>
    rw [serve, journal_attend]
    exact isInner_nil
  | race index limit =>
    rw [serve, Progress.journal_after, journal_attend]
    exact isInner_nil
  | resetChild index => exact isInner_map_under index _
  | abortChild index => exact isInner_map_under index _

/-- Taking up a suspended execution is about no node but the children and what is below them. -/
theorem isInner_recheck
    (hall : ∀ slots below world, IsInner (crew.advanceAll slots below world).journal)
    (run : Run) (below : μ) (world : World) : IsInner (crew.recheck run below world).journal := by
  cases run with
  | child mark index run => exact isInner_map_under index _
  | paused pause =>
    rw [recheck, journal_attend]
    exact isInner_nil
  | together slots => exact hall _ _ _
  | crowd id slots called => exact crew.isInner_advanceCalled _ _ _ _

/-- Driving a node is about no node but the children and what is below them, apart from notices. -/
theorem isInner_drive
    (hall : ∀ slots below world, IsInner (crew.advanceAll slots below world).journal)
    (name : String) (kind : Kind κ) (size fuel : Nat) (reply : Reply) (cell : Cell kind.State)
    (below : μ) (world : World) :
    IsInner (crew.drive name kind size fuel reply cell below world).journal := by
  induction fuel generalizing reply cell below world with
  | zero =>
    cases reply <;> exact isInner_nil
  | succ fuel ih =>
    cases reply with
    | stop outcome => exact isInner_nil
    | signal signal =>
      rw [drive_signal, Progress.journal_after]
      exact ((isInner_map_noticeAt _ _).append (isInner_serve hall _ _ _ _)).append (ih _ _ _ _)

end Crew

/-- Between the entries for its beginning and its end, a turn has no event about the node itself. -/
theorem isInner_turn (name : String) (kind : Kind κ) (children : List (Tree κ))
    (run : Option Run) (cell : Cell kind.State) (below : Memories children) (world : World) :
    IsInner (turnOf name kind children run cell below world).journal := by
  have hall : ∀ slots below world,
      IsInner ((crewOf children).advanceAll slots below world).journal :=
    isInner_advanceAll children 0
  cases run with
  | none => exact Crew.isInner_drive hall _ _ _ _ _ _ _ _
  | some run =>
    rw [turnOf, Progress.andThen_eq, Progress.journal_after]
    exact (Crew.isInner_recheck hall _ _ _).append (Crew.isInner_drive hall _ _ _ _ _ _ _ _)

/-- The entry for the end of an execution tells of none that begins. -/
theorem starts_exitEntry (path : Path) (name : String) {μ : Type} (kind : Kind κ)
    (progress : Progress Outcome (Cell kind.State × μ)) :
    starts path (exitEntry name kind progress) = 0 := by
  unfold exitEntry
  split <;> rfl

/-- A turn in which an execution begins has one entry for that, any other turn none. -/
theorem starts_nil_advance (tree : Tree κ) (run : Option Run) (memory : Memory tree)
    (world : World) :
    starts [] (advance tree run memory world).journal = if run = none then 1 else 0 := by
  obtain ⟨name, kind, children⟩ := tree
  cases memory with
  | node cell below =>
    rw [advance_eq]
    simp only [starts_append, starts_exitEntry,
      (isInner_turn name kind children run cell below world).starts_eq_zero]
    cases run <;> rfl

/-- The entries for the beginning and the end of an execution tell of none that begins below the
node. -/
theorem starts_cons_advance (index : Nat) (path : Path) (name : String) (kind : Kind κ)
    (children : List (Tree κ)) (run : Option Run) (cell : Cell kind.State)
    (below : Memories children) (world : World) :
    starts (index :: path) (advance ⟨name, kind, children⟩ run (.node cell below) world).journal =
      starts (index :: path) (turnOf name kind children run cell below world).journal := by
  rw [advance_eq]
  simp only [starts_append, starts_entryOf_cons, starts_exitEntry, Nat.zero_add, Nat.add_zero]

/-- A turn of the first child begins one execution of it, unless it takes one up. -/
theorem starts_advanceFirst (tree : Tree κ) (trees : List (Tree κ)) (run : Option Run)
    (below : Memories (tree :: trees)) (world : World) :
    starts [0] ((advanceChild (tree :: trees) 0 run below world).under 0).journal =
      if run = none then 1 else 0 := by
  cases below with
  | cons first rest =>
    rw [Progress.journal_under, starts_map_under, advanceChild, Progress.journal_map,
      starts_nil_advance]

end BehaviorTree
