import BehaviorTree.Proofs.Tree.Numbering

/-!
# A child raced against a time limit

A turn of a timeout that still may wait is one of a few: it begins the race, or finds its limit not
positive and gives up at once, and later it goes on waiting, takes the result of its child over or
gives up because the limit has come (`Timeout.turn_begins` to `Timeout.turn_expired`). It asks its
child to abort only when it gives up, and no turn of a tree asks the tree itself to abort
(`Journal.aborts_advanceAt`).
-/

namespace BehaviorTree

open Journal

variable {κ : Type} [Application κ]

/-! ## Looking at a race -/

/-- At the beginning of a turn a wait may end. -/
theorem World.waitsLeft_beginTurn (world : World) (party : Party) :
    (world.beginTurn party).waitsLeft ≠ 0 := (by decide : turnLength ≠ 0)

section

variable {μ : Type} {task : Nat} {timer : Timer} (below : μ) {world : World}

/-- A race whose limit has come expires, whatever the result of its child. -/
theorem attend_race_expired (hwaits : world.waitsLeft ≠ 0) (hdue : timer.due ≤ world.now) :
    attend (.race task timer) below world =
      { result := .signal .expired, memory := below, world := world.endWait } := by
  have hdue : (Pause.race task timer).timer.due ≤ world.now := hdue
  rw [attend, if_neg hwaits, if_pos hdue]

/-- What a race does within its limit depends on the result of its child. -/
theorem attend_race_within (hwaits : world.waitsLeft ≠ 0) (hdue : world.now < timer.due) :
    attend (.race task timer) below world =
      (world.result? task).elim
        { result := .stop (.waiting (.paused (world.startTimer (.race task timer)).1)),
          memory := below, world := (world.startTimer (.race task timer)).2 }
        fun result =>
          { result := .signal (.joined result), memory := below, world := world.endWait } := by
  have hdue : ¬ (Pause.race task timer).timer.due ≤ world.now := Nat.not_le.mpr hdue
  rw [attend, if_neg hwaits, if_neg hdue]
  cases world.result? task <;> rfl

/-- A race that is still within its limit takes the result of its child over once there is one. -/
theorem attend_race_joined {result : Option Status} (hwaits : world.waitsLeft ≠ 0)
    (hdue : world.now < timer.due) (hresult : world.result? task = some result) :
    attend (.race task timer) below world =
      { result := .signal (.joined result), memory := below, world := world.endWait } := by
  rw [attend_race_within below hwaits hdue, hresult]
  rfl

/-- A race that is still within its limit goes on as long as its child has no result. -/
theorem attend_race_waiting (hwaits : world.waitsLeft ≠ 0) (hdue : world.now < timer.due)
    (hresult : world.result? task = none) :
    attend (.race task timer) below world =
      { result := .stop (.waiting (.paused (world.startTimer (.race task timer)).1)),
        memory := below, world := (world.startTimer (.race task timer)).2 } := by
  rw [attend_race_within below hwaits hdue, hresult]
  rfl

end

/-! ## The turns of a timeout -/

namespace Timeout

section

variable {μ : Type} (crew : Crew μ) (name : String) (limit : Int)
  (cell : Cell (Kind.timeout limit : Kind κ).State) (below : μ) (world : World)

/-- What it leaves behind when the limit has come: the child has been asked to abort. -/
def expiry : Progress Outcome (Cell (Kind.timeout limit : Kind κ).State × μ) where
  result := .answered .failure
  memory := (cell, (crew.abort world.now 0 below).1)
  world := world.endWait
  journal := noticeAt world.now (.timedOut name limit) ::
    (crew.abort world.now 0 below).2.map (·.under 0)

/-- What is reported when the child has ended. -/
def report (now : Nat) : Option Status → Journal
  | some _ => []
  | none => [noticeAt now (.childTaskFailed name)]

/-- A timeout that is told that its limit has come asks its child to abort and answers failure. -/
theorem drive_expired (size fuel : Nat) :
    crew.drive name (.timeout limit : Kind κ) size (fuel + 2) (.signal .expired) cell below
        world.endWait = expiry crew name limit cell below world := by
  rw [Crew.drive_signal]
  dsimp only [Kind.respond, respond]
  rw [World.write_nil, Crew.serve]
  dsimp only
  rw [Crew.drive_signal]
  dsimp only [Kind.respond, respond, Move.finish]
  rw [World.write_nil, Crew.serve, Crew.drive_stop, expiry]
  simp only [Progress.after, List.append_nil, List.map_cons, List.map_nil, List.cons_append,
    List.nil_append, Bool.or_false]
  rfl

/-- A timeout that is told the result of its child answers with it, or failure if the child has
failed. -/
theorem drive_joined (size fuel : Nat) (result : Option Status) :
    crew.drive name (.timeout limit : Kind κ) size (fuel + 1) (.signal (.joined result)) cell below
        world =
      { result := .answered (result.getD .failure), memory := (cell, below), world,
        journal := report name world.now result } := by
  rw [Crew.drive_signal]
  cases result with
  | none =>
    dsimp only [Kind.respond, respond, Move.report]
    rw [World.write_nil, Crew.serve, Crew.drive_stop]
    rfl
  | some status =>
    dsimp only [Kind.respond, respond, Move.finish]
    rw [World.write_nil, Crew.serve, Crew.drive_stop]
    rfl

/-- The run of a timeout whose race goes on. -/
def racing (task due order : Nat) : Run := .paused (.race task ⟨due, some order⟩)

/-- An execution begins: the child is started as a task and the race goes on from now. -/
theorem turn_begins (hlimit : 0 < limit) (hwaits : world.waitsLeft ≠ 0)
    (hfresh : world.result? world.tasksStarted = none) :
    crew.turn name (.timeout limit : Kind κ) 1 none cell below world =
      { result := .waiting
          (racing world.tasksStarted (world.now + limit.toNat) world.timersStarted)
        memory := (cell, below)
        world := { world with
          tasksStarted := world.tasksStarted + 1, timersStarted := world.timersStarted + 1 }
        spawned := [⟨world.tasksStarted, [0]⟩] } := by
  let started := world.startTask.2
  have hdue : started.now < started.now + limit.toNat := Nat.lt_add_of_pos_right (by omega)
  have hattend := @attend_race_waiting μ world.tasksStarted ⟨started.now + limit.toNat, none⟩ below
    started hwaits hdue hfresh
  have hallowance : (Kind.timeout limit : Kind κ).allowance 1 = 3 + 1 := rfl
  rw [Crew.turn, hallowance, Crew.drive_signal]
  dsimp only [Kind.respond, respond]
  rw [if_neg Nat.one_ne_zero]
  dsimp only [Move.ask]
  rw [World.write_nil, Crew.serve]
  dsimp only
  have hnumber : world.startTask.1 = world.tasksStarted := rfl
  rw [hnumber, hattend]
  rfl

/-- An execution whose limit is not positive gives up at once. Its child is started all the same. -/
theorem turn_begins_expired (hlimit : limit ≤ 0) (hwaits : world.waitsLeft ≠ 0) :
    crew.turn name (.timeout limit : Kind κ) 1 none cell below world =
      { expiry crew name limit cell below { world with tasksStarted := world.tasksStarted + 1 } with
        spawned := [⟨world.tasksStarted, [0]⟩] } := by
  let started := world.startTask.2
  have hdue : started.now + limit.toNat ≤ started.now := by omega
  have hattend := @attend_race_expired μ world.tasksStarted ⟨started.now + limit.toNat, none⟩ below
    started hwaits hdue
  have hallowance : (Kind.timeout limit : Kind κ).allowance 1 = 3 + 1 := rfl
  rw [Crew.turn, hallowance, Crew.drive_signal]
  dsimp only [Kind.respond, respond]
  rw [if_neg Nat.one_ne_zero]
  dsimp only [Move.ask]
  rw [World.write_nil, Crew.serve]
  dsimp only
  have hnumber : world.startTask.1 = world.tasksStarted := rfl
  rw [hnumber, hattend]
  dsimp only [Progress.after]
  rw [drive_expired]
  rfl

variable {task due order : Nat}

/-- When the limit has come, the child is asked to abort and the node fails. -/
theorem turn_expired (hwaits : world.waitsLeft ≠ 0) (hdue : due ≤ world.now) :
    crew.turn name (.timeout limit : Kind κ) 1 (some (racing task due order)) cell below world =
      expiry crew name limit cell below world := by
  have hattend := @attend_race_expired μ task ⟨due, some order⟩ below world hwaits hdue
  have hallowance : (Kind.timeout limit : Kind κ).allowance 1 = 2 + 2 := rfl
  rw [Crew.turn, racing]
  dsimp only [Crew.recheck]
  rw [hattend, hallowance, Progress.andThen_eq]
  dsimp only
  rw [drive_expired]
  rfl

/-- When the child has ended before the limit, the node answers what the child did. -/
theorem turn_joined {result : Option Status} (hwaits : world.waitsLeft ≠ 0)
    (hdue : world.now < due) (hresult : world.result? task = some result) :
    crew.turn name (.timeout limit : Kind κ) 1 (some (racing task due order)) cell below world =
      { result := .answered (result.getD .failure), memory := (cell, below),
        world := world.endWait, journal := report name world.now result } := by
  have hattend := @attend_race_joined μ task ⟨due, some order⟩ below world result hwaits hdue
    hresult
  have hallowance : (Kind.timeout limit : Kind κ).allowance 1 = 3 + 1 := rfl
  rw [Crew.turn, racing]
  dsimp only [Crew.recheck]
  rw [hattend, hallowance, Progress.andThen_eq]
  dsimp only
  rw [drive_joined]
  rfl

/-- Neither has happened, and the execution goes on waiting. -/
theorem turn_racing (hwaits : world.waitsLeft ≠ 0) (hdue : world.now < due)
    (hresult : world.result? task = none) :
    crew.turn name (.timeout limit : Kind κ) 1 (some (racing task due order)) cell below world =
      { result := .waiting (racing task due order), memory := (cell, below), world } := by
  have hattend := @attend_race_waiting μ task ⟨due, some order⟩ below world hwaits hdue hresult
  rw [Crew.turn, racing]
  dsimp only [Crew.recheck]
  rw [hattend, Progress.andThen_eq]
  dsimp only
  rw [Crew.drive_stop]
  rfl

end

end Timeout

/-! ## Who is asked to abort -/

namespace Journal

/-- Whether an entry is for a call of abort at a position. -/
def abortsAt (path : Path) (entry : Entry) : Bool :=
  match entry.happening with
  | .event (.abortBegun _) => entry.path = path
  | _ => false

/-- How often the node at a position is asked to abort. -/
def aborts (path : Path) (journal : Journal) : Nat := journal.countP (abortsAt path)

/-- Nobody is asked to abort in an empty journal. -/
@[simp] theorem aborts_nil (path : Path) : aborts path [] = 0 := rfl

/-- The calls of abort in two journals add up. -/
@[simp] theorem aborts_append (path : Path) (first rest : Journal) :
    aborts path (first ++ rest) = aborts path first + aborts path rest :=
  List.countP_append

/-- A notice is no call of abort. -/
@[simp] theorem aborts_notice (path : Path) (now : Nat) (notice : Notice) (rest : Journal) :
    aborts path (noticeAt now notice :: rest) = aborts path rest :=
  List.countP_cons_of_neg (by simp [abortsAt, noticeAt])

/-- The calls of abort at a position in a child count below its index in the parent. -/
theorem aborts_map_under (index : Nat) (path : Path) (journal : Journal) :
    aborts (index :: path) (journal.map (·.under index)) = aborts path journal := by
  rw [aborts, List.countP_map]
  refine List.countP_congr fun entry _ => ?_
  simp only [abortsAt, Entry.under, Function.comp_apply]
  split <;> simp

/-- No call of abort in one child is at a position in another. -/
theorem aborts_map_under_of_ne {index other : Nat} (hne : index ≠ other) (path : Path)
    (journal : Journal) : aborts (index :: path) (journal.map (·.under other)) = 0 := by
  rw [aborts, List.countP_map, List.countP_eq_zero]
  intro entry _
  simp only [abortsAt, Entry.under, Function.comp_apply]
  split <;> simp [hne.symm]

/-- A journal without events about the root has no call of abort for it. -/
theorem IsInner.aborts_eq_zero {journal : Journal} (hinner : IsInner journal) :
    aborts [] journal = 0 := by
  refine List.countP_eq_zero.mpr fun entry hmem haborts => ?_
  unfold abortsAt at haborts
  split at haborts
  · next hevent => exact hinner entry hmem _ hevent (by simpa using haborts)
  · cases haborts

/-- The entry for the beginning of an execution is no call of abort. -/
@[simp] theorem aborts_entryOf (path : Path) (name : String) (run : Option Run) (world : World) :
    aborts path (entryOf name run world) = 0 := by
  cases run <;> rfl

/-- The entry for the end of an execution is no call of abort. -/
@[simp] theorem aborts_exitEntry (path : Path) (name : String) {μ : Type} (kind : Kind κ)
    (progress : Progress Outcome (Cell kind.State × μ)) :
    aborts path (exitEntry name kind progress) = 0 := by
  unfold exitEntry
  split <;> rfl

/-- A turn of a tree does not ask the tree itself to abort. -/
theorem aborts_advance (tree : Tree κ) (run : Option Run) (memory : Memory tree) (world : World) :
    aborts [] (advance tree run memory world).journal = 0 := by
  obtain ⟨name, kind, children⟩ := tree
  cases memory with
  | node cell below =>
    rw [advance_eq]
    simp only [aborts_append, aborts_entryOf, aborts_exitEntry,
      (isInner_turn name kind children run cell below world).aborts_eq_zero]

/-- Executing the tree at a position asks the root for no abort. -/
theorem aborts_advanceAt_nil (tree : Tree κ) (path : Path) (run : Option Run)
    (memory : Memory tree) (world : World) :
    aborts [] (advanceAt tree path run memory world).journal = 0 := by
  cases path with
  | nil =>
    rw [advanceAt_nil]
    exact aborts_advance tree run memory world
  | cons index path =>
    cases memory with
    | node cell below => exact (isInner_map_under index _).aborts_eq_zero

/-- A turn of a tree below the root does not ask a child of the root to abort. -/
theorem aborts_advanceAt {tree : Tree κ} {path : Path} (hpath : path ≠ []) (index : Nat)
    (run : Option Run) (memory : Memory tree) (world : World) :
    aborts [index] (advanceAt tree path run memory world).journal = 0 := by
  have hinner : ∀ (trees : List (Tree κ)) (index : Nat) (path : Path) (below : Memories trees),
      aborts [] (advanceAt.advanceIn trees index path run below world).journal = 0 := by
    intro trees
    induction trees with
    | nil =>
      intro index path below
      cases below
      rfl
    | cons first trees ih =>
      intro index path below
      cases below with
      | cons memory rest =>
        cases index with
        | zero => exact aborts_advanceAt_nil first path run memory world
        | succ index => exact ih index path rest
  obtain ⟨child, path, rfl⟩ := List.exists_cons_of_ne_nil hpath
  cases memory with
  | node cell below =>
    by_cases hchild : index = child
    · subst hchild
      exact (aborts_map_under index [] _).trans (hinner _ index path below)
    · exact aborts_map_under_of_ne hchild [] _

/-- An abort of the children is about no node but the children and what is below them. -/
theorem isInner_abort {trees : List (Tree κ)} (now index : Nat) (below : Memories trees) :
    IsInner (below.abort now index).2 := by
  induction trees generalizing index with
  | nil =>
    cases below
    exact isInner_nil
  | cons tree trees ih =>
    cases below with
    | cons first rest =>
      rw [Memories.abort_cons]
      exact (isInner_map_under index _).append (ih (index + 1) rest)

/-- A tree is asked to abort once. -/
theorem aborts_abort {tree : Tree κ} (now : Nat) (memory : Memory tree) :
    aborts [] (memory.abort now).2 = 1 := by
  obtain ⟨name, kind, children⟩ := tree
  cases memory with
  | node cell below =>
    have hbelow : IsInner (if kind.relays then below.abort now 0 else (below, [])).2 := by
      split
      · exact isInner_abort now 0 below
      · exact isInner_nil
    rw [Memory.abort_node]
    dsimp only
    rw [aborts_append, aborts, List.countP_cons_of_pos (by rfl), ← aborts, hbelow.aborts_eq_zero]
    rfl

end Journal

/-! ## A timeout with its child -/

/-- A timeout that has its child. -/
def timeoutOf (name : String) (limit : Int) (child : Tree κ) : Tree κ :=
  ⟨name, .timeout limit, [child]⟩

namespace Timeout

variable {name : String} {limit : Int} {child : Tree κ}

/-- The memory after the child has been asked to abort. -/
def childAborted (now : Nat) :
    Memory (timeoutOf name limit child) → Memory (timeoutOf name limit child)
  | .node cell below => .node cell (below.abortChild now 0).1

/-- A timeout that gives up asks its child to abort once. -/
theorem aborts_expiry (cell : Cell (Kind.timeout limit : Kind κ).State) (below : Memories [child])
    (world : World) :
    aborts [0] (expiry (crewOf [child]) name limit cell below world).journal = 1 := by
  cases below with
  | cons first rest =>
    rw [expiry, aborts_notice]
    exact (aborts_map_under 0 [] _).trans (aborts_abort world.now first)

/-- The report on the end of the child is no call of abort. -/
theorem aborts_report (name : String) (now : Nat) (result : Option Status) :
    aborts [0] (report name now result) = 0 := by
  cases result <;> rfl

/-- A turn of the tree is a turn of the timeout, with the entries for beginning and end. -/
theorem advance_node (run : Option Run) (cell : Cell (Kind.timeout limit : Kind κ).State)
    (below : Memories [child]) (world : World) :
    advance (timeoutOf name limit child) run (.node cell below) world =
      let turn := (crewOf [child]).turn name (.timeout limit) 1 run cell below world
      { result := turn.result
        memory := .node turn.memory.1 turn.memory.2
        world := turn.world
        journal := entryOf name run world ++ turn.journal ++ exitEntry name (.timeout limit) turn
        spawned := turn.spawned
        again := turn.again } :=
  advance_eq name (.timeout limit) [child] run cell below world

variable (memory : Memory (timeoutOf name limit child)) {world : World}

/-- An execution with a positive limit begins by starting the task of the child and the race. -/
theorem advance_begins (hlimit : 0 < limit) (hwaits : world.waitsLeft ≠ 0)
    (hfresh : world.result? world.tasksStarted = none) :
    advance (timeoutOf name limit child) none memory world =
      { result := .waiting
          (racing world.tasksStarted (world.now + limit.toNat) world.timersStarted)
        memory
        world := { world with
          tasksStarted := world.tasksStarted + 1, timersStarted := world.timersStarted + 1 }
        journal := [eventAt world.now (.entered name)]
        spawned := [⟨world.tasksStarted, [0]⟩] } := by
  cases memory with
  | node cell below =>
    rw [advance_node, turn_begins _ _ _ _ _ _ hlimit hwaits hfresh]
    rfl

/-- An execution with a limit that is not positive ends at once and asks the child to abort once. -/
theorem advance_begins_expired (hlimit : limit ≤ 0) (hwaits : world.waitsLeft ≠ 0) :
    ∃ journal, aborts [0] journal = 1 ∧
      advance (timeoutOf name limit child) none memory world =
        { result := .answered .failure
          memory := childAborted world.now memory
          world := World.endWait { world with tasksStarted := world.tasksStarted + 1 }
          journal
          spawned := [⟨world.tasksStarted, [0]⟩] } := by
  cases memory with
  | node cell below =>
    rw [advance_node, turn_begins_expired _ _ _ _ _ _ hlimit hwaits]
    refine ⟨_, ?_, rfl⟩
    simp only [aborts_append, aborts_entryOf, aborts_exitEntry, aborts_expiry]

variable {task due order : Nat}

/-- A race whose limit has come ends with failure, and the child is asked to abort once. -/
theorem advance_expired (hwaits : world.waitsLeft ≠ 0) (hdue : due ≤ world.now) :
    ∃ journal, aborts [0] journal = 1 ∧
      advance (timeoutOf name limit child) (some (racing task due order)) memory world =
        { result := .answered .failure
          memory := childAborted world.now memory
          world := world.endWait
          journal } := by
  cases memory with
  | node cell below =>
    rw [advance_node, turn_expired _ _ _ _ _ _ hwaits hdue]
    refine ⟨_, ?_, rfl⟩
    simp only [aborts_append, aborts_entryOf, aborts_exitEntry, aborts_expiry]

/-- A race whose child has a result within the limit ends with it, and nobody is asked to abort. -/
theorem advance_joined {result : Option Status} (hwaits : world.waitsLeft ≠ 0)
    (hdue : world.now < due) (hresult : world.result? task = some result) :
    ∃ journal, aborts [0] journal = 0 ∧
      advance (timeoutOf name limit child) (some (racing task due order)) memory world =
        { result := .answered (result.getD .failure), memory, world := world.endWait,
          journal } := by
  cases memory with
  | node cell below =>
    rw [advance_node, turn_joined _ _ _ _ _ _ hwaits hdue hresult]
    refine ⟨_, ?_, rfl⟩
    simp only [aborts_append, aborts_entryOf, aborts_exitEntry, aborts_report]

/-- A race whose child has no result within the limit goes on, and nobody is asked to abort. -/
theorem advance_racing (hwaits : world.waitsLeft ≠ 0) (hdue : world.now < due)
    (hresult : world.result? task = none) :
    advance (timeoutOf name limit child) (some (racing task due order)) memory world =
      { result := .waiting (racing task due order), memory, world } := by
  cases memory with
  | node cell below =>
    rw [advance_node, turn_racing _ _ _ _ _ _ hwaits hdue hresult]
    rfl

/-- An execution is a race whenever it waits. -/
def IsRace (run : Run) : Prop := ∃ task due order, run = racing task due order

/-- The run of a timeout whose race goes on is a race. -/
theorem isRace_racing (task due order : Nat) : IsRace (racing task due order) :=
  ⟨task, due, order, rfl⟩

/-- What a turn of a timeout leaves to a later turn is a race, and no wait is put off. -/
theorem isRace_advance {run : Option Run} (hrun : ∀ held, run = some held → IsRace held)
    (hwaits : world.waitsLeft ≠ 0) (hfresh : world.result? world.tasksStarted = none) :
    let progress := advance (timeoutOf name limit child) run memory world
    (∀ held, progress.result = .waiting held → IsRace held) ∧
      progress.world.putOff = world.putOff := by
  have hanswered : ∀ (status : Status) (held : Run),
      (.answered status : Outcome) = .waiting held → IsRace held := by
    intro status held hheld
    cases hheld
  have hwaiting : ∀ task due order held,
      (.waiting (racing task due order) : Outcome) = .waiting held → IsRace held := by
    intro task due order held hheld
    cases hheld
    exact isRace_racing task due order
  cases run with
  | none =>
    by_cases hlimit : 0 < limit
    · rw [advance_begins memory hlimit hwaits hfresh]
      exact ⟨hwaiting _ _ _, rfl⟩
    · obtain ⟨journal, -, hturn⟩ := advance_begins_expired memory (by omega) hwaits
      rw [hturn]
      exact ⟨hanswered _, rfl⟩
  | some run =>
    obtain ⟨task, due, order, rfl⟩ := hrun run rfl
    by_cases hdue : due ≤ world.now
    · obtain ⟨journal, -, hturn⟩ := @advance_expired κ _ name limit child memory world task due
        order hwaits hdue
      rw [hturn]
      exact ⟨hanswered _, rfl⟩
    · have hearly : world.now < due := by omega
      cases hresult : world.result? task with
      | none =>
        rw [advance_racing memory hwaits hearly hresult]
        exact ⟨hwaiting _ _ _, rfl⟩
      | some result =>
        obtain ⟨journal, -, hturn⟩ := @advance_joined κ _ name limit child memory world task due
          order result hwaits hearly hresult
        rw [hturn]
        exact ⟨hanswered _, rfl⟩

end Timeout

end BehaviorTree
