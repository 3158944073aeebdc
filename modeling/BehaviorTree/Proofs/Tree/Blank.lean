import BehaviorTree.Proofs.Tree.Beginning

/-!
# Nodes that begin from scratch

A node is blank if what it shows of its state is zero. If a node is blank and no suspended execution
is inside it, then it stays so until its first execution begins, which therefore begins from scratch
(`beginsBlank`). A reset makes every node blank that it reaches.
-/

namespace BehaviorTree

variable {κ : Type} [Application κ] {μ ν : Type}

/-- The number that a gauge shows. -/
def Gauge.number : Gauge → Nat
  | cursor position => position
  | attempt count => count
  | iteration count => count

/-- The node shows zero, if it shows anything. -/
def IsBlankGauge (gauge? : Option Gauge) : Prop := ∀ gauge, gauge? = some gauge → gauge.number = 0

namespace Kind

variable {kind : Kind κ}

/-- A node that has never moved is blank. -/
theorem isBlank_initial (kind : Kind κ) : IsBlankGauge (kind.gauge? kind.initial) := by
  intro gauge hgauge
  cases kind <;> cases hgauge <;> rfl

/-- An abort leaves a blank node blank. -/
theorem isBlank_aborted {state : kind.State} (hblank : IsBlankGauge (kind.gauge? state)) :
    IsBlankGauge (kind.gauge? (kind.aborted state)) := by
  cases kind with
  | sequence | selector => exact hblank
  | retryUntilSuccess settings => exact isBlank_initial (.retryUntilSuccess settings : Kind κ)
  | repeating settings => exact isBlank_initial (.repeating settings : Kind κ)
  | _ => exact nofun

/-- A reset leaves a node blank. -/
theorem isBlank_restored (state : kind.State) :
    IsBlankGauge (kind.gauge? (kind.restored state)) := by
  cases kind with
  | custom node => exact nofun
  | _ => exact isBlank_initial _

end Kind

mutual

/-- The node at a position is blank, if there is one. -/
def Memory.IsBlankAt : {tree : Tree κ} → Path → Memory tree → Prop
  | ⟨_, kind, _⟩, [], .node cell _ => IsBlankGauge (kind.gauge? cell.state)
  | ⟨_, _, _⟩, index :: path, .node _ below => Memories.AreBlankAt index path below

/-- The node at a position inside the child with an index is blank, if there is one. -/
def Memories.AreBlankAt : {trees : List (Tree κ)} → Nat → Path → Memories trees → Prop
  | [], _, _, .nil => True
  | _ :: _, 0, path, .cons first _ => Memory.IsBlankAt path first
  | _ :: _, index + 1, path, .cons _ rest => Memories.AreBlankAt index path rest

end

/-! ## Abort and reset -/

mutual

/-- An abort leaves the node at a position blank if it was. -/
theorem Memory.IsBlankAt.abort (now : Nat) : {tree : Tree κ} → {memory : Memory tree} →
    {path : Path} → memory.IsBlankAt path → (memory.abort now).1.IsBlankAt path
  | ⟨_, _, _⟩, .node _ _, [], hblank => Kind.isBlank_aborted hblank
  | ⟨_, _, _⟩, .node _ _, _ :: _, hblank => by
    rw [Memory.abort_node]
    dsimp only
    split
    · exact Memories.AreBlankAt.abort now 0 hblank
    · exact hblank

/-- An abort of all children leaves the node at a position blank if it was. -/
theorem Memories.AreBlankAt.abort (now start : Nat) : {trees : List (Tree κ)} →
    {memories : Memories trees} → {index : Nat} → {path : Path} →
      memories.AreBlankAt index path → (memories.abort now start).1.AreBlankAt index path
  | [], .nil, _, _, _ => trivial
  | _ :: _, .cons _ _, 0, _, hblank => Memory.IsBlankAt.abort now hblank
  | _ :: _, .cons _ _, _ + 1, _, hblank => Memories.AreBlankAt.abort now (start + 1) hblank

end

mutual

/-- A reset leaves the node at a position blank if it was. -/
theorem Memory.IsBlankAt.reset (now : Nat) : {tree : Tree κ} → {memory : Memory tree} →
    {path : Path} → memory.IsBlankAt path → (memory.reset now).1.IsBlankAt path
  | ⟨_, _, _⟩, .node _ _, [], _ => Kind.isBlank_restored _
  | ⟨_, _, _⟩, .node _ _, _ :: _, hblank => by
    rw [Memory.reset_node]
    dsimp only
    split
    · exact Memories.AreBlankAt.reset now 0 hblank
    · exact hblank

/-- A reset of all children leaves the node at a position blank if it was. -/
theorem Memories.AreBlankAt.reset (now start : Nat) : {trees : List (Tree κ)} →
    {memories : Memories trees} → {index : Nat} → {path : Path} →
      memories.AreBlankAt index path → (memories.reset now start).1.AreBlankAt index path
  | [], .nil, _, _, _ => trivial
  | _ :: _, .cons _ _, 0, _, hblank => Memory.IsBlankAt.reset now hblank
  | _ :: _, .cons _ _, _ + 1, _, hblank => Memories.AreBlankAt.reset now (start + 1) hblank

end

mutual

/-- Abort and reset reach every node: only leaves may be of an application. -/
def Tree.IsRelayed : Tree κ → Prop
  | ⟨_, kind, children⟩ => (kind.relays ∨ children = []) ∧ Tree.AreRelayed children

/-- Abort and reset reach every node of the trees. -/
def Tree.AreRelayed : List (Tree κ) → Prop
  | [] => True
  | tree :: trees => tree.IsRelayed ∧ Tree.AreRelayed trees

end

mutual

/-- A reset makes every node blank that it reaches. -/
theorem Memory.isBlankAt_reset (now : Nat) : {tree : Tree κ} → tree.IsRelayed →
    (memory : Memory tree) → (path : Path) → (memory.reset now).1.IsBlankAt path
  | ⟨_, _, _⟩, _, .node _ _, [] => Kind.isBlank_restored _
  | ⟨_, _, _⟩, hrelayed, .node _ below, index :: path => by
    have hbelow := Memories.areBlankAt_reset now 0 hrelayed.2 below index path
    rw [Memory.reset_node]
    dsimp only
    split
    · exact hbelow
    · next hrelays =>
      obtain rfl := hrelayed.1.resolve_left hrelays
      cases below
      trivial

/-- A reset of all children leaves the node at every position inside them blank. -/
theorem Memories.areBlankAt_reset (now start : Nat) : {trees : List (Tree κ)} →
    Tree.AreRelayed trees → (memories : Memories trees) → (index : Nat) → (path : Path) →
      (memories.reset now start).1.AreBlankAt index path
  | [], _, .nil, _, _ => trivial
  | _ :: _, hrelayed, .cons first _, 0, path => Memory.isBlankAt_reset now hrelayed.1 first path
  | _ :: _, hrelayed, .cons _ rest, index + 1, path =>
    Memories.areBlankAt_reset now (start + 1) hrelayed.2 rest index path

end

/-- An abort of one child leaves the node at a position blank if it was. -/
theorem Memories.AreBlankAt.abortChild (now : Nat) : {trees : List (Tree κ)} →
    {memories : Memories trees} → {index : Nat} → {path : Path} → (child : Nat) →
      memories.AreBlankAt index path → (memories.abortChild now child).1.AreBlankAt index path
  | [], .nil, _, _, child, _ => by cases child <;> trivial
  | _ :: _, .cons _ _, 0, _, 0, hblank => Memory.IsBlankAt.abort now hblank
  | _ :: _, .cons _ _, 0, _, _ + 1, hblank => hblank
  | _ :: _, .cons _ _, _ + 1, _, 0, hblank => hblank
  | _ :: _, .cons _ _, _ + 1, _, child + 1, hblank => abortChild now child hblank

/-- A reset of one child leaves the node at a position blank if it was. -/
theorem Memories.AreBlankAt.resetChild (now : Nat) : {trees : List (Tree κ)} →
    {memories : Memories trees} → {index : Nat} → {path : Path} → (child : Nat) →
      memories.AreBlankAt index path → (memories.resetChild now child).1.AreBlankAt index path
  | [], .nil, _, _, child, _ => by cases child <;> trivial
  | _ :: _, .cons _ _, 0, _, 0, hblank => Memory.IsBlankAt.reset now hblank
  | _ :: _, .cons _ _, 0, _, _ + 1, hblank => hblank
  | _ :: _, .cons _ _, _ + 1, _, 0, hblank => hblank
  | _ :: _, .cons _ _, _ + 1, _, child + 1, hblank => resetChild now child hblank

/-! ## Runs that are inside a node -/

/-- A suspended execution is inside the node at a position. -/
def Run.Passes : Path → Run → Prop
  | [], _ => True
  | index :: path, .child _ position run => position = index ∧ run.Passes path
  | _ :: _, .paused _ => False
  | index :: path, .together slots => ∃ run, slots[index]? = some (.waiting run) ∧ run.Passes path
  | index :: path, .crowd _ slots _ => ∃ run, slots[index]? = some (.waiting run) ∧ run.Passes path

/-- A child is suspended after a call exactly if it was before, with its run notified of the
call. -/
theorem getElem?_notifySlots (call : Call) (slots : List (Slot Run)) (index : Nat) (run : Run) :
    (notifySlots call slots)[index]? = some (.waiting run) ↔
      ∃ held, slots[index]? = some (.waiting held) ∧ run = held.notify call := by
  induction slots generalizing index with
  | nil => simp [notifySlots]
  | cons slot slots ih =>
    cases index with
    | zero => cases slot <;> simp [notifySlots, eq_comm]
    | succ index => cases slot <;> simpa [notifySlots] using ih index

/-- Passing a call on does not move a suspended execution. -/
theorem Run.passes_notify (call : Call) (path : Path) (run : Run) :
    (run.notify call).Passes path ↔ run.Passes path := by
  induction path generalizing run with
  | nil => cases run <;> exact Iff.rfl
  | cons index path ih =>
    have hslots : ∀ slots : List (Slot Run),
        (∃ run, (notifySlots call slots)[index]? = some (.waiting run) ∧ run.Passes path) ↔
          ∃ run, slots[index]? = some (.waiting run) ∧ run.Passes path := by
      intro slots
      constructor
      · rintro ⟨run, hrun, hpasses⟩
        obtain ⟨held, hheld, rfl⟩ := (getElem?_notifySlots call slots index run).mp hrun
        exact ⟨held, hheld, (ih held).mp hpasses⟩
      · rintro ⟨held, hheld, hpasses⟩
        exact ⟨held.notify call, (getElem?_notifySlots call slots index _).mpr ⟨held, hheld, rfl⟩,
          (ih held).mpr hpasses⟩
    cases run with
    | child mark position run => exact and_congr_right fun _ => ih run
    | paused pause => exact Iff.rfl
    | together slots => exact hslots slots
    | crowd id slots called => exact hslots slots

/-! ## The first execution of a node -/

/-- The first beginning at a position. -/
def firstAt (path : Path) (begun : List Beginning) : Option Beginning :=
  begun.find? fun beginning => beginning.path = path

/-- The first beginning in two lists is that in the first of them, or else that in the second. -/
theorem firstAt_append (path : Path) (first rest : List Beginning) :
    firstAt path (first ++ rest) = (firstAt path first).or (firstAt path rest) :=
  List.find?_append

/-- Seen from the parent, the first beginning at a position is below the child. -/
theorem firstAt_under (index : Nat) (path : Path) (begun : List Beginning) :
    firstAt (index :: path) (begun.map (·.under index)) =
      (firstAt path begun).map (·.under index) := by
  rw [firstAt, List.find?_map]
  congr 2
  funext beginning
  simp [Beginning.under]

/-- Seen from the parent, no beginning in one child is at a position in another. -/
theorem firstAt_under_of_ne {index child : Nat} (hne : child ≠ index) (path : Path)
    (begun : List Beginning) : firstAt (index :: path) (begun.map (·.under child)) = none := by
  rw [firstAt, List.find?_eq_none]
  intro beginning hmem
  obtain ⟨inner, -, rfl⟩ := List.mem_map.mp hmem
  simp [Beginning.under, hne]

/-- Seen from the parent, no beginning in a child is that of the root. -/
theorem firstAt_nil_under (index : Nat) (begun : List Beginning) :
    firstAt [] (begun.map (·.under index)) = none := by
  rw [firstAt, List.find?_eq_none]
  intro beginning hmem
  obtain ⟨inner, -, rfl⟩ := List.mem_map.mp hmem
  simp [Beginning.under]

/-- The beginning of the root is that of no node below it. -/
theorem firstAt_cons_beginningOf (index : Nat) (path : Path) (kind : Kind κ) (state : kind.State)
    (run : Option Run) : firstAt (index :: path) (beginningOf kind state run) = none := by
  cases run with
  | none => simp [firstAt, beginningOf]
  | some run => rfl

/-- In a stretch of execution the node at a position stays blank until its first execution begins,
and then that begins from scratch. As long as none has begun, what is suspended is allowed. -/
structure StaysBlank (path : Path) (allows : Run → Prop) (blank : μ → Prop)
    (progress : Progress Outcome (Noted μ)) : Prop where
  /-- The first execution of the node begins from scratch. -/
  first : ∀ beginning, firstAt path progress.memory.begun = some beginning →
    IsBlankGauge beginning.gauge
  /-- The node is blank as long as none has begun. -/
  memory : firstAt path progress.memory.begun = none → blank progress.memory.memory
  /-- What is suspended before the first execution is allowed. -/
  waits : firstAt path progress.memory.begun = none →
    ∀ held, progress.result = .waiting held → allows held

/-- The node at a position begins from scratch, if nothing is kept in it or inside it. -/
def Tree.BeginsBlank (tree : Tree κ) (path : Path) : Prop :=
  ∀ run (memory : Memory tree) world, memory.IsBlankAt path →
    (∀ held, run = some held → ¬ held.Passes path) →
      StaysBlank path (¬ ·.Passes path) (Memory.IsBlankAt path) (watch tree run memory world)

/-- What holds of the child that has a turn holds of all children. -/
theorem stays_watchIn {trees : List (Tree κ)} {path : Path} (position : Path) {allows : Run → Prop}
    (htrees : ∀ tree ∈ trees, ∀ run (memory : Memory tree) world, memory.IsBlankAt path →
      (∀ held, run = some held → allows held) →
        StaysBlank path allows (Memory.IsBlankAt path) (watchAt position run memory world))
    (index : Nat) (run : Option Run) {below : Memories trees} (world : World)
    (hblank : below.AreBlankAt index path) (hrun : ∀ held, run = some held → allows held) :
    StaysBlank path allows (Memories.AreBlankAt index path)
      (watchIn index position run below world) := by
  induction trees generalizing index with
  | nil =>
    cases below
    rw [watchIn]
    exact ⟨nofun, fun _ => trivial, fun _ => nofun⟩
  | cons tree trees ih =>
    cases below with
    | cons first rest =>
      cases index with
      | zero =>
        have hfirst := htrees tree (by simp) run first world hblank hrun
        rw [watchIn]
        exact ⟨hfirst.first, hfirst.memory, hfirst.waits⟩
      | succ index =>
        have hrest := ih (fun tree hmem => htrees tree (List.mem_cons_of_mem _ hmem)) index hblank
        rw [watchIn]
        exact ⟨hrest.first, hrest.memory, hrest.waits⟩

/-- Executing one child keeps the node at a position blank until its first execution begins. -/
theorem stays_watchChild {trees : List (Tree κ)} {path : Path}
    (htrees : ∀ tree ∈ trees, tree.BeginsBlank path) (index : Nat) (run : Option Run)
    {below : Memories trees} (world : World) (hblank : below.AreBlankAt index path)
    (hrun : ∀ held, run = some held → ¬ held.Passes path) :
    StaysBlank path (¬ ·.Passes path) (Memories.AreBlankAt index path)
      (watchChild trees index run below world) := by
  rw [← watchIn_nil]
  refine stays_watchIn [] (fun tree hmem run memory world hblank hrun => ?_) index run world hblank
    hrun
  rw [watchAt]
  exact htrees tree hmem run memory world hblank hrun

/-- A turn inside another child leaves the node alone. -/
theorem areBlankAt_watchIn {trees : List (Tree κ)} {path : Path} {index child : Nat}
    (hne : child ≠ index) (position : Path) (run : Option Run) {below : Memories trees}
    (world : World) (hblank : below.AreBlankAt index path) :
    (watchIn child position run below world).memory.memory.AreBlankAt index path := by
  induction trees generalizing index child with
  | nil =>
    cases below
    rw [watchIn]
    trivial
  | cons tree trees ih =>
    cases below with
    | cons first rest =>
      rw [watchIn.eq_def]
      cases index with
      | zero =>
        cases child with
        | zero => exact absurd rfl hne
        | succ child => exact hblank
      | succ index =>
        cases child with
        | zero => exact hblank
        | succ child => exact ih (fun heq => hne (congrArg (· + 1) heq)) hblank

/-- What the children keep to: the node at a position inside the child with an index is blank until
its first execution begins, and no other is inside it. -/
def blankUpkeep (trees : List (Tree κ)) (index : Nat) (path : Path) :
    Upkeep (Noted (Memories trees)) where
  holds := fun noted _ =>
    (∀ beginning, firstAt (index :: path) noted.begun = some beginning →
      IsBlankGauge beginning.gauge) ∧
      (firstAt (index :: path) noted.begun = none → noted.memory.AreBlankAt index path)
  allows := fun child run noted =>
    firstAt (index :: path) noted.begun = none → child = index → ¬ run.Passes path

section

variable {trees : List (Tree κ)} {index : Nat} {path : Path}

/-- The children keep to what a suspended child allows. -/
theorem childWaits_blankUpkeep {child : Nat} {outcome : Outcome} {noted : Noted (Memories trees)}
    (hwaits : ∀ held, outcome = .waiting held →
      (blankUpkeep trees index path).allows child held noted) :
    (blankUpkeep trees index path).ChildWaits child outcome noted := by
  cases outcome with
  | answered status => trivial
  | waiting held => exact hwaits held rfl
  | failed fault => trivial

/-- Once an execution of the node has begun, the upkeep asks for nothing more. -/
theorem keeps_of_begun {ρ : Type} {waits : ρ → Noted (Memories trees) → Prop}
    {noted : Noted (Memories trees)} {progress : Progress ρ (Noted (Memories trees))}
    {beginning : Beginning}
    (hfirst : firstAt (index :: path) progress.memory.begun = some beginning)
    (hblank : IsBlankGauge beginning.gauge) (hwaits : waits progress.result progress.memory) :
    (blankUpkeep trees index path).Keeps waits noted progress := by
  have hbegun : ¬ firstAt (index :: path) progress.memory.begun = none := by
    rw [hfirst]
    exact nofun
  refine ⟨⟨fun other hother => ?_, fun hnone => absurd hnone hbegun⟩,
    fun _ _ _ hnone => absurd hnone hbegun, hwaits⟩
  cases hfirst.symm.trans hother
  exact hblank

/-- As long as none has begun, the node stays blank. -/
theorem keeps_of_quiet {ρ : Type} {waits : ρ → Noted (Memories trees) → Prop}
    {noted : Noted (Memories trees)} {progress : Progress ρ (Noted (Memories trees))}
    (hfirst : firstAt (index :: path) noted.begun = none)
    (hquiet : firstAt (index :: path) progress.memory.begun = none)
    (hblank : progress.memory.memory.AreBlankAt index path)
    (hwaits : waits progress.result progress.memory) :
    (blankUpkeep trees index path).Keeps waits noted progress := by
  refine ⟨⟨fun other hother => ?_, fun _ => hblank⟩, fun _ _ hallows _ => hallows hfirst, hwaits⟩
  cases hquiet.symm.trans hother

/-- The turn of one child keeps the children to what a blank node requires. -/
theorem keeps_blankUpkeep (htrees : ∀ tree ∈ trees, tree.BeginsBlank path) (child : Nat)
    (run : Option Run) (noted : Noted (Memories trees)) (world : World)
    (hholds : (blankUpkeep trees index path).holds noted world.contexts)
    (hrun : ∀ held, run = some held → (blankUpkeep trees index path).allows child held noted) :
    (blankUpkeep trees index path).Keeps ((blankUpkeep trees index path).ChildWaits child) noted
      ((notingCrew (watchChild trees)).advance child run noted world) := by
  have hfirsts : firstAt (index :: path)
      ((notingCrew (watchChild trees)).advance child run noted world).memory.begun =
        (firstAt (index :: path) noted.begun).or (firstAt (index :: path)
          ((watchChild trees child run noted.memory world).memory.begun.map (·.under child))) :=
    firstAt_append _ _ _
  cases hfirst : firstAt (index :: path) noted.begun with
  | some beginning =>
    rw [hfirst, Option.some_or] at hfirsts
    exact keeps_of_begun hfirsts (hholds.1 beginning hfirst)
      (childWaits_blankUpkeep fun _ _ hnone => nomatch hfirsts.symm.trans hnone)
  | none =>
    rw [hfirst, Option.none_or] at hfirsts
    have hblank := hholds.2 hfirst
    by_cases hchild : child = index
    · subst hchild
      have hstays := stays_watchChild htrees child run world hblank fun held hheld =>
        hrun held hheld hfirst rfl
      rw [firstAt_under] at hfirsts
      cases hinner : firstAt path
          (watchChild trees child run noted.memory world).memory.begun with
      | some beginning =>
        rw [hinner, Option.map_some] at hfirsts
        exact keeps_of_begun hfirsts (hstays.first beginning hinner)
          (childWaits_blankUpkeep fun _ _ hnone => nomatch hfirsts.symm.trans hnone)
      | none =>
        rw [hinner, Option.map_none] at hfirsts
        exact keeps_of_quiet hfirst hfirsts (hstays.memory hinner)
          (childWaits_blankUpkeep fun held hheld _ _ => hstays.waits hinner held hheld)
    · have hothers := areBlankAt_watchIn hchild [] run world hblank
      rw [watchIn_nil] at hothers
      rw [firstAt_under_of_ne hchild] at hfirsts
      exact keeps_of_quiet hfirst hfirsts hothers
        (childWaits_blankUpkeep fun _ _ _ hsame => absurd hsame hchild)

/-- Every operation on a child keeps the node at a position blank until its first execution
begins. -/
theorem upholds_blankUpkeep (htrees : ∀ tree ∈ trees, tree.BeginsBlank path) :
    (notingCrew (watchChild trees)).Upholds (blankUpkeep trees index path) where
  advance := keeps_blankUpkeep htrees
  sideBySide := ⟨trees.length, rfl⟩
  abort := fun now child _ _ hholds =>
    ⟨⟨hholds.1, fun hnone => (hholds.2 hnone).abortChild now child⟩, fun _ _ hallows => hallows⟩
  reset := fun now child _ _ hholds =>
    ⟨⟨hholds.1, fun hnone => (hholds.2 hnone).resetChild now child⟩, fun _ _ hallows => hallows⟩

/-- The suspended execution of the node above may be taken up if it is not inside the node. -/
theorem allowsRun_blankUpkeep {run : Run} {noted : Noted (Memories trees)} :
    (blankUpkeep trees index path).AllowsRun run noted ↔
      (firstAt (index :: path) noted.begun = none → ¬ run.Passes (index :: path)) := by
  have hslots : ∀ slots, (blankUpkeep trees index path).AllowsAll slots noted ↔
      (firstAt (index :: path) noted.begun = none →
        ¬ ∃ run, slots[index]? = some (.waiting run) ∧ run.Passes path) := by
    intro slots
    constructor
    · rintro hall hnone ⟨run, hrun, hpasses⟩
      exact hall index run hrun hnone rfl hpasses
    · rintro hnot child run hrun hnone rfl hpasses
      exact hnot hnone ⟨run, hrun, hpasses⟩
  cases run with
  | child mark position run =>
    exact ⟨fun hallows hnone hpasses => hallows hnone hpasses.1 hpasses.2,
      fun hnot hnone hposition hpasses => hnot hnone ⟨hposition, hpasses⟩⟩
  | paused pause => exact ⟨fun _ _ hpasses => hpasses, fun _ => trivial⟩
  | together slots => exact hslots slots
  | crowd id slots called => exact hslots slots

end

/-- If the node at a position is blank and no suspended execution is inside it, then its first
execution begins from scratch, and until then it stays so. -/
theorem beginsBlank (path : Path) (tree : Tree κ) : tree.BeginsBlank path := by
  induction path generalizing tree with
  | nil =>
    intro run memory world hblank hrun
    obtain ⟨name, kind, children⟩ := tree
    cases memory with
    | node cell below =>
      cases run with
      | some held => exact absurd trivial (hrun held rfl)
      | none =>
        have hfirst : firstAt [] (watch ⟨name, kind, children⟩ none (.node cell below)
            world).memory.begun = some ⟨[], kind.gauge? cell.state⟩ := by
          rw [watch]
          rfl
        refine ⟨fun beginning hbeginning => ?_, fun hnone => ?_, fun hnone => ?_⟩
        · cases hfirst.symm.trans hbeginning
          exact hblank
        · cases hfirst.symm.trans hnone
        · cases hfirst.symm.trans hnone
  | cons index path ih =>
    intro run memory world hblank hrun
    obtain ⟨name, kind, children⟩ := tree
    cases memory with
    | node cell below =>
      have hcrew : (notingCrew (watchChild children)).Upholds (blankUpkeep children index path) :=
        upholds_blankUpkeep fun tree _ => ih tree
      have hholds : (blankUpkeep children index path).holds ⟨below, []⟩ world.contexts :=
        ⟨nofun, fun _ => hblank⟩
      have hallows : ∀ held, run = some held →
          (blankUpkeep children index path).AllowsRun held ⟨below, []⟩ :=
        fun held hheld => allowsRun_blankUpkeep.mpr fun _ => hrun held hheld
      obtain ⟨-, hkeeps⟩ := hcrew.turn (fun _ => True)
        (fun _ _ _ _ _ hholds => ⟨trivial, hholds⟩) name kind children.length trivial hholds hallows
      rw [watch]
      generalize (notingCrew (watchChild children)).turn name kind children.length run cell
        ⟨below, []⟩ world = turn at hkeeps
      have hfirst : firstAt (index :: path) (beginningOf kind cell.state run ++
          turn.memory.2.begun) = firstAt (index :: path) turn.memory.2.begun := by
        rw [firstAt_append, firstAt_cons_beginningOf, Option.none_or]
      refine ⟨?_, ?_, ?_⟩
      · intro beginning hbeginning
        exact hkeeps.holds.1 beginning (hfirst.symm.trans hbeginning)
      · intro hnone
        exact hkeeps.holds.2 (hfirst.symm.trans hnone)
      · intro hnone held hheld
        have hwaits : (blankUpkeep children index path).RunWaits turn.result turn.memory.2 :=
          hkeeps.waits
        rw [hheld] at hwaits
        exact allowsRun_blankUpkeep.mp hwaits (hfirst.symm.trans hnone)

/-! ## Executions inside a tree -/

/-- A suspended execution of the tree at a position is not inside the node at another one. -/
def Run.Avoids (path position : Path) (run : Run) : Prop :=
  ∀ rest, path = position ++ rest → ¬ run.Passes rest

/-- An execution of another child is not inside the node at a position. -/
theorem Run.avoids_of_ne {index child : Nat} (hne : child ≠ index) (path position : Path)
    (run : Run) : run.Avoids (index :: path) (child :: position) :=
  fun _ heq => absurd (List.cons.inj heq).1.symm hne

/-- Whether an execution avoids a position is the same seen from the parent. -/
theorem Run.avoids_cons {index : Nat} {path position : Path} {run : Run} :
    run.Avoids (index :: path) (index :: position) ↔ run.Avoids path position :=
  ⟨fun havoids rest heq => havoids rest (congrArg (index :: ·) heq),
    fun havoids rest heq => havoids rest (List.cons.inj heq).2⟩

/-- An execution of a child is not inside the root. -/
theorem Run.avoids_nil_cons (child : Nat) (position : Path) (run : Run) :
    run.Avoids [] (child :: position) := fun _ => nofun

/-- Executing the tree at a position, the node at another position begins from scratch. -/
def Tree.BeginsBlankFrom (tree : Tree κ) (path position : Path) : Prop :=
  ∀ run (memory : Memory tree) world, memory.IsBlankAt path →
    (∀ held, run = some held → held.Avoids path position) →
      StaysBlank path (Run.Avoids path position) (Memory.IsBlankAt path)
        (watchAt position run memory world)

/-- A node stays blank until its first execution begins, wherever the execution is. -/
theorem beginsBlankFrom (path position : Path) (tree : Tree κ) :
    tree.BeginsBlankFrom path position := by
  induction position generalizing tree path with
  | nil =>
    intro run memory world hblank hrun
    have hstays := beginsBlank path tree run memory world hblank fun held hheld =>
      hrun held hheld path rfl
    rw [watchAt]
    refine ⟨hstays.first, hstays.memory, fun hnone held hheld rest heq => ?_⟩
    cases heq
    exact hstays.waits hnone held hheld
  | cons child position ih =>
    intro run memory world hblank hrun
    obtain ⟨name, kind, children⟩ := tree
    cases memory with
    | node cell below =>
      rw [watchAt]
      cases path with
      | nil =>
        refine ⟨fun beginning hfirst => ?_, fun _ => hblank, fun _ held _ =>
          Run.avoids_nil_cons child position held⟩
        cases (firstAt_nil_under child _).symm.trans hfirst
      | cons index path =>
        by_cases hchild : child = index
        · subst hchild
          have hinner := stays_watchIn position (fun tree _ => ih path tree) child run world hblank
            fun held hheld => Run.avoids_cons.mp (hrun held hheld)
          have hfirst := firstAt_under child path
            (watchIn child position run below world).memory.begun
          refine ⟨fun beginning hbeginning => ?_, fun hnone => ?_, fun hnone held hheld => ?_⟩
          · obtain ⟨inner, hinnerFirst, rfl⟩ :=
              Option.map_eq_some_iff.mp (hfirst.symm.trans hbeginning)
            exact hinner.first inner hinnerFirst
          · exact hinner.memory (Option.map_eq_none_iff.mp (hfirst.symm.trans hnone))
          · refine Run.avoids_cons.mpr (hinner.waits ?_ held hheld)
            exact Option.map_eq_none_iff.mp (hfirst.symm.trans hnone)
        · have hinner := areBlankAt_watchIn hchild position run world hblank
          have hnone := firstAt_under_of_ne hchild path
            (watchIn child position run below world).memory.begun
          refine ⟨fun beginning hfirst => ?_, fun _ => hinner,
            fun _ held _ => Run.avoids_of_ne hchild path position held⟩
          cases hnone.symm.trans hfirst

end BehaviorTree
