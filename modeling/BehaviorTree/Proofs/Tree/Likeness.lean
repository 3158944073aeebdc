import BehaviorTree.Proofs.Tree.Control
import BehaviorTree.Proofs.Tree.Turn
import Mathlib.Data.List.Forall2
import Mathlib.Logic.Relation

/-!
# Trees that do the same in another shape

Two trees of different shape may run the same nodes in the same order. A likeness says how the
memories of the two correspond, at which positions they execute the same trees, and which entries of
their journals are about the same. It is kept by a stretch of execution on both sides if the two
stretches correspond in all of this and take place in the same world (`Likeness.Relates`).
-/

namespace BehaviorTree

variable {κ : Type} [Application κ] {μ ν ξ μ' ν' ρ τ υ ρ' τ' : Type}

mutual

/-- What the node at a position shows of its state. -/
def Memory.gaugeAt : {tree : Tree κ} → Path → Memory tree → Option Gauge
  | ⟨_, kind, _⟩, [], .node cell _ => kind.gauge? cell.state
  | ⟨_, _, _⟩, index :: path, .node _ below => Memories.gaugeAt index path below

/-- What the node at a position inside the child with an index shows of its state. -/
def Memories.gaugeAt : {trees : List (Tree κ)} → Nat → Path → Memories trees → Option Gauge
  | [], _, _, .nil => none
  | _ :: _, 0, path, .cons first _ => Memory.gaugeAt path first
  | _ :: _, index + 1, path, .cons _ rest => Memories.gaugeAt index path rest

end

/-- How two parts of trees, with memories `μ` and `ν`, correspond. -/
structure Likeness (μ ν : Type) where
  /-- The memories that correspond. -/
  memories : μ → ν → Prop
  /-- The trees at these positions are the same. -/
  positions : Path → Path → Prop
  /-- What an entry on the one side says to both. -/
  sees : Entry → Option Entry
  /-- What an entry on the other side says to both. -/
  otherSees : Entry → Option Entry

/-- Two outcomes that are the same but for the image of the status and the shape of the run. -/
inductive Outcome.Like (image : Status → Status) (runs : Run → Run → Prop) :
    Outcome → Outcome → Prop where
  | answered (status : Status) : Like image runs (.answered status) (.answered (image status))
  | waiting {run other : Run} (hruns : runs run other) :
    Like image runs (.waiting run) (.waiting other)
  | failed (fault : Fault) : Like image runs (.failed fault) (.failed fault)

namespace Outcome.Like

variable {image : Status → Status} {runs : Run → Run → Prop} {outcome other : Outcome}

/-- Outcomes that are alike leave executions suspended that correspond. -/
theorem run? (hlike : Like image runs outcome other) :
    Option.Rel runs outcome.run? other.run? := by
  cases hlike with
  | answered status => exact .none
  | waiting hruns => exact .some hruns
  | failed fault => exact .none

/-- Two like outcomes are both suspended or both not. -/
theorem isSome_run? (hlike : Like image runs outcome other) :
    outcome.run?.isSome = other.run?.isSome := by
  cases hlike <;> rfl

end Outcome.Like

namespace Likeness

/-- One likeness after the other. The second sees everything of the part in the middle. -/
def trans (first : Likeness μ ν) (second : Likeness ν ξ) : Likeness μ ξ where
  memories := Relation.Comp first.memories second.memories
  positions := Relation.Comp first.positions second.positions
  sees := first.sees
  otherSees := fun entry => (second.otherSees entry).bind first.otherSees

variable (likeness : Likeness μ ν)

/-- The journals say the same to both. -/
def Journals (journal other : Journal) : Prop :=
  journal.filterMap likeness.sees = other.filterMap likeness.otherSees

/-- The same task is started at corresponding positions. -/
def Spawns (spawn other : Spawn) : Prop :=
  spawn.task = other.task ∧ likeness.positions spawn.path other.path

/-- Two stretches of execution correspond. -/
structure Relates (results : ρ → τ → Prop) (progress : Progress ρ μ) (other : Progress τ ν) :
    Prop where
  /-- The results correspond. -/
  result : results progress.result other.result
  /-- The memories correspond. -/
  memory : likeness.memories progress.memory other.memory
  /-- The worlds are the same. -/
  world_eq : progress.world = other.world
  /-- The journals say the same. -/
  journal : likeness.Journals progress.journal other.journal
  /-- The tasks that are started correspond. -/
  spawned : List.Forall₂ likeness.Spawns progress.spawned other.spawned
  /-- Both ask for another turn, or neither does. -/
  again_eq : progress.again = other.again

/-- Two memories after an abort or a reset correspond, and so do the journals. -/
structure Controls (control : μ × Journal) (other : ν × Journal) : Prop where
  /-- The memories correspond. -/
  memory : likeness.memories control.1 other.1
  /-- The journals say the same. -/
  journal : likeness.Journals control.2 other.2

variable {likeness}

namespace Journals

variable {first rest otherFirst otherRest : Journal}

/-- Empty journals say the same. -/
theorem nil : likeness.Journals [] [] := rfl

/-- Journals that say the same piece by piece say the same together. -/
theorem append (hfirst : likeness.Journals first otherFirst)
    (hrest : likeness.Journals rest otherRest) :
    likeness.Journals (first ++ rest) (otherFirst ++ otherRest) := by
  rw [Journals, List.filterMap_append, List.filterMap_append, hfirst, hrest]

/-- Journals that say the same as one in between say the same. -/
theorem trans {second : Likeness ν ξ} (hsees : second.sees = some) {journal middle last : Journal}
    (hfirst : likeness.Journals journal middle) (hsecond : second.Journals middle last) :
    (likeness.trans second).Journals journal last := by
  rw [Journals, hsees, List.filterMap_some] at hsecond
  rw [Journals, hsecond, List.filterMap_filterMap] at hfirst
  exact hfirst

end Journals

namespace Relates

variable {results : ρ → τ → Prop} {progress : Progress ρ μ} {other : Progress τ ν}

/-- Stretches of execution that correspond to one in between correspond to each other. -/
theorem trans {second : Likeness ν ξ} {otherResults : τ → υ → Prop} {last : Progress υ ξ}
    (hsees : second.sees = some) (hfirst : likeness.Relates results progress other)
    (hsecond : second.Relates otherResults other last) :
    (likeness.trans second).Relates (Relation.Comp results otherResults) progress last where
  result := ⟨other.result, hfirst.result, hsecond.result⟩
  memory := ⟨other.memory, hfirst.memory, hsecond.memory⟩
  world_eq := hfirst.world_eq.trans hsecond.world_eq
  journal := hfirst.journal.trans hsees hsecond.journal
  spawned := by
    obtain ⟨_, _, _, _, spawned, _⟩ := progress
    obtain ⟨_, _, _, _, middle, _⟩ := other
    obtain ⟨_, _, _, _, last, _⟩ := last
    have hspawned : List.Forall₂ likeness.Spawns spawned middle := hfirst.spawned
    have hlast : List.Forall₂ second.Spawns middle last := hsecond.spawned
    clear hfirst hsecond
    dsimp only
    induction hspawned generalizing last with
    | nil =>
      cases hlast
      exact .nil
    | cons hspawn _ ih =>
      cases hlast with
      | cons hsecond hrest =>
        exact .cons ⟨hspawn.1.trans hsecond.1, _, hspawn.2, hsecond.2⟩ (ih _ hrest)
  again_eq := hfirst.again_eq.trans hsecond.again_eq

/-- The results and the memories may be looked at in another way. -/
theorem imp {results' : ρ → τ → Prop} (himp : ∀ result other, results result other →
    results' result other) (hrelates : likeness.Relates results progress other) :
    likeness.Relates results' progress other :=
  { hrelates with result := himp _ _ hrelates.result }

/-- Stretches of execution correspond if those before them do and they do. -/
theorem after {journal otherJournal : Journal} {spawned otherSpawned : List Spawn}
    (hrelates : likeness.Relates results progress other)
    (hjournal : likeness.Journals journal otherJournal)
    (hspawned : List.Forall₂ likeness.Spawns spawned otherSpawned) (again : Bool) :
    likeness.Relates results (progress.after journal spawned again)
      (other.after otherJournal otherSpawned again) where
  result := hrelates.result
  memory := hrelates.memory
  world_eq := hrelates.world_eq
  journal := hjournal.append hrelates.journal
  spawned := List.rel_append hspawned hrelates.spawned
  again_eq := congrArg (again || ·) hrelates.again_eq

end Relates

/-- Aborts or resets that correspond to one in between correspond to each other. -/
theorem Controls.trans {second : Likeness ν ξ} (hsees : second.sees = some)
    {control : μ × Journal} {middle : ν × Journal} {last : ξ × Journal}
    (hfirst : likeness.Controls control middle) (hsecond : second.Controls middle last) :
    (likeness.trans second).Controls control last :=
  ⟨⟨middle.1, hfirst.memory, hsecond.memory⟩, hfirst.journal.trans hsees hsecond.journal⟩

/-! ## From children to their parents -/

/-- Children with these indices correspond within their parents. -/
structure Embeds (inner : Likeness μ ν) (outer : Likeness μ' ν') (index otherIndex : Nat) :
    Prop where
  /-- Positions that correspond within the children correspond within the parents. -/
  positions : ∀ {path other}, inner.positions path other →
    outer.positions (index :: path) (otherIndex :: other)
  /-- What an entry says within the children, it says within the parents in a form of its own. -/
  shows : ∃ shown : Entry → Entry, ∀ entry : Entry,
    outer.sees (entry.under index) = (inner.sees entry).map shown ∧
      outer.otherSees (entry.under otherIndex) = (inner.otherSees entry).map shown

namespace Embeds

variable {inner : Likeness μ ν} {outer : Likeness μ' ν'} {index otherIndex : Nat}

/-- Journals of children that say the same still do so seen from the parents. -/
theorem journals (hembeds : inner.Embeds outer index otherIndex) {journal other : Journal}
    (hjournals : inner.Journals journal other) :
    outer.Journals (journal.map (·.under index)) (other.map (·.under otherIndex)) := by
  obtain ⟨shown, hshown⟩ := hembeds.shows
  have hsees : outer.sees ∘ (·.under index) = fun entry => (inner.sees entry).map shown :=
    funext fun entry => (hshown entry).1
  have hotherSees :
      outer.otherSees ∘ (·.under otherIndex) = fun entry => (inner.otherSees entry).map shown :=
    funext fun entry => (hshown entry).2
  rw [Journals, List.filterMap_map, List.filterMap_map, hsees, hotherSees, ← List.map_filterMap,
    ← List.map_filterMap, hjournals]

/-- Tasks that children start at corresponding positions are so started seen from the parents. -/
theorem spawns (hembeds : inner.Embeds outer index otherIndex) {spawned other : List Spawn}
    (hspawned : List.Forall₂ inner.Spawns spawned other) :
    List.Forall₂ outer.Spawns (spawned.map (·.under index)) (other.map (·.under otherIndex)) :=
  List.rel_map (fun _ _ hspawn => ⟨hspawn.1, hembeds.positions hspawn.2⟩) hspawned

/-- What children do correspondingly, they do so seen from the parents. -/
theorem relates (hembeds : inner.Embeds outer index otherIndex) {results : ρ → τ → Prop}
    {results' : ρ' → τ' → Prop} {progress : Progress ρ μ} {other : Progress τ ν}
    (hrelates : inner.Relates results progress other) {result : ρ → ρ'} {otherResult : τ → τ'}
    (hresult : ∀ {before otherBefore}, results before otherBefore →
      results' (result before) (otherResult otherBefore))
    {memory : μ → μ'} {otherMemory : ν → ν'}
    (hmemory : ∀ {before otherBefore}, inner.memories before otherBefore →
      outer.memories (memory before) (otherMemory otherBefore)) :
    outer.Relates results' ((progress.under index).map result memory)
      ((other.under otherIndex).map otherResult otherMemory) where
  result := hresult hrelates.result
  memory := hmemory hrelates.memory
  world_eq := hrelates.world_eq
  journal := hembeds.journals hrelates.journal
  spawned := hembeds.spawns hrelates.spawned
  again_eq := hrelates.again_eq

end Embeds

end Likeness

/-! ## The entries of the root -/

/-- Entries about the root are not seen. -/
def HidesRoot (sees : Entry → Option Entry) : Prop := ∀ entry, entry.path = [] → sees entry = none

/-- The entry as it stands, if it is about a node below the root. -/
def Entry.below? (entry : Entry) : Option Entry :=
  match entry.path with
  | [] => none
  | _ :: _ => some entry

/-- Seeing only what is below the root hides the root. -/
theorem hidesRoot_below : HidesRoot Entry.below? := fun entry hroot => by
  rw [Entry.below?, hroot]

namespace HidesRoot

variable {sees : Entry → Option Entry}

/-- A journal about nothing but the root says nothing if the root is hidden. -/
theorem filterMap_eq_nil (hhides : HidesRoot sees) {journal : Journal}
    (hroot : ∀ entry ∈ journal, entry.path = []) : journal.filterMap sees = [] :=
  List.filterMap_eq_nil_iff.mpr fun entry hmem => hhides entry (hroot entry hmem)

/-- The entry for the beginning of an execution is hidden. -/
theorem entryOf (hhides : HidesRoot sees) (name : String) (run : Option Run) (world : World) :
    (entryOf name run world).filterMap sees = [] := by
  refine hhides.filterMap_eq_nil fun entry hmem => ?_
  cases run with
  | none =>
    obtain rfl := List.mem_singleton.mp hmem
    rfl
  | some run => cases hmem

/-- The entry for the end of an execution is hidden. -/
theorem exitEntry (hhides : HidesRoot sees) (name : String) (kind : Kind κ)
    (progress : Progress Outcome (Cell kind.State × μ)) :
    (exitEntry name kind progress).filterMap sees = [] := by
  refine hhides.filterMap_eq_nil fun entry hmem => ?_
  unfold BehaviorTree.exitEntry at hmem
  split at hmem
  · obtain rfl := List.mem_singleton.mp hmem
    rfl
  · cases hmem

/-- Nothing is seen of a turn but what is written between its beginning and its end. -/
theorem turn (hhides : HidesRoot sees) (name : String) (kind : Kind κ) (run : Option Run)
    (world : World) (journal : Journal) (progress : Progress Outcome (Cell kind.State × μ)) :
    (BehaviorTree.entryOf name run world ++ journal ++
      BehaviorTree.exitEntry name kind progress).filterMap sees = journal.filterMap sees := by
  rw [List.filterMap_append, List.filterMap_append, hhides.entryOf, hhides.exitEntry,
    List.nil_append, List.append_nil]

/-- Nothing is seen of an abort or a reset but what is written between its beginning and its end. -/
theorem control (hhides : HidesRoot sees) (now : Nat) (begun done : Event) (journal : Journal) :
    (eventAt now begun :: journal ++ [eventAt now done]).filterMap sees =
      journal.filterMap sees := by
  have hevent : ∀ event : Event, sees (eventAt now event) = none := fun event => hhides _ rfl
  rw [List.cons_append, List.filterMap_cons_none (hevent begun), List.filterMap_append,
    List.filterMap_cons_none (hevent done), List.filterMap_nil, List.append_nil]

end HidesRoot

namespace Likeness

section Node

variable {name otherName : String} {kind otherKind : Kind κ} {children others : List (Tree κ)}
  (likeness : Likeness (Memory ⟨name, kind, children⟩) (Memory ⟨otherName, otherKind, others⟩))

/-- The likeness of two nodes between the beginning and the end of a turn. -/
def inTurn : Likeness (Cell kind.State × Memories children)
    (Cell otherKind.State × Memories others) :=
  { likeness with
    memories := fun memory other =>
      likeness.memories (.node memory.1 memory.2) (.node other.1 other.2) }

variable {likeness}

/-- Two nodes whose turns correspond, if nobody sees the entries for their beginning and end. -/
theorem Relates.advance (hhides : HidesRoot likeness.sees)
    (hotherHides : HidesRoot likeness.otherSees) {results : Outcome → Outcome → Prop}
    {run otherRun : Option Run} {cell : Cell kind.State} {otherCell : Cell otherKind.State}
    {below : Memories children} {otherBelow : Memories others} {world : World}
    (hturns : likeness.inTurn.Relates results (turnOf name kind children run cell below world)
      (turnOf otherName otherKind others otherRun otherCell otherBelow world)) :
    likeness.Relates results (advance ⟨name, kind, children⟩ run (.node cell below) world)
      (advance ⟨otherName, otherKind, others⟩ otherRun (.node otherCell otherBelow) world) := by
  rw [advance_eq, advance_eq]
  refine ⟨hturns.result, hturns.memory, hturns.world_eq, ?_, hturns.spawned, hturns.again_eq⟩
  rw [Journals, hhides.turn, hotherHides.turn]
  exact hturns.journal

/-- Children that correspond within their parents do so between the beginning and the end of a
turn. -/
theorem Embeds.inTurn {inner : Likeness μ ν} {index otherIndex : Nat}
    (hembeds : inner.Embeds likeness index otherIndex) :
    inner.Embeds likeness.inTurn index otherIndex :=
  ⟨hembeds.positions, hembeds.shows⟩

/-- Two nodes that pass an abort or a reset on to their children. -/
theorem Controls.node (hhides : HidesRoot likeness.sees)
    (hotherHides : HidesRoot likeness.otherSees) {cell : Cell kind.State}
    {otherCell : Cell otherKind.State} {below : Memories children × Journal}
    {otherBelow : Memories others × Journal}
    (hbelow : likeness.inTurn.Controls ((cell, below.1), below.2)
      ((otherCell, otherBelow.1), otherBelow.2)) (now : Nat)
    (begun done otherBegun otherDone : Event) :
    likeness.Controls (.node cell below.1, eventAt now begun :: below.2 ++ [eventAt now done])
      (.node otherCell otherBelow.1,
        eventAt now otherBegun :: otherBelow.2 ++ [eventAt now otherDone]) where
  memory := hbelow.memory
  journal := by
    rw [Journals, hhides.control, hotherHides.control]
    exact hbelow.journal

end Node

end Likeness

end BehaviorTree
