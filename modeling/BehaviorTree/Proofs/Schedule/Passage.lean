import BehaviorTree.Proofs.Tree.Passage
import BehaviorTree.Schedule.Session

/-!
# Abort and reset of a whole tree

Whatever a tree of built-in composites and decorators is doing, an abort and a reset come to each of
its nodes exactly once, in pre-order, and execute nothing (`System.tours_abort_and_reset`). An abort
keeps the positions of chains and gives up counts and waits; a reset leaves nothing but what a node
has that has never moved.
-/

namespace BehaviorTree

variable {κ : Type} [Application κ] {tree : Tree κ}

namespace System

/-- An operation has come to every node of the tree and changed nothing but what is kept there. The
events that say where it came are selected by `reached?`, and `changes` says what it makes of the
state of a node. -/
structure Tours (system later : System tree) (journal : Journal)
    (reached? : Event → Option String)
    (changes : (kind : Kind κ) → kind.State → kind.State → Prop) : Prop where
  /-- The calls of the operation, with the positions and the names of the nodes. -/
  calls_eq : journal.calls reached? = tree.preorder.map fun node => (node.1, node.2.name)
  /-- Every node is called once. -/
  once : ∀ path inner, tree.at? path = some inner →
    ((journal.calls reached?).map (·.1)).count path = 1
  /-- The calls come in pre-order: a node before those below it, children in order. -/
  inOrder : ((journal.calls reached?).map (·.1)).Pairwise (· < ·)
  /-- No execution begins or ends. -/
  executesNothing : journal.milestones = []
  /-- Nothing is started, called or written, and no time passes. -/
  rest_eq : later = { system with memory := later.memory }
  /-- Every node keeps what the operation makes of its state, and stays bound to its context. -/
  changed : ∀ path inner, tree.at? path = some inner →
    ∃ kept : Kept κ, system.memory.keptAt path = some kept ∧ kept.kind = inner.kind ∧
      ∃ state, changes kept.kind kept.cell.state state ∧
        later.memory.keptAt path = some ⟨kept.kind, state, kept.cell.binding⟩

variable (system : System tree)

/-- A passage through the tree comes to every node of a system and changes nothing else. -/
theorem tours_of_passage (hrelayed : tree.IsRelayed) (passage : Passage κ)
    {changes : (kind : Kind κ) → kind.State → kind.State → Prop}
    (hchanges : ∀ kind state, changes kind state (passage.change kind state))
    (hquiet : Journal.milestones (passage.control system.world.now tree system.memory).2 = []) :
    system.Tours { system with memory := (passage.control system.world.now tree system.memory).1 }
      (passage.control system.world.now tree system.memory).2 passage.reached? changes := by
  have hcalls := passage.calls_eq system.world.now hrelayed system.memory
  have hpositions : (Journal.calls passage.reached?
      (passage.control system.world.now tree system.memory).2).map (·.1) = tree.positions := by
    rw [hcalls, List.map_map]
    rfl
  constructor
  · exact hcalls
  · intro path inner hat
    rw [hpositions]
    exact count_positions hat
  · rw [hpositions]
    exact pairwise_positions tree
  · exact hquiet
  · rfl
  · intro path inner hat
    obtain ⟨kept, hkept, hkind⟩ := system.memory.exists_keptAt hat
    have hlater := passage.keptAt_eq system.world.now hrelayed path system.memory
    rw [hkept, Option.map_some] at hlater
    exact ⟨kept, hkept, hkind, _, hchanges kept.kind kept.cell.state, hlater⟩

/-- In every state of a tree whose inner nodes are built in, an abort and a reset come to every node
once, in pre-order. They execute nothing. -/
theorem tours_abort_and_reset (hrelayed : tree.IsRelayed) (system : System tree) :
    system.Tours system.abort.1 system.abort.2 Event.abortCall? Kind.GivesUp ∧
      system.Tours system.reset.1 system.reset.2 Event.resetCall? Kind.StartsOver := by
  constructor
  · exact system.tours_of_passage hrelayed .abort Kind.givesUp_aborted
      (milestones_abort system.world.now tree system.memory)
  · exact system.tours_of_passage hrelayed .reset Kind.startsOver_restored
      (milestones_reset system.world.now tree system.memory)

/-- A tree with a leaf that runs deep inside. -/
def guardedTree : Tree Empty :=
  ⟨"Main", .sequence,
    [⟨"Ready", .alwaysSuccess, []⟩,
     ⟨"Limit", .timeout 100, [⟨"Not", .inverter, [⟨"Pause", .wait 50, []⟩]⟩]⟩,
     ⟨"Twice", .repeating ⟨2, true⟩, [⟨"", .forceFailure, []⟩]⟩]⟩

/-- The system after a tick that has come to the running leaf. -/
def guardedTick : System guardedTree := (Session.begin guardedTree {}).1.tick.2.1.system

/-- While the leaf is running the abort reaches it, and the sequence keeps its position. -/
theorem tours_guardedTick :
    guardedTree.IsRelayed ∧ guardedTick.memory.gaugeAt [] = some (.cursor 1) ∧
      guardedTick.abort.2.calls Event.abortCall? =
        [([], "Main"), ([0], "Ready"), ([1], "Limit"), ([1, 0], "Not"), ([1, 0, 0], "Pause"),
          ([2], "Twice"), ([2, 0], "")] ∧
      guardedTick.Tours guardedTick.abort.1 guardedTick.abort.2 Event.abortCall? Kind.GivesUp ∧
      guardedTick.Tours guardedTick.reset.1 guardedTick.reset.2 Event.resetCall?
        Kind.StartsOver := by
  have hleaf : ∀ name (kind : Kind Empty), Tree.IsRelayed ⟨name, kind, []⟩ :=
    fun _ _ => ⟨.inr rfl, trivial⟩
  have hlimit : Tree.IsRelayed
      (⟨"Limit", .timeout 100, [⟨"Not", .inverter, [⟨"Pause", .wait 50, []⟩]⟩]⟩ : Tree Empty) :=
    ⟨.inl rfl, ⟨.inl rfl, hleaf _ _, trivial⟩, trivial⟩
  have htwice : Tree.IsRelayed
      (⟨"Twice", .repeating ⟨2, true⟩, [⟨"", .forceFailure, []⟩]⟩ : Tree Empty) :=
    ⟨.inl rfl, hleaf _ _, trivial⟩
  have hrelayed : guardedTree.IsRelayed := ⟨.inl rfl, hleaf _ _, hlimit, htwice, trivial⟩
  have hcursor : guardedTick.memory.gaugeAt [] = some (.cursor 1) := by decide +kernel
  have hcalls : guardedTick.abort.2.calls Event.abortCall? =
      [([], "Main"), ([0], "Ready"), ([1], "Limit"), ([1, 0], "Not"), ([1, 0, 0], "Pause"),
        ([2], "Twice"), ([2, 0], "")] := by decide +kernel
  exact ⟨hrelayed, hcursor, hcalls, tours_abort_and_reset hrelayed guardedTick⟩

end System

end BehaviorTree
