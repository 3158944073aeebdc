import BehaviorTree.Proofs.Document.Assembly
import BehaviorTree.Proofs.Tree.Sharing
import BehaviorTree.Schedule.Session

/-!
# One context for all nodes

A tree gets its shared context in one of three ways: it is bound to a new one at any time, it is
bound when a session begins, or its nodes are bound one by one while it is loaded. In each case all
nodes share the context then, except those below a timeout whose child is still held by an execution
that goes on detached, and nothing else changes (`System.shares_context`).
-/

namespace BehaviorTree

variable {κ : Type} [Application κ] {tree : Tree κ}

namespace System

/-- Binds the nodes to a new shared context. -/
def rebind (system : System tree) (context : Context) : System tree × Journal :=
  let added := system.addContext context
  added.2.bind added.1

/-- A system has come to use a new context. The nodes are bound to it, except those below a timeout
whose child a task executes. These keep what they have. -/
structure Takes (system later : System tree) (context : Context) : Prop where
  /-- The new context is added to the others. -/
  contexts_eq : later.world.contexts = system.world.contexts ++ [context]
  /-- It has the new number. -/
  context_eq : later.context system.world.contexts.length = context
  /-- Nothing but the contexts and what the nodes keep is different. -/
  rest_eq : later =
    { system with
      memory := later.memory
      world := { system.world with contexts := later.world.contexts } }
  /-- A node that no running child shelters is bound to the new context and keeps its state. -/
  shared : ∀ path inner, tree.at? path = some inner → ¬ tree.Shelters system.isHeld path →
    ∃ kept : Kept κ, system.memory.keptAt path = some kept ∧ kept.kind = inner.kind ∧
      later.memory.keptAt path =
        some ⟨kept.kind, kept.cell.state, .shared system.world.contexts.length⟩
  /-- A sheltered node keeps what it has. -/
  sheltered : ∀ path, tree.Shelters system.isHeld path →
    later.memory.keptAt path = system.memory.keptAt path

/-- No node has moved, and all of them share the only context. -/
structure IsShared (system : System tree) (context : Context) : Prop where
  /-- There is one shared context. -/
  contexts_eq : system.world.contexts = [context]
  /-- It is the given one. -/
  context_eq : system.context 0 = context
  /-- Every node is in its initial state and is bound to this context. -/
  shared : ∀ path inner, tree.at? path = some inner →
    system.memory.keptAt path = some ⟨inner.kind, inner.kind.initial, .shared 0⟩

/-- A system that is bound again takes the new context. -/
theorem takes_rebind (hrelayed : tree.IsRelayed) (system : System tree) (context : Context) :
    system.Takes (system.rebind context).1 context := by
  have hcontext : (system.world.contexts ++ [context])[system.world.contexts.length]? =
      some context := by simp
  constructor
  · rfl
  · exact congrArg (Option.getD · {}) hcontext
  · rfl
  · intro path inner hat hfree
    obtain ⟨kept, hkept, hkind⟩ := system.memory.exists_keptAt hat
    have hlater := system.memory.keptAt_bind_of_not_shelters hrelayed system.world.now
      system.world.contexts.length hfree
    rw [hkept, Option.map_some] at hlater
    exact ⟨kept, hkept, hkind, hlater⟩
  · intro path hshelters
    exact system.memory.keptAt_bind_of_shelters hrelayed system.world.now
      system.world.contexts.length hshelters

/-- A system that is built with a context shares it. -/
theorem isShared_bound (tree : Tree κ) (context : Context) :
    (System.bound tree context).IsShared context := by
  refine ⟨rfl, rfl, fun path inner hat => ?_⟩
  have hkept := Memory.keptAt_fresh (.shared 0) tree path
  rw [hat] at hkept
  exact hkept

/-- A session begins with a system that shares its context. -/
theorem isShared_begin (hrelayed : tree.IsRelayed) (context : Context) :
    (Session.begin tree context).1.system.IsShared context := by
  refine ⟨rfl, rfl, fun path inner hat => ?_⟩
  have hfree : ∀ path, (System.unbound tree context).isHeld path = false := fun _ => rfl
  have hkept := (Memory.fresh (.own {}) tree).keptAt_bind_of_not_shelters hrelayed 0 0
    (tree.not_shelters_of_free hfree path)
  rw [Memory.keptAt_fresh, hat] at hkept
  exact hkept

/-- A shared context reaches every node. When a tree is bound to a context, all of its nodes use it
that do not lie below a timeout with a held child; a session begins with a tree all of whose nodes
share its context; and so do the nodes of a loaded tree, each of them bound before it had
children. -/
theorem shares_context :
    (∀ tree : Tree κ, tree.IsRelayed → ∀ context,
      (∀ system : System tree, system.Takes (system.rebind context).1 context) ∧
        (Session.begin tree context).1.system.IsShared context) ∧
      ∀ (loader : Loader κ) (root : Element) (tree : Tree κ),
        (loader.load root).result = .ok tree →
          (loader.assemble root).result = .ok ⟨tree, (System.bound tree loader.context).memory⟩ ∧
            (System.bound tree loader.context).IsShared loader.context := by
  constructor
  · intro tree hrelayed context
    exact ⟨fun system => takes_rebind hrelayed system context, isShared_begin hrelayed context⟩
  · intro loader root tree hload
    have hassemble : (loader.assemble root).result = .ok (Assembly.complete 0 tree) := by
      rw [loader.assemble_eq, Load.map, hload]
      rfl
    exact ⟨hassemble, isShared_bound tree loader.context⟩

/-- A tree with a time limit in it, one of whose leaves goes on when the limit is exceeded. -/
def limitedTree : Tree Empty :=
  ⟨"Main", .sequence,
    [⟨"Limit", .timeout 50, [⟨"Not", .inverter, [⟨"Slow", .retry ⟨2, 100, false⟩,
      [⟨"", .forceFailure, []⟩]⟩]⟩]⟩,
     ⟨"Ready", .alwaysSuccess, []⟩]⟩

/-- The system after the limit was exceeded. -/
def limitedTick : System limitedTree := (Session.begin limitedTree {}).1.tick.2.1.system

/-- A reference to a tree. -/
def mention : Element := ⟨"SubTree", [⟨"ID", "Not"⟩], []⟩

/-- A document with the reference in it. -/
def mentioning : Element :=
  ⟨"root", [⟨"main_tree_to_execute", "Main"⟩],
    [⟨"BehaviorTree", [⟨"ID", "Main"⟩], [⟨"Sequence", [], [mention]⟩]⟩,
     ⟨"BehaviorTree", [⟨"ID", "Not"⟩], [⟨"Inverter", [], [⟨"AlwaysSuccess", [], []⟩]⟩]⟩]⟩

/-- Loading the document gives a sequence with the tree that it refers to. -/
theorem load_mentioning : ((⟨.standard, {}⟩ : Loader Empty).load mentioning).result =
    .ok ⟨"Sequence", .sequence,
      [⟨"Inverter", .inverter, [⟨"AlwaysSuccess", .alwaysSuccess, []⟩]⟩]⟩ := by
  let expand : Element → Load (Tree Empty) :=
    Loader.expandReference ⟨.standard, {}⟩ (TreeIndex.ofRoot mentioning).1 ["Main"]
  have hreference : Loader.isReference mention = true := rfl
  have hexpand : (expand mention).result =
      .ok ⟨"Inverter", .inverter, [⟨"AlwaysSuccess", .alwaysSuccess, []⟩]⟩ := by
    rw [Loader.result_expandReference]
    rfl
  have hchildren : (Loader.loadChildren ⟨.standard, {}⟩ expand .sequence "Sequence" "Sequence" 0
      [mention]).result =
        .ok [⟨"Inverter", .inverter, [⟨"AlwaysSuccess", .alwaysSuccess, []⟩]⟩] := by
    rw [Loader.result_loadChildren_cons, Loader.result_loadElement, if_pos hreference, hexpand]
    rfl
  rw [Loader.result_load]
  change (Loader.loadElement ⟨.standard, {}⟩ expand ⟨"Sequence", [], [mention]⟩).result = _
  rw [Loader.result_loadElement]
  change (Loader.loadChildren ⟨.standard, {}⟩ expand .sequence "Sequence" "Sequence" 0
    [mention]).result.bind _ = _
  rw [hchildren]
  rfl

/-- While the leaf goes on detached, what lies below the time limit keeps its context. -/
theorem shares_context_limitedTick :
    limitedTree.IsRelayed ∧ limitedTree.Shelters limitedTick.isHeld [0, 0] ∧
      ¬ limitedTree.Shelters limitedTick.isHeld [0] ∧
      limitedTick.Takes (limitedTick.rebind {}).1 {} ∧
      ∃ tree, ((⟨.standard, {}⟩ : Loader Empty).load mentioning).result = .ok tree ∧
        (System.bound tree {}).IsShared {} := by
  have hleaf : ∀ name (kind : Kind Empty), Tree.IsRelayed ⟨name, kind, []⟩ :=
    fun _ _ => ⟨.inr rfl, trivial⟩
  have hlimit : Tree.IsRelayed (⟨"Limit", .timeout 50, [⟨"Not", .inverter,
      [⟨"Slow", .retry ⟨2, 100, false⟩, [⟨"", .forceFailure, []⟩]⟩]⟩]⟩ : Tree Empty) :=
    ⟨.inl rfl, ⟨.inl rfl, ⟨.inl rfl, hleaf _ _, trivial⟩, trivial⟩, trivial⟩
  have hrelayed : limitedTree.IsRelayed := ⟨.inl rfl, hlimit, hleaf _ _, trivial⟩
  have hheld : limitedTick.isHeld [0, 0] = true := by decide +kernel
  have hshelters : limitedTree.Shelters limitedTick.isHeld [0, 0] :=
    ⟨[0], 0, [], _, _, _, rfl, rfl, hheld⟩
  have hfree : ¬ limitedTree.Shelters limitedTick.isHeld [0] := by
    rintro ⟨above, index, rest, name, limit, children, heq, hat, -⟩
    -- above the time limit there is only a sequence
    cases above with
    | nil => cases hat
    | cons => simp at heq
  exact ⟨hrelayed, hshelters, hfree, (shares_context.1 limitedTree hrelayed {}).1 limitedTick, _,
    load_mentioning, (shares_context.2 ⟨.standard, {}⟩ mentioning _ load_mentioning).2⟩

end System

end BehaviorTree
