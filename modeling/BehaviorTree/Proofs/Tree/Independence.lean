import BehaviorTree.Proofs.Tree.Repetition
import Mathlib.Algebra.GroupWithZero.Nat

/-!
# Independent children

Children of which none writes what another one writes or reads do not notice one another. If each of
them, executed alone, answers without waiting, then a parallel node executes them one after the
other with just these answers, whatever their order (`advance_parallel`). The writes are the same in
every order too (`Context.setAll_perm`).
-/

namespace BehaviorTree

/-! ## Writes to different keys -/

/-- Values under different keys are put in any order. -/
theorem Dict.insertEntry_comm {α : Type} {key other : String} (hne : key ≠ other)
    (value otherValue : α) (entries : List (String × α)) :
    insertEntry key value (insertEntry other otherValue entries) =
      insertEntry other otherValue (insertEntry key value entries) := by
  induction entries with
  | nil => grind [insertEntry]
  | cons entry rest ih => grind [insertEntry]

namespace Context

/-- Writes to two different keys may change places. -/
theorem set_comm (context : Context) {key other : String} (hne : key ≠ other)
    (value otherValue : Value) :
    (context.set key value).set other otherValue =
      (context.set other otherValue).set key value := by
  simp only [set, Dict.insert, Dict.insertEntry_comm hne]

/-- Writing one list after another is writing both. -/
theorem setAll_append (context : Context) (writes others : List (String × Value)) :
    context.setAll (writes ++ others) = (context.setAll writes).setAll others :=
  List.foldl_append

/-- A write after several to other keys may come before them. -/
theorem setAll_set (context : Context) {key : String} (value : Value)
    {writes : List (String × Value)} (hother : ∀ write ∈ writes, write.1 ≠ key) :
    (context.setAll writes).set key value = (context.set key value).setAll writes := by
  induction writes generalizing context with
  | nil => rfl
  | cons write writes ih =>
    obtain ⟨hfirst, hrest⟩ := List.forall_mem_cons.mp hother
    have hswap := context.set_comm hfirst write.2 value
    calc (context.setAll (write :: writes)).set key value
        = ((context.set write.1 write.2).set key value).setAll writes := ih _ hrest
      _ = (context.set key value).setAll (write :: writes) := by
          rw [hswap]
          rfl

/-- Writes to different keys are made in any order. -/
theorem setAll_comm (context : Context) {writes others : List (String × Value)}
    (hdiffer : ∀ write ∈ writes, ∀ other ∈ others, write.1 ≠ other.1) :
    (context.setAll writes).setAll others = (context.setAll others).setAll writes := by
  induction others generalizing context with
  | nil => rfl
  | cons other others ih =>
    have hfirst : ∀ write ∈ writes, write.1 ≠ other.1 := fun write hmem =>
      hdiffer write hmem other List.mem_cons_self
    have hrest : ∀ write ∈ writes, ∀ later ∈ others, write.1 ≠ later.1 :=
      fun write hmem later hlater => hdiffer write hmem later (List.mem_cons_of_mem _ hlater)
    calc (context.setAll writes).setAll (other :: others)
        = ((context.setAll writes).set other.1 other.2).setAll others := rfl
      _ = ((context.set other.1 other.2).setAll writes).setAll others := by
          rw [context.setAll_set other.2 hfirst]
      _ = (context.setAll (other :: others)).setAll writes := ih _ hrest

/-- The writes of several parties in any order of the parties, if no two of them write to the same
key. -/
theorem setAll_perm {τ : Type} {parties others : List τ} (writes : τ → List (String × Value))
    (hperm : parties.Perm others)
    (hdiffer : parties.Pairwise fun party other =>
      ∀ write ∈ writes party, ∀ later ∈ writes other, write.1 ≠ later.1)
    (context : Context) :
    context.setAll (parties.flatMap writes) = context.setAll (others.flatMap writes) := by
  induction hperm generalizing context with
  | nil => rfl
  | cons party hperm ih =>
    rw [List.flatMap_cons, List.flatMap_cons, setAll_append, setAll_append]
    exact ih hdiffer.of_cons _
  | swap party other rest =>
    have hswap : ∀ write ∈ writes other, ∀ later ∈ writes party, write.1 ≠ later.1 :=
      (List.pairwise_cons.mp hdiffer).1 party List.mem_cons_self
    simp only [List.flatMap_cons, setAll_append]
    rw [context.setAll_comm hswap]
  | trans hfirst hsecond ih ihSecond =>
    have hsymm : ∀ {party other : τ},
        (∀ write ∈ writes party, ∀ later ∈ writes other, write.1 ≠ later.1) →
          ∀ write ∈ writes other, ∀ later ∈ writes party, write.1 ≠ later.1 :=
      fun hdiffer write hmem later hlater => (hdiffer later hlater write hmem).symm
    exact (ih hdiffer context).trans (ihSecond (hdiffer.perm hfirst hsymm) context)

end Context

/-! ## Branches -/

/-- None of two trees writes a key that the other one writes or reads. -/
structure Tree.Independent {κ : Type} (tree other : Tree κ) : Prop where
  /-- What the first tree writes is neither written nor read by the second. -/
  first : ∀ key ∈ tree.written, key ∉ other.written ∧ key ∉ other.read
  /-- What the second tree writes is neither written nor read by the first. -/
  second : ∀ key ∈ other.written, key ∉ tree.written ∧ key ∉ tree.read

/-- Independence goes both ways. -/
theorem Tree.Independent.symm {κ : Type} {tree other : Tree κ}
    (hindependent : tree.Independent other) :
    other.Independent tree := ⟨hindependent.second, hindependent.first⟩

/-- Whether two trees are independent can be told from the keys that they write and read. -/
instance {κ : Type} (tree other : Tree κ) : Decidable (tree.Independent other) :=
  decidable_of_iff ((∀ key ∈ tree.written, key ∉ other.written ∧ key ∉ other.read) ∧
    ∀ key ∈ other.written, key ∉ tree.written ∧ key ∉ tree.read)
    ⟨fun hkeys => ⟨hkeys.1, hkeys.2⟩, fun hindependent => ⟨hindependent.first, hindependent.second⟩⟩

variable {κ : Type} [Application κ]

/-- A tree with what its nodes keep. -/
structure Branch (κ : Type) [Application κ] where
  /-- The tree. -/
  tree : Tree κ
  /-- What its nodes keep. -/
  memory : Memory tree

/-- Several trees, each with what its nodes keep. -/
def Memories.branches : {trees : List (Tree κ)} → Memories trees → List (Branch κ)
  | [], .nil => []
  | tree :: _, .cons first rest => ⟨tree, first⟩ :: rest.branches

/-- What the nodes of several trees keep. -/
def Memories.ofBranches : (branches : List (Branch κ)) → Memories (branches.map (·.tree))
  | [] => .nil
  | branch :: rest => .cons branch.memory (ofBranches rest)

/-- Trees that are kept as branches are these branches. -/
theorem Memories.branches_ofBranches (branches : List (Branch κ)) :
    (Memories.ofBranches branches).branches = branches := by
  induction branches with
  | nil => rfl
  | cons branch rest ih => exact congrArg (branch :: ·) ih

/-- The children of the root with what their nodes keep. -/
def Memory.branches : {tree : Tree κ} → Memory tree → List (Branch κ)
  | ⟨_, _, _⟩, .node _ below => below.branches

/-- The branches of several trees are of these trees. -/
theorem Memories.map_tree_branches {trees : List (Tree κ)} (memories : Memories trees) :
    memories.branches.map (·.tree) = trees := by
  induction trees with
  | nil =>
    cases memories
    rfl
  | cons tree trees ih =>
    cases memories with
    | cons first rest => exact congrArg (tree :: ·) (ih rest)

/-- A branch of children that are bound is bound. -/
theorem Memories.AreBoundTo.isBoundTo {number : Nat} {trees : List (Tree κ)}
    {memories : Memories trees} (hbound : memories.AreBoundTo number) :
    ∀ branch ∈ memories.branches, branch.memory.IsBoundTo number := by
  induction trees with
  | nil =>
    cases memories
    exact List.forall_mem_nil _
  | cons tree trees ih =>
    cases memories with
    | cons first rest => exact List.forall_mem_cons.mpr ⟨hbound.1, ih hbound.2⟩

/-- There is one branch for each tree. -/
theorem Memories.length_branches {trees : List (Tree κ)} (memories : Memories trees) :
    memories.branches.length = trees.length := by
  rw [← List.length_map (·.tree), memories.map_tree_branches]

/-- Whether an execution has answered. -/
def Outcome.isAnswered : Outcome → Bool
  | .answered _ => true
  | .waiting _ | .failed _ => false

/-- An execution has answered if its outcome is an answer. -/
theorem Outcome.isAnswered_iff {outcome : Outcome} :
    outcome.isAnswered = true ↔ ∃ status, outcome = .answered status := by
  cases outcome <;> simp [isAnswered]

namespace Branch

/-- An execution from its beginning. -/
def turn (branch : Branch κ) (world : World) : Progress Outcome (Memory branch.tree) :=
  advance branch.tree none branch.memory world

/-- What the nodes keep after an execution. -/
def after (world : World) (branch : Branch κ) : Branch κ :=
  ⟨branch.tree, (branch.turn world).memory⟩

/-- How many waits have come to their end, each of them at once. -/
def waits (world : World) (branch : Branch κ) : Nat :=
  world.waitsLeft - (branch.turn world).world.waitsLeft

/-- An execution answers and does not wait: no wait is put off and no timer is started. -/
structure AnswersAtOnce (world : World) (branch : Branch κ) : Prop where
  /-- The execution answers with a status. -/
  answered : ∃ status, (branch.turn world).result = .answered status
  /-- No wait is put off and no timer is started. -/
  delays_eq : (branch.turn world).world.delays = world.delays

/-- Whether a branch answers at once can be told by executing it. -/
instance (world : World) (branch : Branch κ) : Decidable (branch.AnswersAtOnce world) :=
  decidable_of_iff ((branch.turn world).result.isAnswered = true ∧
    (branch.turn world).world.delays = world.delays)
    ⟨fun hturn => ⟨Outcome.isAnswered_iff.mp hturn.1, hturn.2⟩,
      fun hanswers => ⟨Outcome.isAnswered_iff.mpr hanswers.answered, hanswers.delays_eq⟩⟩

/-- None of several branches waits: each of them, executed alone, answers at once, and together they
do not end more waits than may end. -/
structure NoneWaits (world : World) (branches : List (Branch κ)) : Prop where
  /-- Each branch answers at once when it is executed alone. -/
  answers : ∀ branch ∈ branches, branch.AnswersAtOnce world
  /-- Together they end no more waits than may end. -/
  waits_le : (branches.map (·.waits world)).sum ≤ world.waitsLeft

/-- Whether none of several branches waits can be told by executing each of them. -/
instance (world : World) (branches : List (Branch κ)) : Decidable (NoneWaits world branches) :=
  decidable_of_iff ((∀ branch ∈ branches, branch.AnswersAtOnce world) ∧
    (branches.map (·.waits world)).sum ≤ world.waitsLeft)
    ⟨fun hboth => ⟨hboth.1, hboth.2⟩, fun hnone => ⟨hnone.answers, hnone.waits_le⟩⟩

end Branch

/-! ## One after the other -/

/-- The time and the shared context in a later world are what effects have made of them, one after
the other, and as many waits fewer may end. -/
structure World.After (number : Nat) (world : World) (effects : List Effect) (later : World) :
    Prop where
  /-- The later world is ready. -/
  ready : later.IsReady number
  /-- The time is the same. -/
  now_eq : later.now = world.now
  /-- The shared context has what the effects have written, one after the other. -/
  contexts_eq : later.contexts =
    world.contexts.modify number (·.setAll (effects.flatMap (·.writes)))
  /-- As many waits fewer are left. -/
  waitsLeft_eq : later.waitsLeft = world.waitsLeft - (effects.map (·.waits)).sum

namespace World.After

variable {number : Nat} {world later : World} {effects : List Effect}

/-- No effects leave the world as it is. -/
theorem nothing (hready : world.IsReady number) : world.After number [] world where
  ready := hready
  now_eq := rfl
  contexts_eq := (List.modify_id number world.contexts).symm
  waitsLeft_eq := rfl

/-- After one more effect a world is later by this effect as well. -/
theorem on (hafter : world.After number effects later) (effect : Effect) :
    world.After number (effects ++ [effect]) (effect.on number later) where
  ready := hafter.ready.on effect
  now_eq := hafter.now_eq
  contexts_eq := by
    have hwrites : (fun context : Context => (context.setAll (effects.flatMap (·.writes))).setAll
        effect.writes) = (·.setAll ((effects ++ [effect]).flatMap (·.writes))) := by
      funext context
      simp [Context.setAll_append]
    rw [Effect.on, hafter.contexts_eq, List.modify_modify_eq, ← hwrites]
    rfl
  waitsLeft_eq := by
    rw [Effect.on, hafter.waitsLeft_eq]
    simp
    omega

/-- Handing the turn to someone else is no effect. -/
theorem handTo (hafter : world.After number effects later) (party : Party) :
    world.After number effects (later.handTo party) :=
  ⟨hafter.ready.handTo party, hafter.now_eq, hafter.contexts_eq, hafter.waitsLeft_eq⟩

/-- Forming a crowd has no effect on time, contexts or waits. -/
theorem formCrowd (hafter : world.After number effects later) :
    world.After number effects later.formCrowd.2 :=
  ⟨⟨hafter.ready.id_lt, hafter.ready.fresh⟩, hafter.now_eq, hafter.contexts_eq,
    hafter.waitsLeft_eq⟩

/-- The shared context has the writes of all effects. -/
theorem context_eq (hready : world.IsReady number) (hafter : world.After number effects later) :
    later.context (.shared number) =
      (world.context (.shared number)).setAll (effects.flatMap (·.writes)) := by
  have hlt := hready.id_lt
  simp [World.context, hafter.contexts_eq, hlt]

/-- Effects on other keys do not show. -/
theorem suits (hready : world.IsReady number) (hafter : world.After number effects later)
    {keys : List String} (hother : ∀ effect ∈ effects, ∀ write ∈ effect.writes, write.1 ∉ keys) :
    world.Suits number keys later where
  ready := hready
  otherReady := hafter.ready
  now_eq := hafter.now_eq
  agrees := by
    intro key hkey
    rw [hafter.context_eq hready]
    refine Context.get?_setAll_of_notMem fun write hmem heq => ?_
    obtain ⟨effect, heffect, hwrite⟩ := List.mem_flatMap.mp hmem
    exact hother effect heffect write hwrite (heq ▸ hkey)

end World.After

/-- Each of several branches answers without waiting when it is executed alone in a world, none
writes what another one writes or reads, and together they end no more waits than may end. -/
structure Company (number : Nat) (world : World) (status : Branch κ → Status)
    (effect : Branch κ → Effect) (branches : List (Branch κ)) : Prop where
  /-- The world is ready. -/
  ready : world.IsReady number
  /-- The execution of a branch can be repeated, and keeps to its own keys. -/
  repeats : ∀ branch ∈ branches, Repeats number branch.tree.read branch.tree.written Outcome.Ends
    branch.turn world (effect branch)
  /-- Each branch has its status. -/
  answered : ∀ branch ∈ branches, (branch.turn world).result = .answered (status branch)
  /-- The branches are independent of each other. -/
  independent : branches.Pairwise fun branch other => branch.tree.Independent other.tree
  /-- The waits that they take are left in the world. -/
  waits_le : (branches.map fun branch => (effect branch).waits).sum ≤ world.waitsLeft

namespace Company

variable {number : Nat} {world later : World} {status : Branch κ → Status}
  {effect : Branch κ → Effect} {done rest : List (Branch κ)} {branch : Branch κ}

/-- Those executed before do not change what the next one does. -/
theorem turn (hcompany : Company number world status effect (done ++ branch :: rest))
    (hafter : world.After number (done.map effect) later) :
    (branch.turn later).EndsWith (.answered (status branch)) (branch.after world).memory
      ((effect branch).on number later) := by
  have hmem : branch ∈ done ++ branch :: rest := by simp
  have hrepeats := hcompany.repeats branch hmem
  have hother : ∀ done' ∈ done.map effect, ∀ write ∈ done'.writes,
      write.1 ∉ branch.tree.read := by
    intro first hfirst write hwrite
    obtain ⟨before, hbefore, rfl⟩ := List.mem_map.mp hfirst
    have hindependent := (List.pairwise_append.mp hcompany.independent).2.2 before hbefore branch
      List.mem_cons_self
    have hwritten := (hcompany.repeats before (List.mem_append_left _ hbefore)).written write hwrite
    exact (hindependent.first write.1 hwritten).2
  have hwaits : (effect branch).waits ≤ later.waitsLeft := by
    have hle := hcompany.waits_le
    rw [List.map_append, List.sum_append, List.map_cons, List.sum_cons] at hle
    rw [hafter.waitsLeft_eq, List.map_map]
    have hsame : (done.map ((·.waits) ∘ effect)).sum =
      (done.map fun branch => (effect branch).waits).sum := rfl
    omega
  have hsame := hrepeats.same later (hafter.suits hcompany.ready hother) hwaits
  rw [hcompany.answered branch hmem] at hsame
  exact hsame

/-- A branch that has its turn after others adds its effect to theirs. -/
theorem afterTurn (hcompany : Company number world status effect (done ++ branch :: rest))
    (hafter : world.After number (done.map effect) later) :
    world.After number ((done ++ [branch]).map effect) (branch.turn later).world := by
  rw [(hcompany.turn hafter).world_eq, List.map_append]
  exact hafter.on (effect branch)

/-- A few children in company are executed in order, each as if alone. -/
theorem advanceAll {trees : List (Tree κ)} {below : Memories trees} (done : List (Branch κ))
    (index : Nat) (hcompany : Company number world status effect (done ++ below.branches))
    (hafter : world.After number (done.map effect) later) :
    let progress :=
      BehaviorTree.advanceAll trees index (List.replicate trees.length .fresh) below later
    progress.result = .ok (below.branches.map fun branch => .answered (status branch)) ∧
      progress.memory.branches = below.branches.map (·.after world) ∧
        world.After number ((done ++ below.branches).map effect) progress.world := by
  induction trees generalizing done index later with
  | nil =>
    cases below
    refine ⟨rfl, rfl, ?_⟩
    rw [Memories.branches, List.append_nil]
    exact hafter
  | cons tree trees ih =>
    cases below with
    | cons first rest =>
      let branch : Branch κ := ⟨tree, first⟩
      have hturn := hcompany.turn hafter
      have hlater := hcompany.afterTurn hafter
      have happend : done ++ branch :: rest.branches = (done ++ [branch]) ++ rest.branches :=
        List.append_cons done branch rest.branches
      let others := BehaviorTree.advanceAll trees (index + 1) (List.replicate trees.length .fresh)
        rest (branch.turn later).world
      have hgo : (BehaviorTree.advanceAll (tree :: trees) index
          (List.replicate (trees.length + 1) .fresh) (.cons first rest) later).EndsWith
            (others.result.map (.answered (status branch) :: ·))
            (.cons (branch.turn later).memory others.memory) others.world := by
        have hfresh : (Slot.fresh : Slot Run).isAnswered = false := rfl
        have hfirst : (branch.turn later).result = .answered (status branch) := hturn.result_eq
        have hsame : advance tree Slot.fresh.run? first later = branch.turn later := rfl
        rw [List.replicate_succ, advanceAll_cons tree trees index hfresh, Progress.andThen_eq,
          hsame, Progress.result_under, hfirst]
        exact ⟨rfl, rfl, rfl⟩
      obtain ⟨hresult, hbranches, hworld⟩ : others.result = .ok _ ∧ _ ∧ _ :=
        ih (done ++ [branch]) (index + 1) (happend ▸ hcompany) hlater
      have hfirst : (⟨tree, (branch.turn later).memory⟩ : Branch κ) = branch.after world := by
        rw [hturn.memory_eq]
        rfl
      refine ⟨?_, ?_, ?_⟩
      · rw [List.length_cons, hgo.result_eq, hresult]
        rfl
      · rw [List.length_cons, hgo.memory_eq, Memories.branches, hbranches, hfirst]
        rfl
      · rw [List.length_cons, hgo.world_eq, Memories.branches, happend]
        exact hworld

/-- The child with an index is executed as its branch alone, and the others stay as they are. -/
theorem advanceChild_branch {trees : List (Tree κ)} {below : Memories trees}
    {before after : List (Branch κ)} (hbelow : below.branches = before ++ branch :: after)
    (world : World) :
    let progress := advanceChild trees before.length none below world
    progress.result = (branch.turn world).result ∧
      progress.memory.branches = before ++ branch.after world :: after ∧
        progress.world = (branch.turn world).world := by
  induction trees generalizing before with
  | nil =>
    cases below
    cases before <;> cases hbelow
  | cons tree trees ih =>
    cases below with
    | cons first rest =>
      cases before with
      | nil =>
        obtain ⟨rfl, rfl⟩ := List.cons_eq_cons.mp hbelow
        exact ⟨rfl, rfl, rfl⟩
      | cons other before =>
        obtain ⟨rfl, hrest⟩ := List.cons_eq_cons.mp hbelow
        obtain ⟨hresult, hbranches, hworld⟩ := ih hrest
        exact ⟨hresult, congrArg (_ :: ·) hbranches, hworld⟩

/-- In company a child of a crowd that has not begun is executed as it is alone. -/
theorem advanceMember {trees : List (Tree κ)} {below : Memories trees} {tour : Tour}
    (hcompany : Company number world status effect (done ++ branch :: rest))
    (hbelow : below.branches = done.map (·.after world) ++ branch :: rest)
    (hrun : tour.run? done.length = none)
    (hafter : world.After number (done.map effect) later) :
    let progress := (crewOf trees).advanceMember tour done.length below later
    progress.result = .answered (status branch) ∧
      progress.memory.branches = (done ++ [branch]).map (·.after world) ++ rest ∧
        world.After number ((done ++ [branch]).map effect) progress.world := by
  let party : Party := .member tour.crowd done.length
  have hturn := hcompany.turn (hafter.handTo party)
  have hlater := (hcompany.afterTurn (hafter.handTo party)).handTo later.present
  obtain ⟨hresult, hbranches, hworld⟩ := advanceChild_branch hbelow (later.handTo party)
  rw [List.length_map] at hresult hbranches hworld
  have hsame : branch.after (later.handTo party) = branch.after world :=
    congrArg (Branch.mk branch.tree) hturn.memory_eq
  rw [Crew.advanceMember, hrun]
  refine ⟨hresult.trans hturn.result_eq, ?_, ?_⟩
  · refine hbranches.trans ?_
    rw [hsame, List.map_append, List.append_assoc]
    rfl
  · rw [← hworld] at hlater
    exact hlater

/-- Many children in company are executed in order, each as if alone. -/
theorem advanceCalled {trees : List (Tree κ)} {below : Memories trees} {tour : Tour} {fuel : Nat}
    (done : List (Branch κ)) (hcompany : Company number world status effect (done ++ rest))
    (hbelow : below.branches = done.map (·.after world) ++ rest)
    (hslots : tour.slots = done.map (fun branch => .answered (status branch)) ++
      List.replicate rest.length .fresh)
    (hcalled : tour.called = List.range' done.length rest.length) (hfuel : rest.length ≤ fuel)
    (hafter : world.After number (done.map effect) later) :
    let progress := (crewOf trees).advanceCalled fuel tour below later
    (∃ ended, progress.result = .ok ended ∧
      ended.slots = (done ++ rest).map fun branch => .answered (status branch)) ∧
      progress.memory.branches = (done ++ rest).map (·.after world) ∧
        world.After number ((done ++ rest).map effect) progress.world := by
  induction rest generalizing done tour below fuel later with
  | nil =>
    have hnone : tour.called = [] := hcalled
    rw [Crew.advanceCalled_nil hnone]
    simp only [List.append_nil, List.length_nil, List.replicate_zero] at hbelow hslots ⊢
    exact ⟨⟨tour, rfl, hslots⟩, hbelow, hafter⟩
  | cons branch rest ih =>
    rw [List.length_cons] at hslots hcalled hfuel
    obtain ⟨fuel, rfl⟩ : ∃ less, fuel = less + 1 := ⟨fuel - 1, by omega⟩
    have hfirst : tour.called = done.length :: List.range' (done.length + 1) rest.length := by
      rw [hcalled, List.range'_succ]
    have hslot : tour.slots[done.length]? = some .fresh := by
      rw [hslots, List.getElem?_append_right (by simp)]
      simp
    have hanswer : tour.hasAnswer done.length = false := Tour.hasAnswer_of_slot hslot
    let remaining : Tour := { tour with called := List.range' (done.length + 1) rest.length }
    have hrun : remaining.run? done.length = none := @Tour.run?_of_slot remaining _ _ hslot
    obtain ⟨hresult, hbranches, hlater⟩ := hcompany.advanceMember hbelow hrun hafter
    -- the tour goes on after the answer
    let answered : Tour := remaining.answer done.length (status branch)
    have hslots' : answered.slots =
        (done ++ [branch]).map (fun branch => .answered (status branch)) ++
        List.replicate rest.length .fresh := by
      have hset : answered.slots = tour.slots.set done.length (.answered (status branch)) := rfl
      rw [hset, hslots, List.replicate_succ, List.set_append_right _ _ (by simp)]
      simp
    have hcalled' : answered.called = List.range' (done ++ [branch]).length rest.length := by
      rw [List.length_append]
      rfl
    have happend : done ++ branch :: rest = (done ++ [branch]) ++ rest :=
      List.append_cons done branch rest
    have hgo := Crew.advanceCalled_answered hfirst hanswer fuel ⟨hresult, rfl, rfl⟩
    obtain ⟨⟨ended, hended, hslots⟩, hbranches, hworld⟩ := ih (done ++ [branch])
      (happend ▸ hcompany) hbranches hslots' hcalled' (Nat.le_of_succ_le_succ hfuel) hlater
    refine ⟨⟨ended, hgo.result_eq.trans hended, ?_⟩, ?_, ?_⟩
    · rw [happend]
      exact hslots
    · rw [happend, hgo.memory_eq]
      exact hbranches
    · rw [happend, hgo.world_eq]
      exact hworld

/-- If each slot is an answer, then all have answered, with just these answers. -/
theorem allAnswered?_map {τ : Type} (status : τ → Status) (parties : List τ) :
    Slot.allAnswered? (parties.map fun party => (.answered (status party) : Slot Run)) =
      some (parties.map status) := by
  induction parties with
  | nil => rfl
  | cons party parties ih =>
    rw [List.map_cons, Slot.allAnswered?, ih]
    rfl

/-- All children in company are executed as if alone, be they few or many. -/
theorem beginAll {trees : List (Tree κ)} {below : Memories trees}
    (hcompany : Company number world status effect below.branches) :
    let progress := (crewOf trees).beginAll trees.length below world
    progress.result = .signal (.gathered (below.branches.map status)) ∧
      progress.memory.branches = below.branches.map (·.after world) ∧
        world.After number (below.branches.map effect) progress.world := by
  have hafter := World.After.nothing hcompany.ready
  by_cases hfew : trees.length ≤ Crew.few
  · obtain ⟨hresult, hbranches, hworld⟩ := hcompany.advanceAll [] 0 hafter
    rw [Crew.beginAll_few hfew]
    refine ⟨?_, hbranches, hworld⟩
    have hreply := congrArg replyOfAll hresult
    rw [replyOfAll, allAnswered?_map] at hreply
    exact hreply
  · let tour : Tour := .beginning world.formCrowd.1 trees.length
    have hlength := below.length_branches
    have hslots : tour.slots = List.replicate below.branches.length .fresh := by
      rw [hlength]
      rfl
    have hcalled : tour.called = List.range' 0 below.branches.length := by
      rw [hlength, ← List.range_eq_range']
      rfl
    have hfuel : below.branches.length ≤ tour.bound := by
      rw [hlength]
      exact Tour.le_bound_beginning _ _
    have hbelow : below.branches = ([] : List (Branch κ)).map (·.after world) ++ below.branches :=
      rfl
    obtain ⟨⟨ended, hresult, hended⟩, hbranches, hworld⟩ :=
      hcompany.advanceCalled [] hbelow hslots hcalled hfuel hafter.formCrowd
    rw [Crew.beginAll_many hfew]
    refine ⟨?_, hbranches, hworld⟩
    have hreply := congrArg replyOfTour hresult
    rw [replyOfTour, hended, List.nil_append, allAnswered?_map] at hreply
    exact hreply

end Company

/-- A parallel node executes a company one after the other, in its order, each as if it were alone,
and only counts the answers. -/
theorem advance_parallel {number : Nat} {world : World} {status : Branch κ → Status}
    {effect : Branch κ → Effect} (name : String) (settings : ParallelSettings)
    {children : List (Tree κ)} (memory : Memory (⟨name, .parallel settings, children⟩ : Tree κ))
    (hcompany : Company number world status effect memory.branches) :
    let progress := advance ⟨name, .parallel settings, children⟩ none memory world
    progress.result = .answered (Gather.verdict settings (memory.branches.map status)) ∧
      progress.memory.branches = memory.branches.map (·.after world) ∧
        world.After number (memory.branches.map effect) progress.world := by
  cases memory with
  | node cell below =>
    obtain ⟨hresult, hbranches, hworld⟩ := Company.beginAll hcompany
    let crew := crewOf children
    let kind : Kind κ := .parallel settings
    let verdict := Gather.verdict settings (below.branches.map status)
    let gathered := crew.beginAll children.length below world
    -- the node asks for all its children, and then it counts their answers
    have hcounted : (crew.drive name kind children.length 3 gathered.result cell gathered.memory
        gathered.world).EndsWith (.answered verdict) (cell, gathered.memory) gathered.world := by
      rw [hresult, Crew.drive_signal]
      have hmove : ∀ moment, kind.respond moment cell.state
          (.gathered (below.branches.map status)) = ⟨(), .finish verdict, [], []⟩ := fun _ => rfl
      dsimp only
      rw [hmove, World.write_nil, Crew.serve, Crew.drive_stop]
      exact ⟨rfl, rfl, rfl⟩
    have hdriven : (crew.drive name kind children.length 4 (.signal .started) cell below
        world).EndsWith (.answered verdict) (cell, gathered.memory) gathered.world := by
      rw [Crew.drive_signal]
      have hmove : ∀ moment, kind.respond moment cell.state .started = ⟨(), .runAll, [], []⟩ :=
        fun _ => rfl
      dsimp only
      rw [hmove, World.write_nil, Crew.serve]
      exact ⟨hcounted.result_eq, hcounted.memory_eq, hcounted.world_eq⟩
    have hturn : turnOf name kind children none cell below world =
        crew.drive name kind children.length 4 (.signal .started) cell below world := rfl
    rw [advance_eq, hturn]
    dsimp only
    rw [hdriven.result_eq, hdriven.memory_eq, hdriven.world_eq]
    exact ⟨rfl, hbranches, hworld⟩

/-! ## In any order -/

/-- Independent branches of built-in nodes that do not wait are company. -/
theorem exists_company {number : Nat} {world : World} {branches : List (Branch κ)}
    (hready : world.IsReady number)
    (hbuiltIn : ∀ branch ∈ branches, branch.tree.IsBuiltIn)
    (hbound : ∀ branch ∈ branches, branch.memory.IsBoundTo number)
    (hnone : Branch.NoneWaits world branches)
    (hindependent : branches.Pairwise fun branch other => branch.tree.Independent other.tree) :
    ∃ status effect, Company number world status effect branches := by
  have hstatus : ∀ branch : Branch κ, ∃ status, branch ∈ branches →
      (branch.turn world).result = .answered status := by
    intro branch
    by_cases hmem : branch ∈ branches
    · obtain ⟨status, hstatus⟩ := (hnone.answers branch hmem).answered
      exact ⟨status, fun _ => hstatus⟩
    · exact ⟨.running, fun hother => absurd hother hmem⟩
  have heffect : ∀ branch : Branch κ, ∃ effect, branch ∈ branches →
      Repeats number branch.tree.read branch.tree.written Outcome.Ends branch.turn world
        effect := by
    intro branch
    by_cases hmem : branch ∈ branches
    · obtain ⟨-, effect, hrepeats⟩ := Tree.canRepeat number branch.tree (hbuiltIn branch hmem)
        branch.memory world (hbound branch hmem) hready (hnone.answers branch hmem).delays_eq
      exact ⟨effect, fun _ => hrepeats⟩
    · exact ⟨{}, fun hother => absurd hother hmem⟩
  obtain ⟨status, hstatus⟩ := Classical.skolem.mp hstatus
  obtain ⟨effect, heffect⟩ := Classical.skolem.mp heffect
  refine ⟨status, effect, hready, heffect, hstatus, hindependent, ?_⟩
  have hsame :
      branches.map (fun branch => (effect branch).waits) = branches.map (·.waits world) := by
    refine List.map_congr_left fun branch hmem => ?_
    have hrepeats := heffect branch hmem
    have hworld :
        (branch.turn world).world.waitsLeft = world.waitsLeft - (effect branch).waits := by
      rw [hrepeats.world_eq]
      rfl
    have hle := hrepeats.waits_le
    rw [Branch.waits, hworld]
    omega
  rw [hsame]
  exact hnone.waits_le

/-- The verdict depends on how many have answered what, and not on the order. -/
theorem Gather.verdict_perm (settings : ParallelSettings) {statuses others : List Status}
    (hperm : statuses.Perm others) : verdict settings statuses = verdict settings others := by
  rw [verdict, verdict, hperm.count_eq, hperm.count_eq]

namespace Company

variable {number : Nat} {world later : World} {status : Branch κ → Status}
  {effect : Branch κ → Effect} {branches others : List (Branch κ)}

/-- Company is company in any order. -/
theorem perm (hcompany : Company number world status effect branches)
    (hperm : branches.Perm others) : Company number world status effect others where
  ready := hcompany.ready
  repeats := fun branch hmem => hcompany.repeats branch (hperm.mem_iff.mpr hmem)
  answered := fun branch hmem => hcompany.answered branch (hperm.mem_iff.mpr hmem)
  independent := hcompany.independent.perm hperm fun hindependent => hindependent.symm
  waits_le := (hperm.map _).sum_nat ▸ hcompany.waits_le

/-- The shared contexts are left the same in any order. -/
theorem contexts_perm (hcompany : Company number world status effect branches)
    (hperm : branches.Perm others) {otherLater : World}
    (hafter : world.After number (branches.map effect) later)
    (hotherAfter : world.After number (others.map effect) otherLater) :
    otherLater.contexts = later.contexts := by
  have hdiffer : branches.Pairwise fun branch other => ∀ write ∈ (effect branch).writes,
      ∀ later ∈ (effect other).writes, write.1 ≠ later.1 := by
    refine hcompany.independent.imp_of_mem fun {branch other} hbranch hother hindependent => ?_
    intro write hwrite later hlater heq
    have hwritten := (hcompany.repeats branch hbranch).written write hwrite
    have hotherWritten := (hcompany.repeats other hother).written later hlater
    exact (hindependent.first write.1 hwritten).1 (heq ▸ hotherWritten)
  have hwrites : ∀ context : Context,
      context.setAll ((branches.map effect).flatMap (·.writes)) =
        context.setAll ((others.map effect).flatMap (·.writes)) := by
    intro context
    rw [List.flatMap_map, List.flatMap_map]
    exact context.setAll_perm (fun branch => (effect branch).writes) hperm hdiffer
  rw [hafter.contexts_eq, hotherAfter.contexts_eq]
  congr 1
  funext context
  exact (hwrites context).symm

end Company

end BehaviorTree
