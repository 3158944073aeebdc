import BehaviorTree.Proofs.Tree.Parts
import BehaviorTree.Proofs.Tree.Walk

/-!
# Walks through a chain inside a chain

A sequence that has a sequence among its children goes through the same members in the same order as
one sequence of all of them, and so do selectors. The cursor of the flat chain is where the cursors
of the outer and the inner chain together point (`Cursors`). While an execution is suspended the
cursors are as they were before it, and what counts is which member is held up (`HeldRuns`). A walk
that begins at such cursors, or with such a member, comes equally far on both sides
(`flattens_begin`, `flattens_held`).
-/

namespace BehaviorTree

variable {κ : Type} [Application κ]

/-! ## Positions -/

section

variable (before inside after : Nat)

/-- The cursors of the flat, the outer and the inner chain, if so many members stand before, inside
and after the inner chain. -/
inductive Cursors : Nat → Nat → Nat → Prop where
  | before {position : Nat} (hposition : position < before) : Cursors position position 0
  | inside {position : Nat} (hposition : position ≤ inside) :
    Cursors (before + position) before position
  | after {position : Nat} (hposition : position < after) :
    Cursors (before + inside + position) (before + 1 + position) 0

/-- The positions of a node in the flat and in the nested tree, if it belongs to a member. -/
inductive MemberPaths : Path → Path → Prop where
  | before {position : Nat} (hposition : position < before) (path : Path) :
    MemberPaths (position :: path) (position :: path)
  | inside {position : Nat} (hposition : position < inside) (path : Path) :
    MemberPaths ((before + position) :: path) (before :: position :: path)
  | after {position : Nat} (hposition : position < after) (path : Path) :
    MemberPaths ((before + inside + position) :: path) ((before + 1 + position) :: path)

/-- The suspended executions of the flat and of the outer chain while the same member is held up. If
it is not inside the inner chain, then the cursor of that is at the beginning. -/
inductive HeldRuns : Nat → Run → Run → Prop where
  | before {position : Nat} (hposition : position < before) (run : Run) :
    HeldRuns 0 (.child position position run) (.child position position run)
  | inside {position : Nat} (hposition : position < inside) (cursor : Nat) (run : Run) :
    HeldRuns cursor (.child (before + position) (before + position) run)
      (.child before before (.child position position run))
  | after {position : Nat} (hposition : position < after) (run : Run) :
    HeldRuns 0 (.child (before + inside + position) (before + inside + position) run)
      (.child (before + 1 + position) (before + 1 + position) run)

/-- The legs of the flat and of the outer chain, and the cursor of the inner chain afterwards. -/
inductive SameLeg : Nat → Leg → Leg → Prop where
  | through : SameLeg 0 .through .through
  | ended {status : Status} (hstatus : status ≠ .running) (position other : Nat) :
    SameLeg 0 (.ended position status) (.ended other status)
  | suspended {position other cursor : Nat}
    (hcursors : Cursors before inside after position other cursor) :
    SameLeg cursor (.ended position .running) (.ended other .running)
  | held {position other cursor : Nat} {run otherRun : Run}
    (hruns : HeldRuns before inside after cursor (.child position position run)
      (.child other other otherRun)) :
    SameLeg cursor (.held position run) (.held other otherRun)
  | failed (cursor : Nat) (fault : Fault) : SameLeg cursor (.failed fault) (.failed fault)

end

/-- The entry as it would be if the members of the inner chain were children of the outer one. -/
def Entry.flattened? (before inside : Nat) (entry : Entry) : Option Entry :=
  match entry.path with
  | [] => none
  | index :: path =>
    if index < before then some entry
    else if index = before then
      match path with
      | [] => none
      | position :: path => some { entry with path := (before + position) :: path }
    else some { entry with path := (index - 1 + inside) :: path }

/-- Seeing only the members hides the root. -/
theorem hidesRoot_flattened (before inside : Nat) : HidesRoot (Entry.flattened? before inside) :=
  fun entry hroot => by rw [Entry.flattened?, hroot]

section

variable {before inside position : Nat} (entry : Entry)

/-- Entries of a member before the inner chain stay as they are. -/
theorem flattened?_before (hposition : position < before) :
    (entry.under position).flattened? before inside = some (entry.under position) := by
  simp [Entry.flattened?, Entry.under, hposition]

/-- Entries of the inner chain itself are not seen. -/
theorem flattened?_inner (hroot : entry.path = []) :
    (entry.under before).flattened? before inside = none := by
  simp [Entry.flattened?, Entry.under, hroot]

/-- Nothing is seen of the inner chain itself. -/
theorem hidesRoot_inner (before inside : Nat) :
    HidesRoot fun entry => (entry.under before).flattened? before inside :=
  fun entry hroot => flattened?_inner entry hroot

/-- Entries of a member inside the inner chain move up to the outer one. -/
theorem flattened?_inside :
    ((entry.under position).under before).flattened? before inside =
      some (entry.under (before + position)) := by
  simp [Entry.flattened?, Entry.under]

/-- Entries of a member after the inner chain move on by as many places as that has members. -/
theorem flattened?_after :
    (entry.under (before + 1 + position)).flattened? before inside =
      some (entry.under (before + inside + position)) := by
  have hbefore : ¬ before + 1 + position < before := by omega
  have hinner : ¬ before + 1 + position = before := by omega
  have hindex : before + 1 + position - 1 + inside = before + inside + position := by omega
  rw [Entry.flattened?, Entry.under]
  dsimp only
  rw [if_neg hbefore, if_neg hinner, hindex]
  rfl

end

/-! ## The likeness -/

section

variable (chain : ChainKind) (binding : Binding) (xs ys zs : List (Tree κ))
  (name outer inner : String)

/-- A chain of all members. -/
def flatChain : Tree κ := ⟨name, chain.kind, xs ++ (ys ++ zs)⟩

/-- The inner one of two chains. -/
def innerChain : Tree κ := ⟨inner, chain.kind, ys⟩

/-- A chain with a chain of the same kind among its children. -/
def nestedChain : Tree κ := ⟨outer, chain.kind, xs ++ innerChain chain ys inner :: zs⟩

variable {chain xs ys zs name outer inner}

/-- The memories of the children of the flat chain. -/
def flatBelow (first : Memories xs) (middle : Memories ys) (last : Memories zs) :
    Memories (xs ++ (ys ++ zs)) :=
  first.append (middle.append last)

/-- The memory of the inner chain. -/
def innerMemory (cursor : Nat) (middle : Memories ys) : Memory (innerChain chain ys inner) :=
  .node ⟨chain.state cursor, binding⟩ middle

/-- The memories of the children of the outer chain. -/
def nestedBelow (cursor : Nat) (first : Memories xs) (middle : Memories ys) (last : Memories zs) :
    Memories (xs ++ innerChain chain ys inner :: zs) :=
  first.append (.cons (innerMemory binding cursor middle) last)

variable (chain xs ys zs inner)

/-- The members are the same on both sides, and the inner chain has the given cursor. -/
def membersLikeness (cursor : Nat) :
    Likeness (Memories (xs ++ (ys ++ zs))) (Memories (xs ++ innerChain chain ys inner :: zs)) where
  memories := fun flat nested => ∃ first middle last, flat = flatBelow first middle last ∧
    nested = nestedBelow binding cursor first middle last
  positions := MemberPaths xs.length ys.length zs.length
  sees := Entry.below?
  otherSees := Entry.flattened? xs.length ys.length

/-- The members of the inner chain are the same on both sides, seen from that. -/
def insideLikeness (first : Memories xs) (last : Memories zs) :
    Likeness (Memories (xs ++ (ys ++ zs))) (Memories ys) where
  memories := fun flat middle => flat = flatBelow first middle last
  positions := fun path other => MemberPaths xs.length ys.length zs.length path (xs.length :: other)
  sees := Entry.below?
  otherSees := fun entry => (entry.under xs.length).flattened? xs.length ys.length

/-! ## The turns of the members -/

/-- A part of the children, compared with itself. -/
def sameLikeness (μ : Type) : Likeness μ μ := ⟨Eq, Eq, some, some⟩

/-- Every stretch of execution corresponds to itself. -/
theorem relates_same {ρ μ : Type} (progress : Progress ρ μ) :
    (sameLikeness μ).Relates Eq progress progress :=
  ⟨rfl, rfl, rfl, rfl, List.forall₂_same.mpr fun _ _ => ⟨rfl, rfl⟩, rfl⟩

/-- What a child does is the same on both sides, wherever it stands. -/
theorem Likeness.Embeds.copy {ρ μ ν μ' : Type} {likeness : Likeness μ ν} {index otherIndex : Nat}
    (hembeds : (sameLikeness μ').Embeds likeness index otherIndex) (progress : Progress ρ μ')
    {memory : μ' → μ} {otherMemory : μ' → ν}
    (hmemory : ∀ below, likeness.memories (memory below) (otherMemory below)) :
    likeness.Relates Eq ((progress.map id memory).under index)
      ((progress.map id otherMemory).under otherIndex) := by
  have hcopy : ∀ {below other : μ'}, below = other →
      likeness.memories (memory below) (otherMemory other) := by
    rintro below _ rfl
    exact hmemory below
  have hresult : ∀ {result other : ρ}, result = other → id result = id other :=
    fun hsame => congrArg id hsame
  exact hembeds.relates (relates_same progress) hresult hcopy

variable {chain xs ys zs inner} {binding}

/-- An entry about a child is about a node below the root. -/
theorem below?_under (index : Nat) (entry : Entry) :
    (entry.under index).below? = some (entry.under index) := rfl

/-- The members before the inner chain have turns that correspond. -/
theorem relatesTurns_before (path : Path) (cursor : Nat) :
    (membersLikeness chain binding xs ys zs inner cursor).RelatesTurns
      (insideTurn (xs ++ (ys ++ zs)) path)
      (insideTurn (xs ++ innerChain chain ys inner :: zs) path) 0 0 xs.length := by
  rintro position hposition run below otherBelow world ⟨first, middle, last, rfl, rfl⟩
  have hembeds : (sameLikeness (Memories xs)).Embeds
      (membersLikeness chain binding xs ys zs inner cursor) position position := by
    refine ⟨?_, Entry.under position, fun entry => ⟨below?_under position entry, ?_⟩⟩
    · rintro path _ rfl
      exact .before hposition path
    · exact flattened?_before entry hposition
  rw [Nat.zero_add]
  dsimp only [insideTurn]
  rw [flatBelow, nestedBelow, advanceIn_append_left hposition,
    advanceIn_append_left hposition]
  exact hembeds.copy _ fun below => ⟨below, middle, last, rfl, rfl⟩

/-- The members of the inner chain have turns that correspond. -/
theorem relatesTurns_inside (path : Path) (first : Memories xs) (last : Memories zs) :
    (insideLikeness xs ys zs first last).RelatesTurns (insideTurn (xs ++ (ys ++ zs)) path)
      (insideTurn ys path) xs.length 0 ys.length := by
  rintro position hposition run below middle world rfl
  have hembeds : (sameLikeness (Memories ys)).Embeds (insideLikeness xs ys zs first last)
      (xs.length + position) position := by
    refine ⟨?_, Entry.under (xs.length + position), fun entry => ⟨below?_under _ entry, ?_⟩⟩
    · rintro path _ rfl
      exact .inside hposition path
    · exact flattened?_inside entry
  rw [Nat.zero_add]
  dsimp only [insideTurn]
  rw [flatBelow, advanceIn_append_right,
    advanceIn_append_left hposition]
  have hmemory : ∀ below : Memories ys,
      (insideLikeness xs ys zs first last).memories (flatBelow first below last) (id below) :=
    fun _ => rfl
  exact hembeds.copy _ hmemory

/-- The members after the inner chain have turns that correspond. -/
theorem relatesTurns_after (path : Path) (cursor : Nat) :
    (membersLikeness chain binding xs ys zs inner cursor).RelatesTurns
      (insideTurn (xs ++ (ys ++ zs)) path)
      (insideTurn (xs ++ innerChain chain ys inner :: zs) path) (xs.length + ys.length)
      (xs.length + 1) zs.length := by
  rintro position hposition run below otherBelow world ⟨first, middle, last, rfl, rfl⟩
  have hembeds : (sameLikeness (Memories zs)).Embeds
      (membersLikeness chain binding xs ys zs inner cursor) (xs.length + ys.length + position)
      (xs.length + 1 + position) := by
    refine ⟨?_, Entry.under (xs.length + ys.length + position),
      fun entry => ⟨below?_under _ entry, ?_⟩⟩
    · rintro path _ rfl
      exact .after hposition path
    · exact flattened?_after entry
  have hflat : xs.length + ys.length + position = xs.length + (ys.length + position) := by omega
  have hnested : xs.length + 1 + position = xs.length + (position + 1) := by omega
  rw [hflat, hnested] at hembeds ⊢
  dsimp only [insideTurn]
  rw [flatBelow, nestedBelow, advanceIn_append_right,
    advanceIn_append_right, advanceIn_append_right]
  exact hembeds.copy _ fun below => ⟨first, middle, below, rfl, rfl⟩

/-! ## Walks through the members -/

/-- The members are the same if they are the same in each part. -/
theorem memories_below (cursor : Nat) (first : Memories xs) (middle : Memories ys)
    (last : Memories zs) :
    (membersLikeness chain binding xs ys zs inner cursor).memories (flatBelow first middle last)
      (nestedBelow binding cursor first middle last) :=
  ⟨first, middle, last, rfl, rfl⟩

/-- The members of the inner chain are the same on both sides. -/
theorem memories_inside (first : Memories xs) (middle : Memories ys) (last : Memories zs) :
    (insideLikeness xs ys zs first last).memories (flatBelow first middle last) middle := rfl

/-- A member that does not give the status that is passed over ends both executions, or both stop at
it. -/
theorem SameLeg.ended_at {before inside after position other cursor : Nat}
    (hcursors : Cursors before inside after position other cursor) (status : Status) :
    SameLeg before inside after (if status = .running then cursor else 0)
      (.ended position status) (.ended other status) := by
  by_cases hrunning : status = .running
  · subst hrunning
    exact .suspended hcursors
  · rw [if_neg hrunning]
    exact .ended hrunning _ _

/-- Walks through the members after the inner chain come equally far. -/
theorem SameLeg.of_shifted_after {passed : Status} {before inside after : Nat} {leg other : Leg}
    (hshifted : Leg.Shifted passed (before + inside) (before + 1) after leg other) :
    SameLeg before inside after 0 leg other := by
  cases hshifted with
  | through => exact .through
  | @ended position hposition status hstatus =>
    have hended := @SameLeg.ended_at before inside after _ _ _ (.after hposition) status
    rwa [ite_self] at hended
  | held hposition run => exact .held (.after hposition run)
  | failed fault => exact .failed 0 fault

/-- Walks before the inner chain go through it both, or they come equally far. -/
theorem SameLeg.of_shifted_before {passed : Status} {before : Nat} (inside after : Nat)
    {leg other : Leg} (hshifted : Leg.Shifted passed 0 0 before leg other) :
    leg = .through ∧ other = .through ∨
      (leg ≠ .through ∧ other ≠ .through ∧ SameLeg before inside after 0 leg other) := by
  cases hshifted with
  | through => exact .inl ⟨rfl, rfl⟩
  | @ended position hposition status hstatus =>
    have hended := @SameLeg.ended_at before inside after _ _ _ (.before hposition) status
    rw [ite_self] at hended
    rw [Nat.zero_add]
    exact .inr ⟨nofun, nofun, hended⟩
  | @held position hposition run =>
    rw [Nat.zero_add]
    exact .inr ⟨nofun, nofun, .held (.before hposition run)⟩
  | failed fault => exact .inr ⟨nofun, nofun, .failed 0 fault⟩

variable (chain binding xs ys zs inner) in
/-- Two walks that come equally far, with some cursor of the inner chain. -/
def Flattens (progress : Progress Leg (Memories (xs ++ (ys ++ zs))))
    (other : Progress Leg (Memories (xs ++ innerChain chain ys inner :: zs))) : Prop :=
  ∃ cursor, (membersLikeness chain binding xs ys zs inner cursor).Relates
    (SameLeg xs.length ys.length zs.length cursor) progress other

variable {world : World}

/-- Both chains go through members after the inner chain. -/
theorem relates_after {position count : Nat} (hcount : position + count = zs.length)
    {flat : Memories (xs ++ (ys ++ zs))} {nested : Memories (xs ++ innerChain chain ys inner :: zs)}
    (hmemories : (membersLikeness chain binding xs ys zs inner 0).memories flat nested) :
    (membersLikeness chain binding xs ys zs inner 0).Relates
      (SameLeg xs.length ys.length zs.length 0)
      (walk (insideTurn (xs ++ (ys ++ zs)) []) chain.passed count
        (xs.length + ys.length + position) flat world)
      (walk (insideTurn (xs ++ innerChain chain ys inner :: zs) []) chain.passed count
        (xs.length + 1 + position) nested world) :=
  have hwalk := (relatesTurns_after [] 0).walk chain.passed (by omega) world hmemories
  hwalk.imp fun _ _ => .of_shifted_after

/-- The inner chain has a turn, and the flat chain goes through the same members. -/
theorem relates_innerTurn {cursor : Nat} {first : Memories xs} {middle : Memories ys}
    {last : Memories zs} {run : Option Run} {flat : Progress Leg (Memories (xs ++ (ys ++ zs)))}
    {inside : Progress Leg (Memories ys)}
    (hturn : turnOf inner (chain.kind : Kind κ) ys run ⟨chain.state cursor, binding⟩ middle world =
      chain.conclude cursor binding inside)
    (hrelates : (insideLikeness xs ys zs first last).Relates
      (Leg.Shifted chain.passed xs.length 0 ys.length) flat inside) :
    (membersLikeness chain binding xs ys zs inner (inside.result.cursor cursor)).Relates
      (fun leg outcome => Leg.Shifted chain.passed xs.length 0 ys.length leg inside.result ∧
        outcome = inside.result.outcome chain.passed) flat
      ((insideTurn (xs ++ innerChain chain ys inner :: zs) []) xs.length run
        (nestedBelow binding cursor first middle last) world) := by
  have hchild : advanceAt.advanceIn (xs ++ innerChain chain ys inner :: zs) xs.length [] run
      (nestedBelow binding cursor first middle last) world =
        (advance (innerChain chain ys inner) run (innerMemory binding cursor middle) world).map id
          (first.append <| Memories.cons · last) := by
    have hindex := advanceIn_append_right 0 [] run first
      (.cons (innerMemory binding cursor middle) last :
        Memories (innerChain chain ys inner :: zs)) world
    rw [Nat.add_zero, advanceAt.advanceIn, advanceAt_nil] at hindex
    exact hindex
  have hhides := hidesRoot_inner xs.length ys.length
  dsimp only [insideTurn]
  have hadvance : advance (innerChain chain ys inner) run (innerMemory binding cursor middle)
      world =
      { result := inside.result.outcome chain.passed
        memory := innerMemory binding (inside.result.cursor cursor) inside.memory
        world := inside.world
        journal := entryOf inner run world ++ inside.journal ++
          exitEntry inner (chain.kind : Kind κ) (chain.conclude cursor binding inside)
        spawned := inside.spawned
        again := inside.again } := chain.advance_of_turn hturn
  rw [hchild, hadvance]
  refine ⟨⟨hrelates.result, rfl⟩, ⟨first, inside.memory, last, hrelates.memory, rfl⟩,
    hrelates.world_eq, ?_, ?_, hrelates.again_eq⟩
  · refine Eq.trans hrelates.journal ?_
    rw [Progress.journal_under, Progress.journal_map, List.filterMap_map]
    exact (hhides.turn ..).symm
  · rw [Progress.spawned_under, Progress.spawned_map, List.forall₂_map_right_iff]
    exact hrelates.spawned

/-- The inner chain has its turn in the outer one, and the flat chain does the same. -/
theorem flattens_innerTurn {cursor : Nat} {first : Memories xs} {middle : Memories ys}
    {last : Memories zs} {run : Option Run} {flat : Progress Leg (Memories (xs ++ (ys ++ zs)))}
    {inside : Progress Leg (Memories ys)}
    (hturn : turnOf inner (chain.kind : Kind κ) ys run ⟨chain.state cursor, binding⟩ middle world =
      chain.conclude cursor binding inside)
    (hrelates : (insideLikeness xs ys zs first last).Relates
      (Leg.Shifted chain.passed xs.length 0 ys.length) flat inside) :
    Flattens chain binding xs ys zs inner
      (flat.andThen (Leg.goOn (walk (insideTurn (xs ++ (ys ++ zs)) []) chain.passed zs.length
        (xs.length + ys.length))))
      (walkFrom (insideTurn (xs ++ innerChain chain ys inner :: zs) []) chain.passed zs.length
        xs.length run (nestedBelow binding cursor first middle last) world) := by
  have hinner := relates_innerTurn hturn hrelates
  refine ⟨inside.result.cursor cursor, hinner.andThen ?_⟩
  obtain ⟨hshifted, houtcome⟩ := hinner.result
  rw [houtcome, ← hinner.world_eq]
  have hmemory := hinner.memory
  generalize flat.result = leg, inside.result = other at hshifted hmemory ⊢
  cases hshifted with
  | through =>
    rw [Leg.outcome, Leg.after, if_pos rfl]
    exact relates_after (Nat.zero_add _) hmemory
  | @ended position hposition status hstatus =>
    rw [Leg.outcome, Leg.after, if_neg hstatus]
    refine ⟨?_, hmemory, rfl, .nil, .nil, rfl⟩
    rw [Nat.zero_add]
    exact .ended_at (.inside (Nat.le_of_lt hposition)) status
  | @held position hposition run =>
    refine ⟨?_, hmemory, rfl, .nil, .nil, rfl⟩
    rw [Nat.zero_add]
    exact .held (.inside hposition cursor run)
  | failed fault => exact ⟨.failed _ fault, hmemory, rfl, .nil, .nil, rfl⟩

/-- The walks of both chains flatten if the inner chain begins at a cursor. -/
theorem flattens_inside {position : Nat} (hposition : position ≤ ys.length) (first : Memories xs)
    (middle : Memories ys) (last : Memories zs) (world : World) :
    Flattens chain binding xs ys zs inner
      (walk (insideTurn (xs ++ (ys ++ zs)) []) chain.passed (ys.length - position + zs.length)
        (xs.length + position) (flatBelow first middle last) world)
      (walk (insideTurn (xs ++ innerChain chain ys inner :: zs) []) chain.passed (zs.length + 1)
        xs.length (nestedBelow binding position first middle last) world) := by
  have hcount : position + (ys.length - position) = ys.length := by omega
  have hend : xs.length + position + (ys.length - position) = xs.length + ys.length := by omega
  have hwalk := (relatesTurns_inside [] first last).walk chain.passed (Nat.le_of_eq hcount) world
    (memories_inside first middle last)
  rw [Nat.zero_add] at hwalk
  rw [walk_add, hend, walk_succ]
  exact flattens_innerTurn (ChainKind.turnOf_none hcount) hwalk

/-- The inner chain goes on with a suspended member. -/
theorem flattens_held_inside {position count : Nat} (hcount : position + 1 + count = ys.length)
    (cursor : Nat) (run : Run) (first : Memories xs) (middle : Memories ys) (last : Memories zs)
    (world : World) :
    Flattens chain binding xs ys zs inner
      (walkFrom (insideTurn (xs ++ (ys ++ zs)) []) chain.passed (count + zs.length)
        (xs.length + position) (some run) (flatBelow first middle last) world)
      (walkFrom (insideTurn (xs ++ innerChain chain ys inner :: zs) []) chain.passed zs.length
        xs.length (some (.child position position run))
        (nestedBelow binding cursor first middle last) world) := by
  have hend : xs.length + position + 1 + count = xs.length + ys.length := by omega
  have hwalk := (relatesTurns_inside [] first last).walkFrom chain.passed (Nat.le_of_eq hcount)
    (some run) world (memories_inside first middle last)
  rw [Nat.zero_add] at hwalk
  rw [walkFrom_add, hend]
  exact flattens_innerTurn (ChainKind.turnOf_child hcount run) hwalk

/-- After members before the inner chain both chains go on with that. -/
theorem flattens_before {flat : Progress Leg (Memories (xs ++ (ys ++ zs)))}
    {nested : Progress Leg (Memories (xs ++ innerChain chain ys inner :: zs))}
    (hrelates : (membersLikeness chain binding xs ys zs inner 0).Relates
      (Leg.Shifted chain.passed 0 0 xs.length) flat nested) :
    Flattens chain binding xs ys zs inner
      (flat.andThen (Leg.goOn (walk (insideTurn (xs ++ (ys ++ zs)) []) chain.passed
        (ys.length + zs.length) xs.length)))
      (nested.andThen (Leg.goOn (walk (insideTurn (xs ++ innerChain chain ys inner :: zs) [])
        chain.passed (zs.length + 1) xs.length))) := by
  obtain ⟨hflat, hnested⟩ | ⟨hflat, hnested, hsame⟩ :=
    SameLeg.of_shifted_before ys.length zs.length hrelates.result
  · obtain ⟨first, middle, last, hflatMemory, hnestedMemory⟩ := hrelates.memory
    obtain ⟨cursor, hrest⟩ := @flattens_inside _ _ chain binding xs ys zs inner 0 (Nat.zero_le _)
      first middle last flat.world
    refine ⟨cursor, ?_⟩
    rw [Progress.andThen_eq, Progress.andThen_eq, hflat, hnested, hflatMemory, hnestedMemory,
      ← hrelates.world_eq, ← hrelates.again_eq]
    exact hrest.after hrelates.journal hrelates.spawned _
  · refine ⟨0, hrelates.andThen ?_⟩
    rw [Leg.goOn_of_ne hflat, Leg.goOn_of_ne hnested]
    exact ⟨hsame, hrelates.memory, hrelates.world_eq, .nil, .nil, rfl⟩

/-- Both chains begin where their cursors point. -/
theorem flattens_begin {flatCursor outerCursor cursor : Nat}
    (hcursors : Cursors xs.length ys.length zs.length flatCursor outerCursor cursor)
    (first : Memories xs) (middle : Memories ys) (last : Memories zs) (world : World) :
    ∃ count other, flatCursor + count = (xs ++ (ys ++ zs)).length ∧
      outerCursor + other = (xs ++ innerChain chain ys inner :: zs).length ∧
      Flattens chain binding xs ys zs inner
        (walk (insideTurn (xs ++ (ys ++ zs)) []) chain.passed count flatCursor
          (flatBelow first middle last) world)
        (walk (insideTurn (xs ++ innerChain chain ys inner :: zs) []) chain.passed other outerCursor
          (nestedBelow binding cursor first middle last) world) := by
  cases hcursors with
  | before hposition =>
    obtain ⟨rest, hrest⟩ := Nat.exists_eq_add_of_lt hposition
    have hend : flatCursor + (rest + 1) = xs.length := by omega
    have hwalk := (@relatesTurns_before κ _ chain binding xs ys zs inner [] 0).walk chain.passed
      (Nat.le_of_eq hend) world (memories_below 0 first middle last)
    rw [Nat.zero_add] at hwalk
    have hflattens := flattens_before hwalk
    refine ⟨rest + 1 + (ys.length + zs.length), rest + 1 + (zs.length + 1), ?_, ?_, ?_⟩
    · simp
      omega
    · simp
      omega
    · rwa [walk_add (rest + 1), walk_add (rest + 1), hend]
  | @inside position hposition =>
    refine ⟨_, _, ?_, ?_, flattens_inside hposition first middle last world⟩
    · simp
      omega
    · simp
  | @after position hposition =>
    have hend : position + (zs.length - position) = zs.length := by omega
    refine ⟨_, _, ?_, ?_, 0, relates_after hend (memories_below 0 first middle last)⟩
    · simp
      omega
    · simp
      omega

/-- Both chains go on with a suspended member. -/
theorem flattens_held {cursor position other : Nat} {run otherRun : Run}
    (hruns : HeldRuns xs.length ys.length zs.length cursor (.child position position run)
      (.child other other otherRun))
    (first : Memories xs) (middle : Memories ys) (last : Memories zs) (world : World) :
    ∃ count otherCount, position + 1 + count = (xs ++ (ys ++ zs)).length ∧
      other + 1 + otherCount = (xs ++ innerChain chain ys inner :: zs).length ∧
      Flattens chain binding xs ys zs inner
        (walkFrom (insideTurn (xs ++ (ys ++ zs)) []) chain.passed count position (some run)
          (flatBelow first middle last) world)
        (walkFrom (insideTurn (xs ++ innerChain chain ys inner :: zs) []) chain.passed otherCount
          other (some otherRun) (nestedBelow binding cursor first middle last) world) := by
  cases hruns with
  | before hposition =>
    obtain ⟨rest, hrest⟩ := Nat.exists_eq_add_of_lt hposition
    have hend : position + 1 + rest = xs.length := by omega
    have hwalk := (@relatesTurns_before κ _ chain binding xs ys zs inner [] 0).walkFrom
      chain.passed (Nat.le_of_eq hend) (some run) world (memories_below 0 first middle last)
    rw [Nat.zero_add] at hwalk
    have hflattens := flattens_before hwalk
    refine ⟨rest + (ys.length + zs.length), rest + (zs.length + 1), ?_, ?_, ?_⟩
    · simp
      omega
    · simp
      omega
    · rwa [walkFrom_add rest, walkFrom_add rest, hend]
  | @inside position hposition cursor run =>
    obtain ⟨count, hcount⟩ := Nat.exists_eq_add_of_lt hposition
    have hend : position + 1 + count = ys.length := by omega
    refine ⟨_, _, ?_, ?_, flattens_held_inside hend cursor run first middle last world⟩
    · simp
      omega
    · simp
      omega
  | @after position hposition =>
    obtain ⟨count, hcount⟩ := Nat.exists_eq_add_of_lt hposition
    have hend : position + 1 + count = zs.length := by omega
    have hwalk := (@relatesTurns_after κ _ chain binding xs ys zs inner [] 0).walkFrom
      chain.passed (Nat.le_of_eq hend) (some run) world (memories_below 0 first middle last)
    refine ⟨count, count, ?_, ?_, 0, hwalk.imp fun _ _ => .of_shifted_after⟩
    · simp
      omega
    · simp
      omega

end

end BehaviorTree
