import BehaviorTree.Proofs.Tree.Flattening

/-!
# A chain inside a chain of its kind

The flat and the nested tree do the same with their members in every turn (`relates_flat`), and so
do the tasks inside the members (`relates_placed`), aborts and resets. As long as the execution
does not fail, the cursors point at the same member afterwards (`Stands`). A failure leaves the
cursors of the flat and of the outer chain where they were, but the inner chain may have come to its
end before.
-/

namespace BehaviorTree

variable {κ : Type} [Application κ]

/-! ## Where the chains stand -/

section

variable {before inside after : Nat}

/-- At the beginning all cursors are zero. -/
theorem Cursors.start : Cursors before inside after 0 0 0 := by
  by_cases hbefore : 0 < before
  · exact .before hbefore
  · obtain rfl : before = 0 := by omega
    exact .inside (Nat.zero_le _)

variable (before inside after) in
/-- The suspended executions of the flat and of the outer chain, if there are any, and the cursors
of the flat, the outer and the inner chain. -/
inductive Stances : Option Run → Option Run → Nat → Nat → Nat → Prop where
  | idle {position other cursor : Nat}
    (hcursors : Cursors before inside after position other cursor) :
    Stances none none position other cursor
  | held {run otherRun : Run} {cursor : Nat}
    (hruns : HeldRuns before inside after cursor run otherRun) (position other : Nat) :
    Stances (some run) (some otherRun) position other cursor

/-- A suspended execution of either chain is that of the child at some position. -/
theorem HeldRuns.shape {cursor : Nat} {run otherRun : Run}
    (hruns : HeldRuns before inside after cursor run otherRun) :
    ∃ position other held otherHeld, run = .child position position held ∧
      otherRun = .child other other otherHeld := by
  cases hruns <;> exact ⟨_, _, _, _, rfl, rfl⟩

variable (before inside after) in
/-- The suspended executions of both trees while the same member is held up. -/
def FlatRuns (run other : Run) : Prop := ∃ cursor, HeldRuns before inside after cursor run other

variable {passed : Status} {cursor : Nat} {leg other : Leg}

/-- Walks that come equally far have like outcomes. -/
theorem SameLeg.like (hsame : SameLeg before inside after cursor leg other) :
    Outcome.Like id (FlatRuns before inside after) (leg.outcome passed) (other.outcome passed) := by
  cases hsame with
  | through => exact .answered passed
  | @ended status hstatus position otherPosition => exact .answered status
  | suspended hcursors => exact .answered .running
  | held hruns => exact .waiting ⟨cursor, hruns⟩
  | failed cursor fault => exact .failed fault

/-- Walks that come equally far leave both chains at the same member. -/
theorem SameLeg.stances (hsame : SameLeg before inside after cursor leg other)
    (hended : ∀ fault, leg.outcome passed ≠ .failed fault) (position otherPosition : Nat) :
    Stances before inside after (leg.outcome passed).run? (other.outcome passed).run?
      (leg.cursor position) (other.cursor otherPosition) cursor := by
  cases hsame with
  | through => exact .idle .start
  | @ended status hstatus position otherPosition =>
    rw [Leg.cursor, Leg.cursor, if_neg hstatus, if_neg hstatus]
    exact .idle .start
  | suspended hcursors => exact .idle hcursors
  | held hruns => exact .held hruns _ _
  | failed cursor fault => exact absurd rfl (hended fault)

end

/-! ## The likeness of the trees -/

section

variable (chain : ChainKind) (binding : Binding) (xs ys zs : List (Tree κ))
  (name outer inner : String)

/-- The members are the same on both sides, and the cursors are the given ones. -/
def placedLikeness (position other cursor : Nat) :
    Likeness (Memory (flatChain chain xs ys zs name))
      (Memory (nestedChain chain xs ys zs outer inner)) where
  memories := fun flat nested => ∃ below otherBelow,
    (membersLikeness chain binding xs ys zs inner cursor).memories below otherBelow ∧
      flat = .node ⟨chain.state position, binding⟩ below ∧
        nested = .node ⟨chain.state other, binding⟩ otherBelow
  positions := MemberPaths xs.length ys.length zs.length
  sees := Entry.below?
  otherSees := Entry.flattened? xs.length ys.length

/-- The members are the same on both sides, wherever the cursors are. -/
def flatLikeness :
    Likeness (Memory (flatChain chain xs ys zs name))
      (Memory (nestedChain chain xs ys zs outer inner)) :=
  { placedLikeness chain binding xs ys zs name outer inner 0 0 0 with
    memories := fun flat nested => ∃ position other cursor,
      (placedLikeness chain binding xs ys zs name outer inner position other cursor).memories flat
        nested }

/-- Both trees stand at the same member. -/
def Stands (run otherRun : Option Run) (flat : Memory (flatChain chain xs ys zs name))
    (nested : Memory (nestedChain chain xs ys zs outer inner)) : Prop :=
  ∃ position other cursor,
    Stances xs.length ys.length zs.length run otherRun position other cursor ∧
      (placedLikeness chain binding xs ys zs name outer inner position other cursor).memories flat
        nested

variable {chain binding xs ys zs name outer inner}

/-- Whatever corresponds at certain cursors corresponds. -/
theorem relates_of_placed {ρ τ : Type} {results : ρ → τ → Prop}
    {progress : Progress ρ (Memory (flatChain chain xs ys zs name))}
    {other : Progress τ (Memory (nestedChain chain xs ys zs outer inner))}
    {flatCursor outerCursor cursor : Nat}
    (hrelates : (placedLikeness chain binding xs ys zs name outer inner flatCursor outerCursor
      cursor).Relates results progress other) :
    (flatLikeness chain binding xs ys zs name outer inner).Relates results progress other :=
  ⟨hrelates.result, ⟨_, _, _, hrelates.memory⟩, hrelates.world_eq, hrelates.journal,
    hrelates.spawned, hrelates.again_eq⟩

/-! ## Turns -/

variable (chain binding xs ys zs name outer inner) in
/-- Both trees have a turn, and stand at the same member afterwards if they do not fail. -/
structure Advances (progress : Progress Outcome (Memory (flatChain chain xs ys zs name)))
    (other : Progress Outcome (Memory (nestedChain chain xs ys zs outer inner))) : Prop where
  /-- The turns correspond. -/
  relates : (flatLikeness chain binding xs ys zs name outer inner).Relates
    (Outcome.Like id (FlatRuns xs.length ys.length zs.length)) progress other
  /-- Both stand at the same member if there is no failure. -/
  stands : (∀ fault, progress.result ≠ .failed fault) →
    Stands chain binding xs ys zs name outer inner progress.result.run? other.result.run?
      progress.memory other.memory

section

variable {run otherRun : Option Run} {position other : Nat} {below : Memories (xs ++ (ys ++ zs))}
  {otherBelow : Memories (xs ++ innerChain chain ys inner :: zs)} {world : World}
  {progress : Progress Leg (Memories (xs ++ (ys ++ zs)))}
  {otherProgress : Progress Leg (Memories (xs ++ innerChain chain ys inner :: zs))}
  (hturn : turnOf name (chain.kind : Kind κ) (xs ++ (ys ++ zs)) run
    ⟨chain.state position, binding⟩ below world = chain.conclude position binding progress)
  (hotherTurn : turnOf outer (chain.kind : Kind κ) (xs ++ innerChain chain ys inner :: zs) otherRun
    ⟨chain.state other, binding⟩ otherBelow world = chain.conclude other binding otherProgress)

include hturn hotherTurn

/-- Two walks that come equally far, as turns of both trees. -/
theorem relates_walks {cursor : Nat}
    (hrelates : (membersLikeness chain binding xs ys zs inner cursor).Relates
      (SameLeg xs.length ys.length zs.length cursor) progress otherProgress) :
    (placedLikeness chain binding xs ys zs name outer inner (progress.result.cursor position)
      (otherProgress.result.cursor other) cursor).Relates
        (fun outcome otherOutcome => outcome = progress.result.outcome chain.passed ∧
          otherOutcome = otherProgress.result.outcome chain.passed)
        (advance (flatChain chain xs ys zs name) run (.node ⟨chain.state position, binding⟩ below)
          world)
        (advance (nestedChain chain xs ys zs outer inner) otherRun
          (.node ⟨chain.state other, binding⟩ otherBelow) world) := by
  refine Likeness.Relates.advance hidesRoot_below (hidesRoot_flattened _ _) ?_
  rw [hturn, hotherTurn]
  exact ⟨⟨rfl, rfl⟩, ⟨_, _, hrelates.memory, rfl, rfl⟩, hrelates.world_eq, hrelates.journal,
    hrelates.spawned, hrelates.again_eq⟩

/-- Chains whose walks come equally far have advanced alike. -/
theorem advances_walks
    (hflattens : Flattens chain binding xs ys zs inner progress otherProgress) :
    Advances chain binding xs ys zs name outer inner
      (advance (flatChain chain xs ys zs name) run (.node ⟨chain.state position, binding⟩ below)
        world)
      (advance (nestedChain chain xs ys zs outer inner) otherRun
        (.node ⟨chain.state other, binding⟩ otherBelow) world) := by
  obtain ⟨cursor, hrelates⟩ := hflattens
  have hadvance := relates_walks hturn hotherTurn hrelates
  obtain ⟨hresult, hotherResult⟩ := hadvance.result
  constructor
  · refine (relates_of_placed hadvance).imp ?_
    rintro outcome otherOutcome ⟨rfl, rfl⟩
    exact hrelates.result.like
  · intro hended
    rw [hresult] at hended
    have hstances := hrelates.result.stances hended position other
    rw [← hresult, ← hotherResult] at hstances
    exact ⟨_, _, cursor, hstances, hadvance.memory⟩

end

/-- A turn of the flat tree is a turn of the nested one. -/
theorem relates_flat {run otherRun : Option Run} {flat : Memory (flatChain chain xs ys zs name)}
    {nested : Memory (nestedChain chain xs ys zs outer inner)}
    (hstands : Stands chain binding xs ys zs name outer inner run otherRun flat nested)
    (world : World) :
    Advances chain binding xs ys zs name outer inner
      (advance (flatChain chain xs ys zs name) run flat world)
      (advance (nestedChain chain xs ys zs outer inner) otherRun nested world) := by
  obtain ⟨position, other, cursor, hstances, _, _, ⟨first, middle, last, rfl, rfl⟩, rfl, rfl⟩ :=
    hstands
  cases hstances with
  | idle hcursors =>
    obtain ⟨count, otherCount, hcount, hotherCount, hflattens⟩ :=
      flattens_begin hcursors first middle last world
    exact advances_walks (chain.turnOf_none hcount) (chain.turnOf_none hotherCount) hflattens
  | held hruns =>
    obtain ⟨index, otherIndex, inside, otherInside, rfl, rfl⟩ := hruns.shape
    obtain ⟨count, otherCount, hcount, hotherCount, hflattens⟩ :=
      flattens_held hruns first middle last world
    exact advances_walks (chain.turnOf_child hcount inside)
      (chain.turnOf_child hotherCount otherInside) hflattens

/-! ## Trees inside the members -/

/-- A turn inside a member of the inner chain does the same in both trees. -/
theorem relates_insideInner {cursor position : Nat} (hposition : position < ys.length) (path : Path)
    (run : Option Run) (first : Memories xs) (middle : Memories ys) (last : Memories zs)
    (world : World) :
    (membersLikeness chain binding xs ys zs inner cursor).Relates Eq
      (insideTurn (xs ++ (ys ++ zs)) path (xs.length + position) run (flatBelow first middle last)
        world)
      (insideTurn (xs ++ innerChain chain ys inner :: zs) (position :: path) xs.length run
        (nestedBelow binding cursor first middle last) world) := by
  have hinside := (relatesTurns_inside path first last) position hposition run
    (flatBelow first middle last) middle world rfl
  rw [Nat.zero_add] at hinside
  have hchild : advanceAt.advanceIn (xs ++ innerChain chain ys inner :: zs) xs.length
      (position :: path) run (nestedBelow binding cursor first middle last) world =
        (insideTurn ys path position run middle world).map id
          fun middle => nestedBelow binding cursor first middle last := by
    have hindex := advanceIn_append_right 0 (position :: path) run first
      (.cons (innerMemory binding cursor middle) last :
        Memories (innerChain chain ys inner :: zs)) world
    rw [Nat.add_zero] at hindex
    exact hindex
  generalize insideTurn ys path position run middle world = inside at hinside hchild
  generalize insideTurn (xs ++ (ys ++ zs)) path (xs.length + position) run
    (flatBelow first middle last) world = flat at hinside
  dsimp only [insideTurn]
  rw [hchild]
  refine ⟨hinside.result, ⟨first, _, last, hinside.memory, rfl⟩, hinside.world_eq, ?_, ?_,
    hinside.again_eq⟩
  · refine Eq.trans hinside.journal ?_
    rw [Progress.journal_under, Progress.journal_map, List.filterMap_map]
    rfl
  · rw [Progress.spawned_under, Progress.spawned_map, List.forall₂_map_right_iff]
    exact hinside.spawned

/-- A tree inside a member, in the flat and in the nested tree. -/
theorem relates_member {cursor : Nat} {path otherPath : Path}
    (hpaths : MemberPaths xs.length ys.length zs.length path otherPath) (run : Option Run)
    {below : Memories (xs ++ (ys ++ zs))}
    {otherBelow : Memories (xs ++ innerChain chain ys inner :: zs)}
    (hmemories : (membersLikeness chain binding xs ys zs inner cursor).memories below otherBelow)
    (world : World) :
    ∃ index rest other otherRest, path = index :: rest ∧ otherPath = other :: otherRest ∧
      (membersLikeness chain binding xs ys zs inner cursor).Relates Eq
        (insideTurn (xs ++ (ys ++ zs)) rest index run below world)
        (insideTurn (xs ++ innerChain chain ys inner :: zs) otherRest other run otherBelow
          world) := by
  cases hpaths with
  | @before position hposition path =>
    have hturn := relatesTurns_before path cursor position hposition run below otherBelow world
      hmemories
    rw [Nat.zero_add] at hturn
    exact ⟨_, _, _, _, rfl, rfl, hturn⟩
  | @inside position hposition path =>
    obtain ⟨first, middle, last, rfl, rfl⟩ := hmemories
    exact ⟨_, _, _, _, rfl, rfl,
      relates_insideInner hposition path run first middle last world⟩
  | @after position hposition path =>
    exact ⟨_, _, _, _, rfl, rfl,
      relatesTurns_after path cursor position hposition run below otherBelow world hmemories⟩

/-- A tree inside a member is executed as in the nested tree. -/
theorem relates_placed {position other cursor : Nat} {path otherPath : Path}
    (hpaths : MemberPaths xs.length ys.length zs.length path otherPath) (run : Option Run)
    {flat : Memory (flatChain chain xs ys zs name)}
    {nested : Memory (nestedChain chain xs ys zs outer inner)}
    (hmemories : (placedLikeness chain binding xs ys zs name outer inner position other
      cursor).memories flat nested) (world : World) :
    (placedLikeness chain binding xs ys zs name outer inner position other cursor).Relates Eq
      (advanceAt (flatChain chain xs ys zs name) path run flat world)
      (advanceAt (nestedChain chain xs ys zs outer inner) otherPath run nested world) := by
  obtain ⟨below, otherBelow, hbelow, rfl, rfl⟩ := hmemories
  obtain ⟨index, rest, otherIndex, otherRest, rfl, rfl, hrelates⟩ :=
    relates_member hpaths run hbelow world
  exact ⟨hrelates.result, ⟨_, _, hrelates.memory, rfl, rfl⟩, hrelates.world_eq, hrelates.journal,
    hrelates.spawned, hrelates.again_eq⟩

/-! ## Abort and reset -/

variable (chain binding) in
/-- What a control does with a chain: the cursor moves, and the children have their turn. -/
def PassesOn (now : Nat) (control : (tree : Tree κ) → Memory tree → Memory tree × Journal)
    (move : Nat → Nat) : Prop :=
  ∀ (name : String) (children : List (Tree κ)) (cursor : Nat) (below : Memories children),
    ∃ begun done, control ⟨name, chain.kind, children⟩ (.node ⟨chain.state cursor, binding⟩ below) =
      (.node ⟨chain.state (move cursor), binding⟩ (below.sweep control 0).1,
        eventAt now begun :: (below.sweep control 0).2 ++ [eventAt now done])

/-- An abort leaves the cursor of a chain and reaches its children. -/
theorem passesOn_abort (now : Nat) :
    PassesOn chain binding now (fun (_ : Tree κ) => Memory.abort now) id := by
  intro name children cursor below
  refine ⟨.abortBegun name, .abortDone name (some (.cursor cursor)), ?_⟩
  rw [← Memories.abort_eq_sweep]
  cases chain <;> rfl

/-- A reset sets the cursor of a chain to zero and reaches its children. -/
theorem passesOn_reset (now : Nat) :
    PassesOn chain binding now (fun (_ : Tree κ) => Memory.reset now) fun _ => 0 := by
  intro name children cursor below
  refine ⟨.resetBegun name, .resetDone name (some (.cursor 0)), ?_⟩
  rw [← Memories.reset_eq_sweep]
  cases chain <;> rfl

variable {now : Nat} {control : (tree : Tree κ) → Memory tree → Memory tree × Journal}
  {move : Nat → Nat}

/-- What is done with all children leaves the members the same on both sides. -/
theorem memories_members {later : Binding} {cursor laterCursor : Nat} {middle : Memories ys}
    (hinner : (control (innerChain chain ys inner) (innerMemory binding cursor middle)).1 =
      innerMemory later laterCursor (middle.sweep control 0).1)
    (first : Memories xs) (last : Memories zs) :
    (membersLikeness chain later xs ys zs inner laterCursor).memories
      ((flatBelow first middle last).sweep control 0).1
      ((nestedBelow binding cursor first middle last).sweep control 0).1 := by
  have hmiddle : (middle.sweep control xs.length).1 = (middle.sweep control 0).1 :=
    (@Memories.sweep_shift κ _ ys control (fun _ => none) (fun _ => none) xs.length 0
      (fun _ _ _ => rfl) middle).1
  have hlast : (last.sweep control (xs.length + ys.length)).1 =
      (last.sweep control (xs.length + 1)).1 :=
    (@Memories.sweep_shift κ _ zs control (fun _ => none) (fun _ => none) (xs.length + ys.length)
      (xs.length + 1) (fun _ _ _ => rfl) last).1
  rw [flatBelow, nestedBelow, Memories.sweep_append, Memories.sweep_append, Memories.sweep_append,
    Memories.sweep, Nat.zero_add]
  refine ⟨_, _, _, rfl, ?_⟩
  rw [hmiddle, hlast]
  dsimp only
  rw [hinner]
  rfl

/-- What is done with all children is done with the members in the same order. -/
theorem controls_members (hpasses : PassesOn chain binding now control move) (cursor : Nat)
    (first : Memories xs) (middle : Memories ys) (last : Memories zs) :
    (membersLikeness chain binding xs ys zs inner (move cursor)).Controls
      ((flatBelow first middle last).sweep control 0)
      ((nestedBelow binding cursor first middle last).sweep control 0) := by
  obtain ⟨begun, done, hinner⟩ := hpasses inner ys cursor middle
  refine ⟨memories_members (congrArg Prod.fst hinner) first last, ?_⟩
  have hrelayed : (control (innerChain chain ys inner) (innerMemory binding cursor middle)).2 =
      eventAt now begun :: (middle.sweep control 0).2 ++ [eventAt now done] :=
    congrArg Prod.snd hinner
  have hfirst := @Memories.sweep_shift κ _ xs control Entry.below?
    (Entry.flattened? xs.length ys.length) 0 0
    (fun offset hoffset entry => by
      rw [Nat.zero_add]
      exact (flattened?_before entry hoffset).symm) first
  have hmiddle := @Memories.sweep_shift κ _ ys control Entry.below?
    (fun entry => (entry.under xs.length).flattened? xs.length ys.length) xs.length 0
    (fun offset _ entry => by
      rw [Nat.zero_add]
      exact (flattened?_inside entry).symm) middle
  have hlast := @Memories.sweep_shift κ _ zs control Entry.below?
    (Entry.flattened? xs.length ys.length) (xs.length + ys.length) (xs.length + 1)
    (fun offset _ entry => (flattened?_after entry).symm) last
  rw [flatBelow, nestedBelow, Memories.sweep_append, Memories.sweep_append, Memories.sweep_append,
    Memories.sweep, hrelayed, Nat.zero_add]
  refine Likeness.Journals.append hfirst.2 (Likeness.Journals.append ?_ hlast.2)
  refine hmiddle.2.trans ?_
  rw [List.filterMap_map]
  exact ((hidesRoot_inner xs.length ys.length).control now begun done _).symm

/-- The same is done with the members of both trees, and every cursor moves. -/
theorem controls_placed (hpasses : PassesOn chain binding now control move)
    {flat : Memory (flatChain chain xs ys zs name)}
    {nested : Memory (nestedChain chain xs ys zs outer inner)} {position other cursor : Nat}
    (hmemories : (placedLikeness chain binding xs ys zs name outer inner position other
      cursor).memories flat nested) :
    (placedLikeness chain binding xs ys zs name outer inner (move position) (move other)
      (move cursor)).Controls (control _ flat) (control _ nested) := by
  obtain ⟨_, _, ⟨first, middle, last, rfl, rfl⟩, rfl, rfl⟩ := hmemories
  have hmembers : (membersLikeness chain binding xs ys zs inner (move cursor)).Controls _ _ :=
    controls_members hpasses cursor first middle last
  obtain ⟨begun, done, hflat⟩ := hpasses name (xs ++ (ys ++ zs)) position
    (flatBelow first middle last)
  obtain ⟨otherBegun, otherDone, hnested⟩ := hpasses outer (xs ++ innerChain chain ys inner :: zs)
    other (nestedBelow binding cursor first middle last)
  have hbelow : (placedLikeness chain binding xs ys zs name outer inner (move position) (move other)
      (move cursor)).inTurn.Controls
        ((⟨chain.state (move position), binding⟩,
          ((flatBelow first middle last).sweep control 0).1),
          ((flatBelow first middle last).sweep control 0).2)
        ((⟨chain.state (move other), binding⟩,
          ((nestedBelow binding cursor first middle last).sweep control 0).1),
          ((nestedBelow binding cursor first middle last).sweep control 0).2) :=
    ⟨⟨_, _, hmembers.memory, rfl, rfl⟩, hmembers.journal⟩
  have hcontrols := hbelow.node hidesRoot_below (hidesRoot_flattened _ _) now begun done otherBegun
    otherDone
  rw [← hflat, ← hnested] at hcontrols
  exact hcontrols

/-! ## The start -/

/-- Trees that have never run stand at the first member. -/
theorem stands_fresh (binding : Binding) :
    Stands chain binding xs ys zs name outer inner none none
      (Memory.fresh binding (flatChain chain xs ys zs name))
      (Memory.fresh binding (nestedChain chain xs ys zs outer inner)) := by
  have hinitial : (chain.kind : Kind κ).initial = chain.state 0 := by cases chain <;> rfl
  have hflat : Memories.fresh binding (xs ++ (ys ++ zs)) =
      flatBelow (Memories.fresh binding xs) (Memories.fresh binding ys)
        (Memories.fresh binding zs) := by
    rw [flatBelow, Memories.fresh_append, Memories.fresh_append]
  have hnested : Memories.fresh binding (xs ++ innerChain chain ys inner :: zs) =
      nestedBelow binding 0 (Memories.fresh binding xs) (Memories.fresh binding ys)
        (Memories.fresh binding zs) := by
    rw [nestedBelow, Memories.fresh_append, innerMemory, ← hinitial]
    rfl
  refine ⟨0, 0, 0, .idle .start, _, _, ⟨_, _, _, hflat, hnested⟩, ?_, ?_⟩
  · rw [← hinitial]
    rfl
  · rw [← hinitial]
    rfl

/-- Trees that are bound to a shared context stand where they stood. -/
theorem stands_bind (now id : Nat) {flat : Memory (flatChain chain xs ys zs name)}
    {nested : Memory (nestedChain chain xs ys zs outer inner)} {run otherRun : Option Run}
    (hstands : Stands chain binding xs ys zs name outer inner run otherRun flat nested) :
    Stands chain (.shared id) xs ys zs name outer inner run otherRun
      (flat.bind now id fun _ => false).1 (nested.bind now id fun _ => false).1 := by
  obtain ⟨position, other, cursor, hstances, _, _, ⟨first, middle, last, rfl, rfl⟩, rfl, rfl⟩ :=
    hstands
  have hbind : ∀ (name : String) (children : List (Tree κ)) (cursor : Nat)
      (below : Memories children), ((Memory.node ⟨chain.state cursor, binding⟩ below :
        Memory ⟨name, chain.kind, children⟩).bind now id fun _ => false).1 =
          .node ⟨chain.state cursor, .shared id⟩
            (below.sweep (fun _ => Memory.bind now id fun _ => false) 0).1 := by
    intro name children cursor below
    rw [← Memories.bind_eq_sweep]
    cases chain <;> rfl
  exact ⟨position, other, cursor, hstances, _, _,
    memories_members (hbind inner ys cursor middle) first last, hbind name _ position _,
    hbind outer _ other _⟩

end

end BehaviorTree
