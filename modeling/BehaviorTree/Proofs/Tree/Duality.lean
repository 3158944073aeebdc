import BehaviorTree.Proofs.Tree.Likeness
import BehaviorTree.Proofs.Tree.Parts

/-!
# Sequences and selectors are dual

A sequence goes on after success and a selector after failure. So a sequence of inverted children,
itself inverted, does what the selector of these children does: both run the same children in every
turn and answer the same (`relates_selector`), and abort and reset reach the same children.
-/

namespace BehaviorTree

variable {κ : Type} [Application κ]

/-- The entry as the first child writes it. -/
def Entry.inside? (entry : Entry) : Option Entry :=
  match entry.path with
  | 0 :: path => some { entry with path }
  | _ => none

/-- Seeing only the first child hides the root. -/
theorem hidesRoot_inside : HidesRoot Entry.inside? := fun entry hroot => by
  rw [Entry.inside?, hroot]

/-- The entry as it would be without the inverter between the child and the root. -/
def Entry.without? (entry : Entry) : Option Entry :=
  match entry.path with
  | index :: 0 :: path => some { entry with path := index :: path }
  | _ => none

/-- Seeing what is below the inverters hides the root. -/
theorem hidesRoot_without : HidesRoot Entry.without? := fun entry hroot => by
  rw [Entry.without?, hroot]

/-- A status that is inverted twice is the same again. -/
theorem Status.inverted_inverted (status : Status) : status.inverted.inverted = status := by
  cases status <;> rfl

/-! ## A node under an inverter -/

section Inverter

/-- A tree under an inverter. -/
def Tree.inverted (label : String) (tree : Tree κ) : Tree κ := ⟨label, .inverter, [tree]⟩

variable (label : String) {tree : Tree κ} (cell : Cell (Kind.inverter : Kind κ).State)

/-- The memory of a tree under an inverter. -/
def Memory.inverted (memory : Memory tree) : Memory (tree.inverted label) :=
  .node cell (.cons memory .nil)

/-- What an inverter makes of the outcome of its child. -/
def IsInverted : Outcome → Outcome → Prop :=
  Outcome.Like Status.inverted fun run other => other = .child 0 0 run

/-- A tree, and the same tree under an inverter. -/
def inverterLikeness (tree : Tree κ) : Likeness (Memory tree) (Memory (tree.inverted label)) where
  memories := fun memory other => other = memory.inverted label cell
  positions := fun path other => other = 0 :: path
  sees := some
  otherSees := Entry.inside?

omit [Application κ] in
/-- The entries of a child are seen as it writes them. -/
theorem filterMap_inside_under (journal : Journal) :
    (journal.map (·.under 0)).filterMap Entry.inside? = journal := by
  rw [List.filterMap_map]
  exact List.filterMap_some

/-- The inverter answers the opposite of what the child answers. -/
theorem drive_inverter (outcome : Outcome) (fuel : Nat) (below : Memories [tree]) (world : World) :
    ∃ inverted, IsInverted outcome inverted ∧
      (crewOf [tree]).drive label .inverter 1 (fuel + 1) (replyOfChild 0 0 outcome) cell below
        world = { result := inverted, memory := (cell, below), world } := by
  cases outcome with
  | answered status =>
    refine ⟨.answered status.inverted, .answered status, ?_⟩
    have hmove : ∀ moment, (Kind.inverter : Kind κ).respond moment cell.state (.answered 0 status) =
        .finish cell.state status.inverted := fun _ => rfl
    rw [replyOfChild, Crew.drive_signal, hmove, Move.finish]
    dsimp only
    rw [World.write_nil, Crew.serve, Crew.drive_stop]
    rfl
  | waiting run => exact ⟨.waiting (.child 0 0 run), .waiting rfl, Crew.drive_stop ..⟩
  | failed fault => exact ⟨.failed fault, .failed fault, Crew.drive_stop ..⟩

/-- The turn of an inverter is that of its child. -/
theorem turnOf_inverter (run : Option Run) (memory : Memory tree) (world : World) :
    let progress := advance tree run memory world
    ∃ inverted, IsInverted progress.result inverted ∧
      turnOf label .inverter [tree] (run.map (.child 0 0)) cell (.cons memory .nil) world =
        (progress.under 0).map (fun _ => inverted) (cell, .cons · .nil) := by
  intro progress
  have hserved : ∀ fuel, ∃ inverted, IsInverted progress.result inverted ∧
      ((((crewOf [tree]).advance 0 run (.cons memory .nil) world).under 0).map
        (replyOfChild 0 0) id).andThen
          ((crewOf [tree]).drive label .inverter 1 (fuel + 1) · cell · ·) =
        (progress.under 0).map (fun _ => inverted) (cell, .cons · .nil) := by
    intro fuel
    obtain ⟨inverted, hinverted, hdrive⟩ :=
      drive_inverter label cell progress.result fuel (.cons progress.memory .nil) progress.world
    refine ⟨inverted, hinverted, ?_⟩
    have hchild : (crewOf [tree]).advance 0 run (.cons memory .nil) world =
        progress.map id (.cons · .nil) := rfl
    rw [hchild, Progress.andThen_eq]
    dsimp only [Progress.result_map, Progress.memory_map, Progress.world_map, Progress.under,
      Progress.map, id_eq]
    rw [hdrive]
    simp [Progress.after]
  cases run with
  | some run => exact hserved 3
  | none =>
    obtain ⟨inverted, hinverted, hdriven⟩ := hserved 2
    refine ⟨inverted, hinverted, ?_⟩
    have hmove : ∀ moment : Moment, moment.size = 1 →
        (Kind.inverter : Kind κ).respond moment cell.state .started =
          .ask cell.state (.run 0 0) := by
      intro moment hsize
      have hstart : Relabel.respond Status.inverted moment .started = .ask () (.run 0 0) := by
        rw [Relabel.respond, hsize, if_neg Nat.one_ne_zero]
      exact hstart
    have hfuel : (Kind.inverter : Kind κ).allowance [tree].length = 2 + 1 + 1 := rfl
    rw [← hdriven, Option.map_none, turnOf]
    rw [hfuel, Crew.drive_signal, hmove _ rfl, Move.ask]
    dsimp only
    rw [World.write_nil, Crew.serve]
    simp [Progress.after, Progress.andThen]

/-- Tasks are started below an inverter at the positions of the tree without it. -/
theorem spawns_inverter (spawned : List Spawn) :
    List.Forall₂ (inverterLikeness label cell tree).Spawns spawned (spawned.map (·.under 0)) :=
  List.forall₂_map_right_iff.mpr (List.forall₂_same.mpr fun _ _ => ⟨rfl, rfl⟩)

/-- A turn of a tree under an inverter is a turn of the tree, and what it answers is inverted. -/
theorem relates_inverter (run : Option Run) (memory : Memory tree) (world : World) :
    (inverterLikeness label cell tree).Relates IsInverted (advance tree run memory world)
      (advance (tree.inverted label) (run.map (.child 0 0)) (memory.inverted label cell)
        world) := by
  obtain ⟨inverted, hinverted, hturn⟩ := turnOf_inverter label cell run memory world
  have hadvance := advance_eq label .inverter [tree] (run.map (.child 0 0)) cell (.cons memory .nil)
    world
  rw [hturn] at hadvance
  change Likeness.Relates _ _ _ (advance ⟨label, .inverter, [tree]⟩ _ (.node cell _) world)
  rw [hadvance]
  refine ⟨hinverted, rfl, rfl, ?_, spawns_inverter label cell _, rfl⟩
  exact List.filterMap_some.trans ((hidesRoot_inside.turn ..).trans (filterMap_inside_under _)).symm

/-- A tree inside a tree under an inverter is executed as in the tree itself. -/
theorem relates_inside_inverter (path : Path) (run : Option Run) (memory : Memory tree)
    (world : World) :
    (inverterLikeness label cell tree).Relates Eq (advanceAt tree path run memory world)
      (advanceAt (tree.inverted label) (0 :: path) run (memory.inverted label cell) world) := by
  have hinside : advanceAt (tree.inverted label) (0 :: path) run (memory.inverted label cell)
      world =
        ((advanceAt tree path run memory world).under 0).map id (.node cell <| .cons · .nil) := rfl
  rw [hinside]
  exact ⟨rfl, rfl, rfl, List.filterMap_some.trans (filterMap_inside_under _).symm,
    spawns_inverter label cell _, rfl⟩

end Inverter

/-! ## Children under inverters -/

section Children

variable (label : Tree κ → String) (cell : Cell (Kind.inverter : Kind κ).State)

/-- The memories of several trees, each under an inverter. -/
def Memories.inverted : {trees : List (Tree κ)} → Memories trees →
    Memories (trees.map fun tree => tree.inverted (label tree))
  | [], .nil => .nil
  | tree :: _, .cons first rest => .cons (first.inverted (label tree) cell) rest.inverted

/-- Several trees, and the same trees under inverters. The positions are those in one of them. -/
def childrenLikeness (trees : List (Tree κ)) :
    Likeness (Memories trees) (Memories (trees.map fun tree => tree.inverted (label tree))) where
  memories := fun memories other => other = memories.inverted label cell
  positions := fun path other => other = 0 :: path
  sees := some
  otherSees := Entry.inside?

variable {label cell} {tree : Tree κ} {trees : List (Tree κ)} {ρ : Type} {results : ρ → ρ → Prop}

/-- Several trees correspond after the first of them has had a turn that corresponds. -/
theorem relates_first {progress : Progress ρ (Memory tree)}
    {other : Progress ρ (Memory (tree.inverted (label tree)))}
    (hrelates : (inverterLikeness (label tree) cell tree).Relates results progress other)
    (rest : Memories trees) :
    (childrenLikeness label cell (tree :: trees)).Relates results
      (progress.map id (.cons · rest))
      (other.map id (Memories.cons · (rest.inverted label cell))) where
  result := hrelates.result
  memory := congrArg (Memories.cons · (rest.inverted label cell)) hrelates.memory
  world_eq := hrelates.world_eq
  journal := hrelates.journal
  spawned := hrelates.spawned
  again_eq := hrelates.again_eq

/-- Several trees correspond after one of the others has had a turn that corresponds. -/
theorem relates_rest {progress : Progress ρ (Memories trees)}
    {other : Progress ρ (Memories (trees.map fun tree => tree.inverted (label tree)))}
    (hrelates : (childrenLikeness label cell trees).Relates results progress other)
    (first : Memory tree) :
    (childrenLikeness label cell (tree :: trees)).Relates results
      (progress.map id (.cons first ·))
      (other.map id (Memories.cons (first.inverted (label tree) cell) ·)) where
  result := hrelates.result
  memory := congrArg (Memories.cons (first.inverted (label tree) cell) ·) hrelates.memory
  world_eq := hrelates.world_eq
  journal := hrelates.journal
  spawned := hrelates.spawned
  again_eq := hrelates.again_eq

/-- Both crash in the same way where there is no child with the index. -/
theorem relates_missing {results : Outcome → Outcome → Prop}
    (hcrashed : results (.failed .crashed) (.failed .crashed)) (world : World) :
    (childrenLikeness label cell []).Relates results
      { result := .failed .crashed, memory := Memories.nil, world }
      { result := .failed .crashed, memory := Memories.nil, world } :=
  ⟨hcrashed, rfl, rfl, rfl, .nil, rfl⟩

variable (label cell)

/-- A turn of a child without and with an inverter corresponds. -/
theorem relates_advanceChild (trees : List (Tree κ)) (index : Nat) (run : Option Run)
    (memories : Memories trees) (world : World) :
    (childrenLikeness label cell trees).Relates IsInverted
      (advanceChild trees index run memories world)
      (advanceChild (trees.map fun tree => tree.inverted (label tree)) index
        (run.map (.child 0 0)) (memories.inverted label cell) world) := by
  induction trees generalizing index with
  | nil =>
    cases memories
    exact relates_missing (.failed .crashed) world
  | cons tree trees ih =>
    cases memories with
    | cons first rest =>
      cases index with
      | zero => exact relates_first (relates_inverter (label tree) cell run first world) rest
      | succ index => exact relates_rest (ih index rest) first

/-- A turn inside a child without and with an inverter corresponds. -/
theorem relates_advanceIn (trees : List (Tree κ)) (index : Nat) (path : Path) (run : Option Run)
    (memories : Memories trees) (world : World) :
    (childrenLikeness label cell trees).Relates Eq
      (advanceAt.advanceIn trees index path run memories world)
      (advanceAt.advanceIn (trees.map fun tree => tree.inverted (label tree)) index (0 :: path) run
        (memories.inverted label cell) world) := by
  induction trees generalizing index with
  | nil =>
    cases memories
    exact relates_missing rfl world
  | cons tree trees ih =>
    cases memories with
    | cons first rest =>
      cases index with
      | zero =>
        exact relates_first (relates_inside_inverter (label tree) cell path run first world) rest
      | succ index => exact relates_rest (ih index rest) first

end Children

/-! ## Chains -/

section Chain

/-- The signals of a selector, and those of a sequence of inverted children. -/
inductive Signal.Dual : Signal → Signal → Prop where
  | started : Dual .started .started
  | answered (position : Nat) (status : Status) :
    Dual (.answered position status) (.answered position status.inverted)

/-- To dual signals both chains go on with the same child, or end with opposite statuses. -/
theorem Chain.respond_dual {signal other : Signal} (hdual : signal.Dual other)
    (moment otherMoment : Moment) (hsize : moment.size = otherMoment.size) (cursor : Nat) :
    (∃ next position,
        Chain.respond .failure moment cursor signal = .ask next (.run position position) ∧
        Chain.respond .success otherMoment cursor other = .ask next (.run position position)) ∨
      ∃ next status, Chain.respond .failure moment cursor signal = .finish next status ∧
        Chain.respond .success otherMoment cursor other = .finish next status.inverted := by
  have hproceed : ∀ position,
      (∃ next position', Chain.proceed .failure moment.size cursor position =
            .ask next (.run position' position') ∧
          Chain.proceed .success otherMoment.size cursor position =
            .ask next (.run position' position')) ∨
        ∃ next status, Chain.proceed .failure moment.size cursor position = .finish next status ∧
          Chain.proceed .success otherMoment.size cursor position =
            .finish next status.inverted := by
    intro position
    rw [Chain.proceed, Chain.proceed, ← hsize]
    split
    · exact .inl ⟨cursor, position, rfl, rfl⟩
    · exact .inr ⟨0, .failure, rfl, rfl⟩
  cases hdual with
  | started => exact hproceed cursor
  | answered position status =>
    cases status with
    | running => exact .inr ⟨position, .running, rfl, rfl⟩
    | success => exact .inr ⟨0, .success, rfl, rfl⟩
    | failure => exact hproceed (position + 1)

/-- A child of a chain is suspended, without and with an inverter. -/
def ChainRuns (run other : Run) : Prop :=
  ∃ mark index inner, run = .child mark index inner ∧
    other = .child mark index (.child 0 0 inner)

/-- What follows for a selector, and for a sequence of inverted children. -/
inductive Reply.Dual : Reply → Reply → Prop where
  | signal {signal other : Signal} (hdual : signal.Dual other) :
    Dual (.signal signal) (.signal other)
  | stop {outcome other : Outcome} (hlike : Outcome.Like Status.inverted ChainRuns outcome other) :
    Dual (.stop outcome) (.stop other)

/-- What follows from a child is dual if its outcome is inverted. -/
theorem Reply.Dual.ofChild {outcome other : Outcome} (hinverted : IsInverted outcome other)
    (mark index : Nat) :
    (replyOfChild mark index outcome).Dual (replyOfChild mark index other) := by
  cases hinverted with
  | answered status => exact .signal (.answered mark status)
  | waiting hruns =>
    exact .stop (.waiting ⟨mark, index, _, rfl, congrArg (Run.child mark index) hruns⟩)
  | failed fault => exact .stop (.failed fault)

variable (name inner : String) (label : Tree κ → String) (binding : Binding)
  (children : List (Tree κ))

/-- A cell of an inverter. -/
def inverterCell (binding : Binding) : Cell (Kind.inverter : Kind κ).State :=
  ⟨Kind.initial .inverter, binding⟩

/-- A selector, and the sequence of its inverted children. Both have the same cursor. -/
def chainLikeness :
    Likeness (Memory ⟨name, .selector, children⟩)
      (Memory ⟨inner, .sequence, children.map fun child => child.inverted (label child)⟩) where
  memories := fun memory other => ∃ (cursor : Nat) (below : Memories children),
    memory = .node ⟨cursor, binding⟩ below ∧
      other = .node ⟨cursor, binding⟩ (below.inverted label (inverterCell binding))
  positions := fun path other => ∃ index rest, path = index :: rest ∧ other = index :: 0 :: rest
  sees := Entry.below?
  otherSees := Entry.without?

/-- Children that correspond under inverters do so within a selector and a sequence. -/
theorem embeds_chain (index : Nat) :
    (childrenLikeness label (inverterCell binding) children).Embeds
      (chainLikeness name inner label binding children) index index where
  positions := fun {path _} hpath => ⟨index, path, rfl, congrArg (index :: ·) hpath⟩
  shows := by
    refine ⟨(·.under index), fun entry => ⟨rfl, ?_⟩⟩
    obtain ⟨time, path, happening⟩ := entry
    match path with
    | [] => rfl
    | 0 :: path => rfl
    | (_ + 1) :: path => rfl

variable {name inner label binding children}

/-- A child of both chains has had a turn, and both go on. -/
theorem relates_chain_child {progress : Progress Outcome (Memories children)}
    {other : Progress Outcome (Memories (children.map fun child => child.inverted (label child)))}
    (hchild : (childrenLikeness label (inverterCell binding) children).Relates IsInverted progress
      other)
    {goOn : Reply → Memories children → World →
      Progress Outcome (Cell (Kind.selector : Kind κ).State × Memories children)}
    {otherGoOn : Reply → Memories (children.map fun child => child.inverted (label child)) → World →
      Progress Outcome (Cell (Kind.sequence : Kind κ).State ×
        Memories (children.map fun child => child.inverted (label child)))}
    (hgoOn : ∀ {reply otherReply : Reply}, reply.Dual otherReply → ∀ below world,
      (chainLikeness name inner label binding children).inTurn.Relates
        (Outcome.Like Status.inverted ChainRuns) (goOn reply below world)
        (otherGoOn otherReply (below.inverted label (inverterCell binding)) world))
    (mark index : Nat) :
    (chainLikeness name inner label binding children).inTurn.Relates
      (Outcome.Like Status.inverted ChainRuns)
      (((progress.under index).map (replyOfChild mark index) id).andThen goOn)
      (((other.under index).map (replyOfChild mark index) id).andThen otherGoOn) := by
  have hembeds := (embeds_chain name inner label binding children index).inTurn
  obtain ⟨result, memory, world, journal, spawned, again⟩ := progress
  obtain ⟨otherResult, otherMemory, otherWorld, otherJournal, otherSpawned, otherAgain⟩ := other
  obtain ⟨hresult, hmemory, hworld, hjournal, hspawned, hagain⟩ := hchild
  dsimp only at hresult hmemory hworld hjournal hspawned hagain
  subst hmemory hworld hagain
  exact (hgoOn (.ofChild hresult mark index) memory world).after (hembeds.journals hjournal)
    (hembeds.spawns hspawned) again

variable (name inner label binding children)

/-- A selector and a sequence of inverted children are driven in the same way. -/
theorem relates_chain_drive (size fuel : Nat) {reply other : Reply} (hdual : reply.Dual other)
    (cursor : Nat) (below : Memories children) (world : World) :
    (chainLikeness name inner label binding children).inTurn.Relates
      (Outcome.Like Status.inverted ChainRuns)
      ((crewOf children).drive name .selector size fuel reply ⟨cursor, binding⟩ below world)
      ((crewOf (children.map fun child => child.inverted (label child))).drive inner .sequence size
        fuel other ⟨cursor, binding⟩ (below.inverted label (inverterCell binding)) world) := by
  have hstop : ∀ fuel {outcome other}, Outcome.Like Status.inverted ChainRuns outcome other →
      ∀ (cursor : Nat) (below : Memories children) (world : World),
        (chainLikeness name inner label binding children).inTurn.Relates
          (Outcome.Like Status.inverted ChainRuns)
          ((crewOf children).drive name .selector size fuel (.stop outcome) ⟨cursor, binding⟩ below
            world)
          ((crewOf (children.map fun child => child.inverted (label child))).drive inner .sequence
            size fuel (.stop other) ⟨cursor, binding⟩
            (below.inverted label (inverterCell binding)) world) := by
    intro fuel outcome other hlike cursor below world
    rw [Crew.drive_stop, Crew.drive_stop]
    exact ⟨hlike, ⟨cursor, below, rfl, rfl⟩, rfl, rfl, .nil, rfl⟩
  induction fuel generalizing reply other cursor below world with
  | zero =>
    cases hdual with
    | stop hlike => exact hstop 0 hlike cursor below world
    | signal hdual => exact ⟨.failed .endless, ⟨cursor, below, rfl, rfl⟩, rfl, rfl, .nil, rfl⟩
  | succ fuel ih =>
    cases hdual with
    | stop hlike => exact hstop (fuel + 1) hlike cursor below world
    | @signal signal other hdual =>
      rw [Crew.drive_signal, Crew.drive_signal]
      obtain ⟨next, position, hmove, hotherMove⟩ | ⟨next, status, hmove, hotherMove⟩ :=
        Chain.respond_dual hdual ⟨name, size, world.now, world.context binding⟩
          ⟨inner, size, world.now, world.context binding⟩ rfl cursor
      · have hselector : (Kind.selector : Kind κ).respond
            ⟨name, size, world.now, world.context binding⟩ cursor signal =
              .ask next (.run position position) := hmove
        have hsequence : (Kind.sequence : Kind κ).respond
            ⟨inner, size, world.now, world.context binding⟩ cursor other =
              .ask next (.run position position) := hotherMove
        dsimp only
        rw [hselector, hsequence]
        dsimp only [Move.ask]
        rw [World.write_nil]
        exact relates_chain_child
          (relates_advanceChild label (inverterCell binding) children position none below world)
          (fun hdual below world => ih hdual next below world) position position
      · have hselector : (Kind.selector : Kind κ).respond
            ⟨name, size, world.now, world.context binding⟩ cursor signal =
              .finish next status := hmove
        have hsequence : (Kind.sequence : Kind κ).respond
            ⟨inner, size, world.now, world.context binding⟩ cursor other =
              .finish next status.inverted := hotherMove
        dsimp only
        rw [hselector, hsequence]
        dsimp only [Move.finish]
        rw [World.write_nil]
        exact hstop fuel (.answered status) next below world

/-- A turn of a selector is a turn of the sequence of its inverted children, and the answers are
opposite. -/
theorem relates_chain {run otherRun : Option Run} (hruns : Option.Rel ChainRuns run otherRun)
    (cursor : Nat) (below : Memories children) (world : World) :
    (chainLikeness name inner label binding children).Relates
      (Outcome.Like Status.inverted ChainRuns)
      (advance ⟨name, .selector, children⟩ run (.node ⟨cursor, binding⟩ below) world)
      (advance ⟨inner, .sequence, children.map fun child => child.inverted (label child)⟩ otherRun
        (.node ⟨cursor, binding⟩ (below.inverted label (inverterCell binding))) world) := by
  refine Likeness.Relates.advance hidesRoot_below hidesRoot_without ?_
  have hsize : (children.map fun child => child.inverted (label child)).length = children.length :=
    List.length_map _
  have hdrive := @relates_chain_drive κ _ name inner label binding children children.length
    (children.length + 2)
  cases hruns with
  | none =>
    rw [turnOf, turnOf, hsize]
    exact hdrive (.signal .started) cursor below world
  | some hruns =>
    obtain ⟨mark, index, run, rfl, rfl⟩ := hruns
    rw [turnOf, turnOf, hsize]
    exact relates_chain_child
      (relates_advanceChild label (inverterCell binding) children index (some run) below world)
      (fun hdual below world => hdrive hdual cursor below world) mark index

/-- A tree inside a child of a selector is executed as below the inverter. -/
theorem relates_inside_chain (index : Nat) (path : Path) (run : Option Run) (cursor : Nat)
    (below : Memories children) (world : World) :
    (chainLikeness name inner label binding children).Relates Eq
      (advanceAt ⟨name, .selector, children⟩ (index :: path) run (.node ⟨cursor, binding⟩ below)
        world)
      (advanceAt ⟨inner, .sequence, children.map fun child => child.inverted (label child)⟩
        (index :: 0 :: path) run
        (.node ⟨cursor, binding⟩ (below.inverted label (inverterCell binding))) world) := by
  have hchild := relates_advanceIn label (inverterCell binding) children index path run below world
  rw [advanceAt, advanceAt]
  refine (embeds_chain name inner label binding children index).relates hchild id ?_
  rintro before _ rfl
  exact ⟨cursor, before, rfl, rfl⟩

end Chain

/-! ## Abort and reset -/

section Control

/-- An abort or a reset of a tree does the same to it under an inverter. -/
theorem controls_inverter (label : String) (cell : Cell (Kind.inverter : Kind κ).State)
    {tree : Tree κ} (now : Nat) (control : Memory tree × Journal) (begun done : Event) :
    (inverterLikeness label cell tree).Controls control
      (control.1.inverted label cell,
        eventAt now begun :: (control.2.map (·.under 0) ++ []) ++ [eventAt now done]) where
  memory := rfl
  journal := by
    have hinside : (control.2.map (·.under 0)).filterMap Entry.inside? = control.2 :=
      filterMap_inside_under control.2
    have hjournal : (eventAt now begun :: (control.2.map (·.under 0) ++ []) ++
        [eventAt now done]).filterMap Entry.inside? = control.2 := by
      rw [List.append_nil, List.cons_append, List.filterMap_cons_none rfl, List.filterMap_append,
        hinside, List.filterMap_cons_none rfl, List.filterMap_nil, List.append_nil]
    exact List.filterMap_some.trans hjournal.symm

variable (label : Tree κ → String) (binding : Binding)

/-- The children of both chains after an abort or a reset, and what their parents see of it. -/
structure ControlsChildren {trees : List (Tree κ)} (control : Memories trees × Journal)
    (other : Memories (trees.map fun tree => tree.inverted (label tree)) × Journal) : Prop where
  /-- The children of the second chain keep the same under their inverters. -/
  memories : other.1 = control.1.inverted label (inverterCell binding)
  /-- Without the inverters the journals are the same below the root. -/
  journal : control.2.filterMap Entry.below? = other.2.filterMap Entry.without?

variable {label binding}

/-- Children correspond after an abort or a reset if the first ones and the others do. -/
theorem ControlsChildren.cons {tree : Tree κ} {trees : List (Tree κ)} (index : Nat)
    {first : Memory tree × Journal} {otherFirst : Memory (tree.inverted (label tree)) × Journal}
    {rest : Memories trees × Journal}
    {otherRest : Memories (trees.map fun tree => tree.inverted (label tree)) × Journal}
    (hfirst : (inverterLikeness (label tree) (inverterCell binding) tree).Controls first otherFirst)
    (hrest : ControlsChildren label binding rest otherRest) :
    ControlsChildren label binding
      (Memories.cons first.1 rest.1, first.2.map (·.under index) ++ rest.2)
      (Memories.cons otherFirst.1 otherRest.1,
        otherFirst.2.map (·.under index) ++ otherRest.2) where
  memories := by
    have hmemory : otherFirst.1 = first.1.inverted (label tree) (inverterCell binding) :=
      hfirst.memory
    rw [hmemory, hrest.memories]
    rfl
  journal := by
    -- the names of the chains do not matter
    have hembeds := embeds_chain "" "" label binding [tree] index
    have hjournal : (first.2.map (·.under index)).filterMap Entry.below? =
        (otherFirst.2.map (·.under index)).filterMap Entry.without? :=
      hembeds.journals hfirst.journal
    rw [List.filterMap_append, List.filterMap_append, hjournal, hrest.journal]

/-- What goes through the children reaches both alike if it does the same to a child without and
with an inverter. -/
theorem controlsChildren_sweep {control : (tree : Tree κ) → Memory tree → Memory tree × Journal}
    (hcontrol : ∀ (tree : Tree κ) (memory : Memory tree),
      (inverterLikeness (label tree) (inverterCell binding) tree).Controls (control tree memory)
        (control (tree.inverted (label tree))
          (memory.inverted (label tree) (inverterCell binding))))
    (index : Nat) {trees : List (Tree κ)} (memories : Memories trees) :
    ControlsChildren label binding (memories.sweep control index)
      ((memories.inverted label (inverterCell binding)).sweep control index) := by
  induction trees generalizing index with
  | nil =>
    cases memories
    exact ⟨rfl, rfl⟩
  | cons tree trees ih =>
    cases memories with
    | cons first rest => exact .cons index (hcontrol tree first) (ih (index + 1) rest)

/-- An abort of the children reaches both alike. -/
theorem controlsChildren_abort (now index : Nat) {trees : List (Tree κ)}
    (memories : Memories trees) :
    ControlsChildren label binding (memories.abort now index)
      ((memories.inverted label (inverterCell binding)).abort now index) := by
  rw [Memories.abort_eq_sweep, Memories.abort_eq_sweep]
  exact controlsChildren_sweep (fun tree memory =>
    controls_inverter (label tree) (inverterCell binding) now (memory.abort now)
      (.abortBegun (label tree)) (.abortDone (label tree) none)) index memories

/-- A reset of the children reaches both alike. -/
theorem controlsChildren_reset (now index : Nat) {trees : List (Tree κ)}
    (memories : Memories trees) :
    ControlsChildren label binding (memories.reset now index)
      ((memories.inverted label (inverterCell binding)).reset now index) := by
  rw [Memories.reset_eq_sweep, Memories.reset_eq_sweep]
  exact controlsChildren_sweep (fun tree memory =>
    controls_inverter (label tree) (inverterCell binding) now (memory.reset now)
      (.resetBegun (label tree)) (.resetDone (label tree) none)) index memories

end Control

/-! ## The inverted sequence -/

section Dual

variable (name outer inner : String) (label : Tree κ → String) (binding : Binding)
  (children : List (Tree κ))

/-- A selector. -/
def selectorOf : Tree κ := ⟨name, .selector, children⟩

/-- A sequence of inverted children that is itself inverted. -/
def invertedSequenceOf : Tree κ :=
  Tree.inverted outer ⟨inner, .sequence, children.map fun child => child.inverted (label child)⟩

/-- A child of a selector is suspended, and so it is in the inverted sequence. -/
def SelectorRuns (run other : Run) : Prop :=
  ∃ mark index inner, run = .child mark index inner ∧
    other = .child 0 0 (.child mark index (.child 0 0 inner))

/-- A selector, and the inverted sequence of its inverted children. -/
def selectorLikeness :
    Likeness (Memory (selectorOf name children))
      (Memory (invertedSequenceOf outer inner label children)) :=
  (chainLikeness name inner label binding children).trans
    (inverterLikeness outer (inverterCell binding) _)

variable {name outer inner label binding children}
  {memory : Memory (selectorOf name children)}
  {other : Memory (invertedSequenceOf outer inner label children)}

/-- A turn of a selector is a turn of the inverted sequence. -/
theorem relates_selector
    (hmemory : (selectorLikeness name outer inner label binding children).memories memory other)
    {run otherRun : Option Run} (hruns : Option.Rel SelectorRuns run otherRun) (world : World) :
    (selectorLikeness name outer inner label binding children).Relates
      (Outcome.Like id SelectorRuns) (advance (selectorOf name children) run memory world)
      (advance (invertedSequenceOf outer inner label children) otherRun other world) := by
  obtain ⟨middle, ⟨cursor, below, rfl, rfl⟩, rfl⟩ := hmemory
  have hmiddle : ∃ middle, Option.Rel ChainRuns run middle ∧
      otherRun = middle.map (Run.child 0 0) := by
    cases hruns with
    | none => exact ⟨none, .none, rfl⟩
    | some hruns =>
      obtain ⟨mark, index, inside, rfl, rfl⟩ := hruns
      exact ⟨some (.child mark index (.child 0 0 inside)), .some ⟨mark, index, inside, rfl, rfl⟩,
        rfl⟩
  obtain ⟨middle, hchainRuns, rfl⟩ := hmiddle
  have hchain := relates_chain name inner label binding children hchainRuns cursor below world
  have hinverter := relates_inverter outer (inverterCell binding) middle
    (.node ⟨cursor, binding⟩ (below.inverted label (inverterCell binding)) :
      Memory ⟨inner, .sequence, children.map fun child => child.inverted (label child)⟩) world
  refine (hchain.trans rfl hinverter).imp ?_
  rintro outcome last ⟨between, hlike, hinverted⟩
  cases hlike with
  | answered status =>
    cases hinverted
    rw [Status.inverted_inverted]
    exact .answered status
  | waiting hruns =>
    obtain ⟨mark, index, inside, rfl, rfl⟩ := hruns
    cases hinverted with
    | waiting hruns => exact .waiting ⟨mark, index, inside, rfl, hruns⟩
  | failed fault =>
    cases hinverted
    exact .failed fault

/-- A tree inside a child of a selector is executed as in the inverted sequence. -/
theorem relates_inside_selector
    (hmemory : (selectorLikeness name outer inner label binding children).memories memory other)
    {path otherPath : Path}
    (hpath : (selectorLikeness name outer inner label binding children).positions path otherPath)
    (run : Option Run) (world : World) :
    (selectorLikeness name outer inner label binding children).Relates Eq
      (advanceAt (selectorOf name children) path run memory world)
      (advanceAt (invertedSequenceOf outer inner label children) otherPath run other world) := by
  obtain ⟨middle, ⟨cursor, below, rfl, rfl⟩, rfl⟩ := hmemory
  obtain ⟨_, ⟨index, rest, rfl, rfl⟩, rfl⟩ := hpath
  have hchain := relates_inside_chain name inner label binding children index rest run cursor below
    world
  have hinverter := relates_inside_inverter outer (inverterCell binding) (index :: 0 :: rest) run
    (.node ⟨cursor, binding⟩ (below.inverted label (inverterCell binding)) :
      Memory ⟨inner, .sequence, children.map fun child => child.inverted (label child)⟩) world
  refine (hchain.trans rfl hinverter).imp ?_
  rintro result _ ⟨_, rfl, rfl⟩
  rfl

/-- An abort or a reset of both, if it does the same with the children. -/
theorem controls_selector (cursor now : Nat) {control : Memories children × Journal}
    {other : Memories (children.map fun child => child.inverted (label child)) × Journal}
    (hcontrol : ControlsChildren label binding control other)
    (begun done otherBegun otherDone inverterBegun inverterDone : Event) :
    (selectorLikeness name outer inner label binding children).Controls
      (.node ⟨cursor, binding⟩ control.1, eventAt now begun :: control.2 ++ [eventAt now done])
      (Memory.inverted outer (inverterCell binding) (.node ⟨cursor, binding⟩ other.1),
        eventAt now inverterBegun ::
          ((eventAt now otherBegun :: other.2 ++ [eventAt now otherDone]).map (·.under 0) ++ []) ++
            [eventAt now inverterDone]) := by
  have hmemory : (Memory.node ⟨cursor, binding⟩ other.1 :
      Memory ⟨inner, .sequence, children.map fun child => child.inverted (label child)⟩) =
        .node ⟨cursor, binding⟩ (control.1.inverted label (inverterCell binding)) := by
    rw [hcontrol.memories]
  have hbelow : (chainLikeness name inner label binding children).inTurn.Controls
      ((⟨cursor, binding⟩, control.1), control.2) ((⟨cursor, binding⟩, other.1), other.2) :=
    ⟨⟨cursor, control.1, rfl, hmemory⟩, hcontrol.journal⟩
  have hchain := Likeness.Controls.node hidesRoot_below hidesRoot_without hbelow now begun done
    otherBegun otherDone
  exact hchain.trans rfl
    (controls_inverter outer (inverterCell binding) now _ inverterBegun inverterDone)

/-- An abort does the same to a selector and to the inverted sequence. -/
theorem controls_selector_abort
    (hmemory : (selectorLikeness name outer inner label binding children).memories memory other)
    (now : Nat) :
    (selectorLikeness name outer inner label binding children).Controls (memory.abort now)
      (other.abort now) := by
  obtain ⟨middle, ⟨cursor, below, rfl, rfl⟩, rfl⟩ := hmemory
  exact controls_selector cursor now (controlsChildren_abort now 0 below) (.abortBegun name)
    (.abortDone name (some (.cursor cursor))) (.abortBegun inner)
    (.abortDone inner (some (.cursor cursor))) (.abortBegun outer) (.abortDone outer none)

/-- A reset does the same to a selector and to the inverted sequence. -/
theorem controls_selector_reset
    (hmemory : (selectorLikeness name outer inner label binding children).memories memory other)
    (now : Nat) :
    (selectorLikeness name outer inner label binding children).Controls (memory.reset now)
      (other.reset now) := by
  obtain ⟨middle, ⟨cursor, below, rfl, rfl⟩, rfl⟩ := hmemory
  exact controls_selector 0 now (controlsChildren_reset now 0 below) (.resetBegun name)
    (.resetDone name (some (.cursor 0))) (.resetBegun inner)
    (.resetDone inner (some (.cursor 0))) (.resetBegun outer) (.resetDone outer none)

end Dual

end BehaviorTree
