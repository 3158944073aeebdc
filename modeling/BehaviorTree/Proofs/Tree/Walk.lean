import BehaviorTree.Proofs.Tree.Likeness

/-!
# How a chain goes through its children

In one turn a sequence or a selector goes through its children in order, from the cursor or from the
child that is suspended, until one of them holds it up or gives another status than the one that is
passed over (`ChainKind.turnOf_none`, `ChainKind.turnOf_child`). A walk may be cut in two anywhere
(`walk_add`), and two walks through the same trees correspond (`Likeness.RelatesTurns.walk`).
-/

namespace BehaviorTree

variable {κ : Type} [Application κ] {μ ν ρ τ υ : Type}

/-- The two kinds of chains. -/
inductive ChainKind where
  | sequence
  | selector
  deriving DecidableEq

namespace ChainKind

/-- The kind of node that a chain is. -/
def kind : ChainKind → Kind κ
  | sequence => .sequence
  | selector => .selector

/-- The status that is passed over. -/
def passed : ChainKind → Status
  | sequence => .success
  | selector => .failure

/-- The cursor as the state of a node. -/
def state : (chain : ChainKind) → Nat → (chain.kind : Kind κ).State
  | sequence, cursor => cursor
  | selector, cursor => cursor

end ChainKind

/-! ## Walks -/

/-- How far a chain comes in a walk. -/
inductive Leg where
  /-- All children are passed over. -/
  | through
  /-- The child at a position gives another status. -/
  | ended (position : Nat) (status : Status)
  /-- The child at a position is suspended. -/
  | held (position : Nat) (run : Run)
  | failed (fault : Fault)

namespace Leg

/-- Goes on if all children are passed over. -/
def goOn (rest : μ → World → Progress Leg μ) : Leg → μ → World → Progress Leg μ
  | through, below, world => rest below world
  | leg, below, world => { result := leg, memory := below, world }

/-- Goes on after the child at a position if that is passed over. -/
def after (passed : Status) (position : Nat) (rest : μ → World → Progress Leg μ) :
    Outcome → μ → World → Progress Leg μ
  | .answered status, below, world =>
    if status = passed then rest below world
    else { result := ended position status, memory := below, world }
  | .waiting run, below, world => { result := held position run, memory := below, world }
  | .failed fault, below, world => { result := failed fault, memory := below, world }

/-- What the chain makes of it. -/
def outcome (passed : Status) : Leg → Outcome
  | through => .answered passed
  | ended _ status => .answered status
  | held position run => .waiting (.child position position run)
  | failed fault => .failed fault

/-- The cursor afterwards, if it was at another position before. -/
def cursor (before : Nat) : Leg → Nat
  | through => 0
  | ended position status => if status = .running then position else 0
  | held _ _ => before
  | failed _ => before

end Leg

/-- The turn that a child has, seen from wherever the walk is looked at. -/
abbrev ChildTurn (μ : Type) := Nat → Option Run → μ → World → Progress Outcome μ

/-- Goes through so many children, the first of which is the one at a position. -/
def walk (turn : ChildTurn μ) (passed : Status) : Nat → Nat → μ → World → Progress Leg μ
  | 0, _, below, world => { result := .through, memory := below, world }
  | count + 1, position, below, world =>
    (turn position none below world).andThen
      (Leg.after passed position (walk turn passed count (position + 1)))

/-- Begins with the child at a position, which may be suspended, and goes through so many children
after it. -/
def walkFrom (turn : ChildTurn μ) (passed : Status) (count position : Nat) (run : Option Run)
    (below : μ) (world : World) : Progress Leg μ :=
  (turn position run below world).andThen
    (Leg.after passed position (walk turn passed count (position + 1)))

/-- A walk through children begins with the one at its position. -/
theorem walk_succ (turn : ChildTurn μ) (passed : Status) (count position : Nat) :
    walk turn passed (count + 1) position = walkFrom turn passed count position none := rfl

namespace Progress

/-- A stretch of execution asks for another turn if what went before it did or it does. -/
@[simp] theorem again_after (journal : Journal) (spawned : List Spawn) (again : Bool)
    (progress : Progress ρ μ) :
    (progress.after journal spawned again).again = (again || progress.again) := rfl

/-- If nothing went before, a stretch of execution is as it is. -/
@[simp] theorem after_nil (progress : Progress ρ μ) : progress.after [] [] false = progress := by
  simp [after]

/-- What went before in two parts went before as a whole. -/
theorem after_after (journal journal' : Journal) (spawned spawned' : List Spawn)
    (again again' : Bool) (progress : Progress ρ μ) :
    (progress.after journal' spawned' again').after journal spawned again =
      progress.after (journal ++ journal') (spawned ++ spawned') (again || again') := by
  simp [after, Bool.or_assoc]

/-- Three stretches of execution may be put together in either order. -/
theorem andThen_assoc (progress : Progress ρ μ) (next : ρ → μ → World → Progress τ μ)
    (last : τ → μ → World → Progress υ μ) :
    (progress.andThen next).andThen last =
      progress.andThen fun result below world => (next result below world).andThen last := by
  simp [andThen_eq, after_after]

/-- Only what follows in fact matters. -/
theorem andThen_congr {progress : Progress ρ μ} {next other : ρ → μ → World → Progress τ ν}
    (hnext : next progress.result progress.memory progress.world =
      other progress.result progress.memory progress.world) :
    progress.andThen next = progress.andThen other := by
  rw [andThen_eq, andThen_eq, hnext]

end Progress

/-- A leg that does not come through all children is the last one. -/
theorem Leg.goOn_of_ne {leg : Leg} (hleg : leg ≠ .through) (rest : μ → World → Progress Leg μ)
    (below : μ) (world : World) :
    Leg.goOn rest leg below world = { result := leg, memory := below, world } := by
  cases leg with
  | through => exact absurd rfl hleg
  | _ => rfl

/-- What follows a walk after a child follows it if that child is passed over. -/
theorem Leg.goOn_after (passed : Status) (position : Nat) (rest last : μ → World → Progress Leg μ)
    (outcome : Outcome) (below : μ) (world : World) :
    (Leg.after passed position rest outcome below world).andThen (Leg.goOn last) =
      Leg.after passed position (fun below world => (rest below world).andThen (Leg.goOn last))
        outcome below world := by
  cases outcome with
  | answered status =>
    by_cases hstatus : status = passed
    · simp [Leg.after, hstatus]
    · simp [Leg.after, hstatus, Progress.andThen_eq, Leg.goOn]
  | waiting run => simp [Leg.after, Progress.andThen_eq, Leg.goOn]
  | failed fault => simp [Leg.after, Progress.andThen_eq, Leg.goOn]

section

variable {turn : ChildTurn μ} {passed : Status}

/-- A walk may be cut in two after its first child, if the rest of it may be. -/
theorem walkFrom_cut {first rest position : Nat}
    (hcut : ∀ below world, walk turn passed (first + rest) (position + 1) below world =
      (walk turn passed first (position + 1) below world).andThen
        (Leg.goOn (walk turn passed rest (position + 1 + first))))
    (run : Option Run) (below : μ) (world : World) :
    walkFrom turn passed (first + rest) position run below world =
      (walkFrom turn passed first position run below world).andThen
        (Leg.goOn (walk turn passed rest (position + 1 + first))) := by
  rw [walkFrom, walkFrom, Progress.andThen_assoc]
  refine Progress.andThen_congr ?_
  rw [funext fun below => funext fun world => hcut below world, Leg.goOn_after]

/-- A walk through children may be cut in two. -/
theorem walk_add (first rest position : Nat) (below : μ) (world : World) :
    walk turn passed (first + rest) position below world =
      (walk turn passed first position below world).andThen
        (Leg.goOn (walk turn passed rest (position + first))) := by
  induction first generalizing position below world with
  | zero => simp [walk, Progress.andThen_eq, Leg.goOn]
  | succ first ih =>
    have hcount : first + 1 + rest = first + rest + 1 := by omega
    have hposition : position + (first + 1) = position + 1 + first := by omega
    rw [hcount, hposition, walk_succ, walk_succ]
    exact walkFrom_cut (ih (position + 1)) none below world

/-- A walk that begins with a suspended child may be cut in two. -/
theorem walkFrom_add (first rest position : Nat) (run : Option Run) (below : μ) (world : World) :
    walkFrom turn passed (first + rest) position run below world =
      (walkFrom turn passed first position run below world).andThen
        (Leg.goOn (walk turn passed rest (position + 1 + first))) :=
  walkFrom_cut (walk_add first rest (position + 1)) run below world

end

/-! ## The turn of a chain -/

/-- A move with its state seen differently. -/
def Move.withState {σ σ' : Type} (state : σ → σ') (move : Move σ) : Move σ' :=
  { move with state := state move.state }

namespace ChainKind

variable (chain : ChainKind)

/-- Both kinds of chains respond as one machine does, with the status that is passed over. -/
theorem respond_state (moment : Moment) (cursor : Nat) (signal : Signal) :
    (chain.kind : Kind κ).respond moment (chain.state cursor) signal =
      (Chain.respond chain.passed moment cursor signal).withState chain.state := by
  cases chain <;> rfl

omit [Application κ] in
/-- A chain may make two moves more than it has children. -/
theorem allowance_eq (size : Nat) : (chain.kind : Kind κ).allowance size = size + 2 := by
  cases chain <;> rfl

/-- After an answer a chain goes on or ends. -/
theorem respond_answered (moment : Moment) (cursor position : Nat) (status : Status) :
    Chain.respond chain.passed moment cursor (.answered position status) =
      if status = chain.passed then
        Chain.proceed chain.passed moment.size cursor (position + 1)
      else .finish (if status = .running then position else 0) status := by
  cases chain <;> cases status <;> rfl

/-- What the node makes of a walk. -/
def conclude (cursor : Nat) (binding : Binding) (progress : Progress Leg μ) :
    Progress Outcome (Cell (chain.kind : Kind κ).State × μ) :=
  { progress with
    result := progress.result.outcome chain.passed
    memory := (⟨chain.state (progress.result.cursor cursor), binding⟩, progress.memory) }

/-- What the node makes of a walk it makes of its last part. -/
theorem conclude_andThen (cursor : Nat) (binding : Binding) (progress : Progress ρ μ)
    (next : ρ → μ → World → Progress Leg μ) :
    (chain.conclude cursor binding (progress.andThen next) :
        Progress Outcome (Cell (chain.kind : Kind κ).State × μ)) =
      progress.andThen fun result below world =>
        chain.conclude cursor binding (next result below world) := rfl

end ChainKind

/-- The turn that a child of a crew has, seen from the node. -/
abbrev Crew.childTurn (crew : Crew μ) : ChildTurn μ :=
  fun index run below world => (crew.advance index run below world).under index

/-- The turn of the tree at a position inside a child, seen from the node. -/
abbrev insideTurn (trees : List (Tree κ)) (path : Path) : ChildTurn (Memories trees) :=
  fun index run below world => (advanceAt.advanceIn trees index path run below world).under index

/-- The turn of a child is the turn of the tree at the top of it. -/
theorem childTurn_crewOf (trees : List (Tree κ)) :
    (crewOf trees).childTurn = insideTurn trees [] := by
  funext index run below world
  exact congrArg (Progress.under index) (advanceIn_nil index run below world).symm

namespace ChainKind

variable {chain : ChainKind} {crew : Crew μ} {name : String} {size cursor : Nat} {binding : Binding}

/-- A chain that is to end answers at once. -/
theorem drive_finish {signal : Signal} {next fuel : Nat} {status : Status}
    (hrespond : ∀ moment : Moment, moment.size = size →
      Chain.respond chain.passed moment cursor signal = .finish next status)
    (below : μ) (world : World) :
    crew.drive name (chain.kind : Kind κ) size (fuel + 1) (.signal signal)
        ⟨chain.state cursor, binding⟩ below world =
      { result := .answered status, memory := (⟨chain.state next, binding⟩, below), world } := by
  rw [Crew.drive_signal, respond_state, hrespond _ rfl]
  dsimp only [Move.withState, Move.finish]
  rw [World.write_nil, Crew.serve, Crew.drive_stop]
  rfl

/-- A chain that is to go on with the child at a position goes through the children from there. -/
theorem drive_proceed {signal : Signal} {position count fuel : Nat}
    (hrespond : ∀ moment : Moment, moment.size = size →
      Chain.respond chain.passed moment cursor signal =
        Chain.proceed chain.passed size cursor position)
    (hsize : position + count = size)
    (hanswer : ∀ rest, count = rest + 1 → ∀ outcome below world,
      crew.drive name (chain.kind : Kind κ) size fuel (replyOfChild position position outcome)
          ⟨chain.state cursor, binding⟩ below world =
        chain.conclude cursor binding (Leg.after chain.passed position
          (walk crew.childTurn chain.passed rest (position + 1)) outcome below world))
    (below : μ) (world : World) :
    crew.drive name (chain.kind : Kind κ) size (fuel + 1) (.signal signal)
        ⟨chain.state cursor, binding⟩ below world =
      chain.conclude cursor binding
        (walk crew.childTurn chain.passed count position below world) := by
  cases count with
  | zero =>
    have hlast : ¬ position < size := by omega
    have hends : ∀ moment : Moment, moment.size = size →
        Chain.respond chain.passed moment cursor signal = .finish 0 chain.passed := by
      intro moment hmoment
      rw [hrespond moment hmoment, Chain.proceed, if_neg hlast]
    rw [drive_finish hends]
    rfl
  | succ rest =>
    have hnext : position < size := by omega
    rw [Crew.drive_signal, respond_state, hrespond _ rfl, Chain.proceed, if_pos hnext]
    dsimp only [Move.withState, Move.ask]
    rw [World.write_nil, Crew.serve, walk, conclude_andThen, Progress.andThen_eq]
    dsimp only [Progress.map, id_eq]
    rw [hanswer rest rfl]
    simp

/-- What a chain does when the child at a position has had its turn. -/
theorem drive_answer {position count fuel : Nat} (hsize : position + 1 + count = size)
    (hfuel : count < fuel) (outcome : Outcome) (below : μ) (world : World) :
    crew.drive name (chain.kind : Kind κ) size fuel (replyOfChild position position outcome)
        ⟨chain.state cursor, binding⟩ below world =
      chain.conclude cursor binding (Leg.after chain.passed position
        (walk crew.childTurn chain.passed count (position + 1)) outcome below world) := by
  induction fuel generalizing position count outcome below world with
  | zero => omega
  | succ fuel ih =>
    cases outcome with
    | waiting run =>
      rw [replyOfChild, Crew.drive_stop]
      rfl
    | failed fault =>
      rw [replyOfChild, Crew.drive_stop]
      rfl
    | answered status =>
      rw [replyOfChild, Leg.after]
      by_cases hstatus : status = chain.passed
      · rw [if_pos hstatus]
        refine drive_proceed (fun moment hmoment => ?_) hsize (fun rest hrest => ?_) below world
        · rw [respond_answered, if_pos hstatus, hmoment]
        · exact ih (by omega) (by omega)
      · have hends : ∀ moment : Moment, moment.size = size →
            Chain.respond chain.passed moment cursor (.answered position status) =
              .finish (if status = .running then position else 0) status := by
          intro moment _
          rw [respond_answered, if_neg hstatus]
        rw [if_neg hstatus, drive_finish hends]
        rfl

variable {children : List (Tree κ)} {below : Memories children} {world : World}

/-- An execution of a chain begins: it goes through the children from the cursor on. -/
theorem turnOf_none {count : Nat} (hsize : cursor + count = children.length) :
    turnOf name (chain.kind : Kind κ) children none ⟨chain.state cursor, binding⟩ below world =
      chain.conclude cursor binding
        (walk (insideTurn children []) chain.passed count cursor below world) := by
  rw [← childTurn_crewOf, turnOf, allowance_eq]
  refine drive_proceed (fun moment hmoment => ?_) hsize (fun rest hrest => ?_) below world
  · rw [Chain.respond, hmoment]
  · exact drive_answer (by omega) (by omega)

/-- A chain with a suspended child goes on with that child. -/
theorem turnOf_child {position count : Nat} (hsize : position + 1 + count = children.length)
    (run : Run) :
    turnOf name (chain.kind : Kind κ) children (some (.child position position run))
        ⟨chain.state cursor, binding⟩ below world =
      chain.conclude cursor binding
        (walkFrom (insideTurn children []) chain.passed count position (some run) below world) := by
  rw [← childTurn_crewOf, turnOf, allowance_eq, Crew.recheck, walkFrom, conclude_andThen,
    Progress.andThen_eq]
  dsimp only [Progress.map, id_eq]
  rw [drive_answer hsize (by omega)]
  rfl

/-- What a chain does in a turn, the walk of that being known. -/
theorem advance_of_turn (chain : ChainKind) {run : Option Run}
    {progress : Progress Leg (Memories children)}
    (hturn : turnOf name (chain.kind : Kind κ) children run ⟨chain.state cursor, binding⟩ below
      world = chain.conclude cursor binding progress) :
    advance ⟨name, chain.kind, children⟩ run (.node ⟨chain.state cursor, binding⟩ below) world =
      { result := progress.result.outcome chain.passed
        memory := .node ⟨chain.state (progress.result.cursor cursor), binding⟩ progress.memory
        world := progress.world
        journal := entryOf name run world ++ progress.journal ++
          exitEntry name (chain.kind : Kind κ) (chain.conclude cursor binding progress)
        spawned := progress.spawned
        again := progress.again } := by
  rw [advance_eq, hturn]
  rfl

end ChainKind

/-! ## Walks through the same trees -/

/-- Two legs that are the same, counted from different children on. -/
inductive Leg.Shifted (passed : Status) (first other limit : Nat) : Leg → Leg → Prop where
  | through : Shifted passed first other limit .through .through
  | ended {position : Nat} (hposition : position < limit) {status : Status}
    (hstatus : status ≠ passed) :
    Shifted passed first other limit (.ended (first + position) status)
      (.ended (other + position) status)
  | held {position : Nat} (hposition : position < limit) (run : Run) :
    Shifted passed first other limit (.held (first + position) run) (.held (other + position) run)
  | failed (fault : Fault) : Shifted passed first other limit (.failed fault) (.failed fault)

namespace Likeness

variable {likeness : Likeness μ ν}

/-- Two stretches, one after the other, correspond if each of them does. -/
theorem Relates.andThen {results : ρ → τ → Prop} {progress : Progress ρ μ} {other : Progress τ ν}
    {ρ' τ' : Type} {results' : ρ' → τ' → Prop} {next : ρ → μ → World → Progress ρ' μ}
    {otherNext : τ → ν → World → Progress τ' ν} (hrelates : likeness.Relates results progress other)
    (hnext : likeness.Relates results' (next progress.result progress.memory progress.world)
      (otherNext other.result other.memory other.world)) :
    likeness.Relates results' (progress.andThen next) (other.andThen otherNext) := by
  rw [Progress.andThen_eq, Progress.andThen_eq, ← hrelates.again_eq]
  exact hnext.after hrelates.journal hrelates.spawned _

section

variable {turn : ChildTurn μ} {otherTurn : ChildTurn ν} {first other limit : Nat}

/-- The turns of so many children correspond, counted from different children on. -/
def RelatesTurns (likeness : Likeness μ ν) (turn : ChildTurn μ) (otherTurn : ChildTurn ν)
    (first other limit : Nat) : Prop :=
  ∀ position, position < limit → ∀ run below otherBelow world, likeness.memories below otherBelow →
    likeness.Relates Eq (turn (first + position) run below world)
      (otherTurn (other + position) run otherBelow world)

/-- Walks that begin with the turn of one child correspond if the rest of them does. -/
theorem RelatesTurns.walkFrom_of (hturns : likeness.RelatesTurns turn otherTurn first other limit)
    (passed : Status) {count position : Nat} (hposition : position < limit)
    (hrest : ∀ below otherBelow world, likeness.memories below otherBelow →
      likeness.Relates (Leg.Shifted passed first other limit)
        (walk turn passed count (first + position + 1) below world)
        (walk otherTurn passed count (other + position + 1) otherBelow world))
    (run : Option Run) {below : μ} {otherBelow : ν} (world : World)
    (hmemories : likeness.memories below otherBelow) :
    likeness.Relates (Leg.Shifted passed first other limit)
      (walkFrom turn passed count (first + position) run below world)
      (walkFrom otherTurn passed count (other + position) run otherBelow world) := by
  have hturn := hturns position hposition run below otherBelow world hmemories
  have hresult := hturn.result
  refine hturn.andThen ?_
  rw [← hresult, ← hturn.world_eq]
  cases (turn (first + position) run below world).result with
  | answered status =>
    rw [Leg.after, Leg.after]
    by_cases hstatus : status = passed
    · rw [if_pos hstatus, if_pos hstatus]
      exact hrest _ _ _ hturn.memory
    · rw [if_neg hstatus, if_neg hstatus]
      exact ⟨.ended hposition hstatus, hturn.memory, rfl, .nil, .nil, rfl⟩
  | waiting run => exact ⟨.held hposition run, hturn.memory, rfl, .nil, .nil, rfl⟩
  | failed fault => exact ⟨.failed fault, hturn.memory, rfl, .nil, .nil, rfl⟩

/-- Walks through children whose turns correspond do so themselves. -/
theorem RelatesTurns.walk (hturns : likeness.RelatesTurns turn otherTurn first other limit)
    (passed : Status) {count position : Nat} (hlimit : position + count ≤ limit) {below : μ}
    {otherBelow : ν} (world : World) (hmemories : likeness.memories below otherBelow) :
    likeness.Relates (Leg.Shifted passed first other limit)
      (BehaviorTree.walk turn passed count (first + position) below world)
      (BehaviorTree.walk otherTurn passed count (other + position) otherBelow world) := by
  induction count generalizing position below otherBelow world with
  | zero => exact ⟨.through, hmemories, rfl, .nil, .nil, rfl⟩
  | succ count ih =>
    rw [walk_succ, walk_succ]
    have hlater : position + 1 + count ≤ limit := by omega
    exact hturns.walkFrom_of passed (by omega)
      (fun _ _ world hmemories => ih hlater world hmemories) none world hmemories

/-- Walks that begin with suspended children whose turns correspond do so themselves. -/
theorem RelatesTurns.walkFrom (hturns : likeness.RelatesTurns turn otherTurn first other limit)
    (passed : Status) {count position : Nat} (hlimit : position + 1 + count ≤ limit)
    (run : Option Run) {below : μ} {otherBelow : ν} (world : World)
    (hmemories : likeness.memories below otherBelow) :
    likeness.Relates (Leg.Shifted passed first other limit)
      (BehaviorTree.walkFrom turn passed count (first + position) run below world)
      (BehaviorTree.walkFrom otherTurn passed count (other + position) run otherBelow world) :=
  hturns.walkFrom_of passed (by omega)
    (fun _ _ world hmemories => hturns.walk passed hlimit world hmemories) run world hmemories

end

end Likeness

end BehaviorTree
