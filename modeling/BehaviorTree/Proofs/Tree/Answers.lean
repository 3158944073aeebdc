import BehaviorTree.Proofs.Tree.Turn

/-!
# The answers given in a turn

A turn of a node makes nodes below it answer, each of them once for every execution that ends.
The journal tells that they do. Here the answers are listed together with what the subtree of the
answering node keeps at that moment. The answers of children that run side by side are left out.
-/

namespace BehaviorTree

variable {κ : Type} [Application κ]

mutual

/-- The tree at a position inside a tree. -/
def Tree.at? : Tree κ → Path → Option (Tree κ)
  | ⟨name, kind, children⟩, [] => some ⟨name, kind, children⟩
  | ⟨_, _, children⟩, index :: path => Tree.below? children index path

/-- The tree at a position inside the child with an index. -/
def Tree.below? : List (Tree κ) → Nat → Path → Option (Tree κ)
  | [], _, _ => none
  | tree :: _, 0, path => tree.at? path
  | _ :: trees, index + 1, path => Tree.below? trees index path

end

/-- An answer: where the node is, its subtree, and what that keeps when the node answers. -/
structure Answer (κ : Type) [Application κ] where
  /-- The position of the node that answers. -/
  path : Path
  /-- The tree at this position. -/
  tree : Tree κ
  /-- What this tree keeps when the node answers. -/
  memory : Memory tree
  /-- The status of the answer. -/
  status : Status

/-- An answer seen from the parent. -/
def Answer.under (index : Nat) (answer : Answer κ) : Answer κ :=
  { answer with path := index :: answer.path }

namespace Crew

variable {μ : Type} (crew : Crew μ)
  (answersOf : Nat → Option Run → μ → World → List (Answer κ))

/-- The answers given while a request is served, if those of the children are known. -/
def serveAnswers (request : Request) (below : μ) (world : World) : List (Answer κ) :=
  match request with
  | .run _ index => (answersOf index none below world).map (·.under index)
  | _ => []

/-- The answers given while a suspended execution is looked after. -/
def recheckAnswers (run : Run) (below : μ) (world : World) : List (Answer κ) :=
  match run with
  | .child _ index run => (answersOf index (some run) below world).map (·.under index)
  | _ => []

/-- The answers given while a node is driven. -/
def driveAnswers (name : String) (kind : Kind κ) (size : Nat) :
    Nat → Reply → Cell kind.State → μ → World → List (Answer κ)
  | _, .stop _, _, _, _ => []
  | 0, .signal _, _, _, _ => []
  | fuel + 1, .signal signal, cell, below, world =>
    let moment : Moment := ⟨name, size, world.now, world.context cell.binding⟩
    let move := kind.respond moment cell.state signal
    let (world, binding) := world.write cell.binding move.writes
    let served := crew.serve size move.request below world
    serveAnswers answersOf move.request below world ++
      driveAnswers name kind size fuel served.result ⟨move.state, binding⟩ served.memory
        served.world

/-- The answers given from a signal on are those while the request is served and those after. -/
theorem driveAnswers_signal (name : String) (kind : Kind κ) (size fuel : Nat) (signal : Signal)
    (cell : Cell kind.State) (below : μ) (world : World) :
    crew.driveAnswers answersOf name kind size (fuel + 1) (.signal signal) cell below world =
      let move := kind.respond ⟨name, size, world.now, world.context cell.binding⟩ cell.state signal
      let written := world.write cell.binding move.writes
      let served := crew.serve size move.request below written.1
      serveAnswers answersOf move.request below written.1 ++
        crew.driveAnswers answersOf name kind size fuel served.result ⟨move.state, written.2⟩
          served.memory served.world := rfl

/-- An answer given while a request is served is one of a child. -/
theorem exists_of_mem_serveAnswers {request : Request} {below : μ} {world : World}
    {answer : Answer κ} (hmem : answer ∈ serveAnswers answersOf request below world) :
    ∃ index run below world, ∃ inner ∈ answersOf index run below world,
      answer = inner.under index := by
  cases request with
  | run mark index =>
    obtain ⟨inner, hinner, rfl⟩ := List.mem_map.mp hmem
    exact ⟨index, none, below, world, inner, hinner, rfl⟩
  | _ => cases hmem

/-- An answer given while a suspended execution is looked after is one of a child. -/
theorem exists_of_mem_recheckAnswers {run : Run} {below : μ} {world : World} {answer : Answer κ}
    (hmem : answer ∈ recheckAnswers answersOf run below world) :
    ∃ index run below world, ∃ inner ∈ answersOf index run below world,
      answer = inner.under index := by
  cases run with
  | child mark index run =>
    obtain ⟨inner, hinner, rfl⟩ := List.mem_map.mp hmem
    exact ⟨index, some run, below, world, inner, hinner, rfl⟩
  | _ => cases hmem

/-- Every answer that is listed is one of a child. -/
theorem exists_of_mem_driveAnswers {name : String} {kind : Kind κ} {size fuel : Nat} {reply : Reply}
    {cell : Cell kind.State} {below : μ} {world : World} {answer : Answer κ}
    (hmem : answer ∈ crew.driveAnswers answersOf name kind size fuel reply cell below world) :
    ∃ index run below world, ∃ inner ∈ answersOf index run below world,
      answer = inner.under index := by
  induction fuel generalizing reply cell below world with
  | zero => cases reply <;> cases hmem
  | succ fuel ih =>
    cases reply with
    | stop outcome => cases hmem
    | signal signal =>
      rw [driveAnswers_signal] at hmem
      exact (List.mem_append.mp hmem).elim (exists_of_mem_serveAnswers answersOf) ih

/-- A node that stops makes no node below it answer. -/
theorem driveAnswers_stop (name : String) (kind : Kind κ) (size fuel : Nat) (outcome : Outcome)
    (cell : Cell kind.State) (below : μ) (world : World) :
    crew.driveAnswers answersOf name kind size fuel (.stop outcome) cell below world = [] := by
  cases fuel <;> rfl

end Crew

/-- The answer at the end of a stretch of execution, if it has come to its end. -/
def ownAnswer {tree : Tree κ} (progress : Progress Outcome (Memory tree)) : List (Answer κ) :=
  match progress.result with
  | .answered status => [⟨[], tree, progress.memory, status⟩]
  | .waiting _ | .failed _ => []

mutual

/-- The answers given while a tree is advanced, in order. -/
def answers : (tree : Tree κ) → Option Run → Memory tree → World → List (Answer κ)
  | ⟨name, kind, children⟩, run, .node cell below, world =>
    let crew := crewOf children
    let size := children.length
    let inner :=
      match run with
      | none =>
        crew.driveAnswers (answersChild children) name kind size (kind.allowance size)
          (.signal .started) cell below world
      | some run =>
        let rechecked := crew.recheck run below world
        Crew.recheckAnswers (answersChild children) run below world ++
          crew.driveAnswers (answersChild children) name kind size (kind.allowance size)
            rechecked.result cell rechecked.memory rechecked.world
    inner ++ ownAnswer (advance ⟨name, kind, children⟩ run (.node cell below) world)

/-- The answers given while the child with an index is advanced. -/
def answersChild : (trees : List (Tree κ)) → Nat → Option Run → Memories trees → World →
    List (Answer κ)
  | [], _, _, .nil, _ => []
  | tree :: _, 0, run, .cons first _, world => answers tree run first world
  | _ :: trees, index + 1, run, .cons _ rest, world => answersChild trees index run rest world

end

/-- The answers of nodes below the root that are given in a turn. -/
def turnAnswers (name : String) (kind : Kind κ) (children : List (Tree κ)) (run : Option Run)
    (cell : Cell kind.State) (below : Memories children) (world : World) : List (Answer κ) :=
  let crew := crewOf children
  let size := children.length
  match run with
  | none =>
    crew.driveAnswers (answersChild children) name kind size (kind.allowance size)
      (.signal .started) cell below world
  | some run =>
    let rechecked := crew.recheck run below world
    Crew.recheckAnswers (answersChild children) run below world ++
      crew.driveAnswers (answersChild children) name kind size (kind.allowance size)
        rechecked.result cell rechecked.memory rechecked.world

/-- An answer given below the root in a turn is one of a child. -/
theorem exists_of_mem_turnAnswers {name : String} {kind : Kind κ} {children : List (Tree κ)}
    {run : Option Run} {cell : Cell kind.State} {below : Memories children} {world : World}
    {answer : Answer κ} (hmem : answer ∈ turnAnswers name kind children run cell below world) :
    ∃ index run below world, ∃ inner ∈ answersChild children index run below world,
      answer = inner.under index := by
  cases run with
  | none => exact Crew.exists_of_mem_driveAnswers _ _ hmem
  | some run =>
    exact (List.mem_append.mp hmem).elim (Crew.exists_of_mem_recheckAnswers _)
      (Crew.exists_of_mem_driveAnswers _ _)

/-- The answers of a tree are those given below the root, and then that of the root. -/
theorem answers_eq (name : String) (kind : Kind κ) (children : List (Tree κ)) (run : Option Run)
    (cell : Cell kind.State) (below : Memories children) (world : World) :
    answers ⟨name, kind, children⟩ run (.node cell below) world =
      turnAnswers name kind children run cell below world ++
        ownAnswer (advance ⟨name, kind, children⟩ run (.node cell below) world) := by
  cases run <;> rfl

mutual

/-- Every answer that is listed is one of the node at its position. -/
theorem at?_of_mem_answers : (tree : Tree κ) → (run : Option Run) → (memory : Memory tree) →
    (world : World) → ∀ answer ∈ answers tree run memory world,
      tree.at? answer.path = some answer.tree
  | ⟨name, kind, children⟩, run, .node cell below, world => by
    intro answer hmem
    rw [answers_eq] at hmem
    obtain hmem | hmem := List.mem_append.mp hmem
    · obtain ⟨index, run, below, world, inner, hinner, rfl⟩ := exists_of_mem_turnAnswers hmem
      exact below?_of_mem_answersChild children index run below world inner hinner
    · unfold ownAnswer at hmem
      split at hmem
      · cases List.mem_singleton.mp hmem
        rfl
      · cases hmem
      · cases hmem

/-- Each answer of a child is by the node at its position in that child. -/
theorem below?_of_mem_answersChild : (trees : List (Tree κ)) → (index : Nat) →
    (run : Option Run) → (memories : Memories trees) → (world : World) →
      ∀ answer ∈ answersChild trees index run memories world,
        Tree.below? trees index answer.path = some answer.tree
  | [], _, _, .nil, _ => fun _ hmem => absurd hmem List.not_mem_nil
  | tree :: _, 0, run, .cons first _, world => at?_of_mem_answers tree run first world
  | _ :: trees, index + 1, run, .cons _ rest, world =>
    below?_of_mem_answersChild trees index run rest world

end

end BehaviorTree
