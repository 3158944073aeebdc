import BehaviorTree.Proofs.Tree.ChildrenInvariant

/-!
# A crew seen through a view

A crew may keep more about the children than the node can tell. If every operation on a child does
the same through a view of what is kept, then so does a whole turn of the node
(`Crew.Shows.turn`).
-/

namespace BehaviorTree

variable {κ : Type} [Application κ] {ρ τ μ ν : Type}

namespace Progress

/-- A stretch of execution may be viewed before or after it is seen from the parent. -/
theorem map_under (index : Nat) (result : ρ → τ) (memory : μ → ν) (progress : Progress ρ μ) :
    (progress.under index).map result memory = (progress.map result memory).under index := rfl

/-- A view leaves what went before a stretch of execution as it is. -/
theorem map_after (result : ρ → τ) (memory : μ → ν) (journal : Journal) (spawned : List Spawn)
    (again : Bool) (progress : Progress ρ μ) :
    (progress.after journal spawned again).map result memory =
      (progress.map result memory).after journal spawned again := rfl

/-- Two stretches of execution, of which the second does the same through the view. -/
theorem map_andThen (view : μ → ν) {progress : Progress ρ μ}
    {next : ρ → μ → World → Progress τ μ} {seen : ρ → ν → World → Progress τ ν}
    (hnext : (next progress.result progress.memory progress.world).map id view =
      seen progress.result (view progress.memory) progress.world) :
    (progress.andThen next).map id view = (progress.map id view).andThen seen := by
  rw [andThen_eq, andThen_eq, map_after, hnext]
  rfl

end Progress

namespace Crew

variable {crew : Crew μ} {seen : Crew ν} {view : μ → ν}

/-- Every operation on a child does the same through the view, and all children together are
advanced one after the other. -/
structure Shows (crew : Crew μ) (view : μ → ν) (seen : Crew ν) : Prop where
  /-- An execution of a child does the same through the view. -/
  advance : ∀ index run below world,
    (crew.advance index run below world).map id view = seen.advance index run (view below) world
  /-- Both advance their children one after the other. -/
  sideBySide : ∃ count, crew.advanceAll = advanceEach crew.advance count 0 ∧
    seen.advanceAll = advanceEach seen.advance count 0
  /-- An abort does the same through the view. -/
  abort : ∀ now index below,
    Prod.map view id (crew.abort now index below) = seen.abort now index (view below)
  /-- A reset does the same through the view. -/
  reset : ∀ now index below,
    Prod.map view id (crew.reset now index below) = seen.reset now index (view below)

/-- A pause is attended to in the same way whatever is kept about the children. -/
theorem map_attend (view : μ → ν) (pause : Pause) (below : μ) (world : World) :
    (attend pause below world).map id view = attend pause (view below) world := by
  unfold attend
  split
  · rfl
  · split
    · rfl
    · dsimp only
      split <;> rfl

namespace Shows

/-- Advancing children one after the other does the same through the view. -/
theorem advanceEach (hshows : crew.Shows view seen) (count index : Nat) (slots : List (Slot Run))
    (below : μ) (world : World) :
    (BehaviorTree.advanceEach crew.advance count index slots below world).map id view =
      BehaviorTree.advanceEach seen.advance count index slots (view below) world := by
  induction count generalizing index slots below world with
  | zero => rfl
  | succ count ih =>
    cases slots with
    | nil => rfl
    | cons slot slots =>
      rw [BehaviorTree.advanceEach, BehaviorTree.advanceEach]
      split
      · rw [← ih]
        rfl
      · rw [← hshows.advance, ← Progress.map_under]
        refine Progress.map_andThen view ?_
        split
        · rfl
        · rw [← ih]
          rfl

/-- Advancing all children does the same through the view. -/
theorem advanceAll (hshows : crew.Shows view seen) (slots : List (Slot Run)) (below : μ)
    (world : World) :
    (crew.advanceAll slots below world).map id view =
      seen.advanceAll slots (view below) world := by
  obtain ⟨count, hcrew, hseen⟩ := hshows.sideBySide
  rw [hcrew, hseen]
  exact hshows.advanceEach count 0 slots below world

/-- Advancing a child of a crowd does the same through the view. -/
theorem advanceMember (hshows : crew.Shows view seen) (tour : Tour) (index : Nat) (below : μ)
    (world : World) :
    (crew.advanceMember tour index below world).map id view =
      seen.advanceMember tour index (view below) world := by
  rw [Crew.advanceMember, Crew.advanceMember, ← hshows.advance]
  rfl

/-- A tour of the called children does the same through the view. -/
theorem advanceCalled (hshows : crew.Shows view seen) (fuel : Nat) (tour : Tour) (below : μ)
    (world : World) :
    (crew.advanceCalled fuel tour below world).map id view =
      seen.advanceCalled fuel tour (view below) world := by
  induction fuel generalizing tour below world with
  | zero => rfl
  | succ fuel ih =>
    rw [Crew.advanceCalled, Crew.advanceCalled]
    split
    · rfl
    · dsimp only
      split
      · exact ih _ below world
      · rw [← hshows.advanceMember, ← Progress.map_under]
        refine Progress.map_andThen view ?_
        split
        · rfl
        · exact ih _ _ _
        · next index called _ _ _ run _ =>
          generalize crew.advanceMember { tour with called } index below world = member
          have hlater := ih (({ tour with called } : Tour).suspend index run member.again)
            member.memory member.world
          by_cases hgives : (({ tour with called } : Tour).suspend index run member.again).givesWay
          · exact (congrArg _ (if_pos hgives)).trans (if_pos hgives).symm
          · exact ((congrArg _ (if_neg hgives)).trans hlater).trans (if_neg hgives).symm

/-- Beginning all children at once does the same through the view. -/
theorem beginAll (hshows : crew.Shows view seen) (size : Nat) (below : μ) (world : World) :
    (crew.beginAll size below world).map id view = seen.beginAll size (view below) world := by
  rw [Crew.beginAll, Crew.beginAll]
  split
  · rw [← hshows.advanceAll]
    rfl
  · dsimp only
    rw [advanceCrowd, advanceCrowd, ← hshows.advanceCalled]
    rfl

/-- Serving a request does the same through the view. -/
theorem serve (hshows : crew.Shows view seen) (size : Nat) (request : Request) (below : μ)
    (world : World) :
    (crew.serve size request below world).map id view =
      seen.serve size request (view below) world := by
  cases request with
  | finish status => rfl
  | crash => rfl
  | run mark index =>
    rw [Crew.serve, Crew.serve, ← hshows.advance]
    rfl
  | runAll => exact hshows.beginAll size below world
  | sleep mark duration => exact map_attend view _ below world
  | race index limit =>
    have hattend := map_attend view (.race world.startTask.1 ⟨world.now + limit, none⟩) below
      world.startTask.2
    exact congrArg (·.after [] [⟨world.startTask.1, [index]⟩] false) hattend
  | resetChild index =>
    rw [Crew.serve, Crew.serve, ← hshows.reset]
    rfl
  | abortChild index =>
    rw [Crew.serve, Crew.serve, ← hshows.abort]
    rfl

/-- Taking up a suspended execution does the same through the view. -/
theorem recheck (hshows : crew.Shows view seen) (run : Run) (below : μ) (world : World) :
    (crew.recheck run below world).map id view = seen.recheck run (view below) world := by
  cases run with
  | child mark index run =>
    rw [Crew.recheck, Crew.recheck, ← hshows.advance]
    rfl
  | paused pause => exact map_attend view pause below world
  | together slots =>
    rw [Crew.recheck, Crew.recheck, ← hshows.advanceAll]
    rfl
  | crowd id slots called =>
    rw [Crew.recheck, Crew.recheck, advanceCrowd, advanceCrowd, ← hshows.advanceCalled]
    rfl

/-- Driving a node does the same through the view. -/
theorem drive (hshows : crew.Shows view seen) (name : String) (kind : Kind κ) (size fuel : Nat)
    (reply : Reply) (cell : Cell kind.State) (below : μ) (world : World) :
    (crew.drive name kind size fuel reply cell below world).map id (Prod.map id view) =
      seen.drive name kind size fuel reply cell (view below) world := by
  induction fuel generalizing reply cell below world with
  | zero => cases reply <;> rfl
  | succ fuel ih =>
    cases reply with
    | stop outcome => rfl
    | signal signal =>
      rw [drive_signal, drive_signal]
      generalize kind.respond _ cell.state signal = move
      dsimp only
      rw [← hshows.serve, Progress.map_after, ih]
      rfl

/-- A turn of the node does the same through the view. -/
theorem turn (hshows : crew.Shows view seen) (name : String) (kind : Kind κ) (size : Nat)
    (run : Option Run) (cell : Cell kind.State) (below : μ) (world : World) :
    (crew.turn name kind size run cell below world).map id (Prod.map id view) =
      seen.turn name kind size run cell (view below) world := by
  cases run with
  | none => exact hshows.drive name kind size _ _ cell below world
  | some run =>
    rw [Crew.turn, Crew.turn, ← hshows.recheck, Progress.andThen_eq, Progress.andThen_eq,
      Progress.map_after, hshows.drive]
    rfl

end Shows

end Crew

end BehaviorTree
