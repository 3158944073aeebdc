import BehaviorTree.Proofs.Tree.Tick

/-!
# Executions that come to an answer

An execution that waits can be taken up again in a world where what it waits for has happened. If
all executions of the children can be brought to an answer in this way, and the node makes no more
moves than it is allowed to, then so can all executions of the node (`canAnswer_node`), and every
tick of it that has begun can be continued to its end (`Tree.CanAnswer.exists_answers`).
-/

namespace BehaviorTree

variable {κ : Type} [Application κ]

/-- The execution has been answered, or it can be brought to an answer by further turns. -/
inductive Concludes (tree : Tree κ) : Outcome → Memory tree → Prop where
  | answered (status : Status) (memory : Memory tree) : Concludes tree (.answered status) memory
  | later (run : Run) (memory : Memory tree) (world : World)
      (hrest : Concludes tree (advance tree (some run) memory world).result
        (advance tree (some run) memory world).memory) : Concludes tree (.waiting run) memory

/-- Every execution of the tree can be brought to an answer, wherever it begins. -/
def Tree.CanAnswer (tree : Tree κ) : Prop :=
  ∀ memory world, Concludes tree (advance tree none memory world).result
    (advance tree none memory world).memory

/-- A tick that begins can be continued to its end. -/
theorem Tree.CanAnswer.exists_answers {tree : Tree κ} (htree : tree.CanAnswer)
    {stage : Stage tree} (hidle : stage.run = none) (world : World) :
    ∃ acts status, stage.Answers (.turn world :: acts) status := by
  have hconcludes : Concludes tree (stage.turn world).result (stage.turn world).memory := by
    rw [Stage.turn, hidle]
    exact htree stage.memory world
  clear hidle
  generalize hresult : (stage.turn world).result = outcome at hconcludes
  generalize hmemory : (stage.turn world).memory = memory at hconcludes
  induction hconcludes generalizing stage world with
  | answered status memory => exact ⟨[], status, .last world hresult⟩
  | later run memory next hrest ih =>
    have hstage : stage.act (.turn world) = ⟨memory, some run⟩ := by
      rw [Stage.act, hresult, hmemory, Outcome.run?]
    obtain ⟨acts, status, hanswers⟩ := @ih ⟨memory, some run⟩ next rfl rfl
    exact ⟨_, status, .wait world hresult (hstage ▸ hanswers)⟩

/-! ## Children -/

/-- The same of one of several trees, as their parent advances it. -/
inductive ConcludesAt (trees : List (Tree κ)) (index : Nat) : Outcome → Memories trees → Prop where
  | answered (status : Status) (below : Memories trees) :
    ConcludesAt trees index (.answered status) below
  | later (run : Run) (below : Memories trees) (world : World)
      (hrest : ConcludesAt trees index (advanceChild trees index (some run) below world).result
        (advanceChild trees index (some run) below world).memory) :
    ConcludesAt trees index (.waiting run) below

/-- If the execution of the first child concludes, then it does as its parent advances it. -/
theorem concludesAt_zero {tree : Tree κ} {trees : List (Tree κ)} {outcome : Outcome}
    {first : Memory tree} (hconcludes : Concludes tree outcome first) (rest : Memories trees) :
    ConcludesAt (tree :: trees) 0 outcome (.cons first rest) := by
  induction hconcludes with
  | answered status memory => exact .answered status _
  | later run memory world _ ih => exact .later run _ world ih

/-- If the execution of a child concludes, then it does with one more child before it. -/
theorem concludesAt_succ {tree : Tree κ} {trees : List (Tree κ)} {index : Nat} {outcome : Outcome}
    {rest : Memories trees} (hconcludes : ConcludesAt trees index outcome rest)
    (first : Memory tree) : ConcludesAt (tree :: trees) (index + 1) outcome (.cons first rest) := by
  induction hconcludes with
  | answered status below => exact .answered status _
  | later run below world _ ih => exact .later run _ world ih

/-- An execution of any child concludes if every tree can answer. -/
theorem concludesAt_advanceChild {trees : List (Tree κ)} (htrees : ∀ tree ∈ trees, tree.CanAnswer)
    {index : Nat} (hindex : index < trees.length) (below : Memories trees) (world : World) :
    ConcludesAt trees index (advanceChild trees index none below world).result
      (advanceChild trees index none below world).memory := by
  induction trees generalizing index with
  | nil => exact absurd hindex (Nat.not_lt_zero index)
  | cons tree trees ih =>
    obtain ⟨hfirst, hothers⟩ := List.forall_mem_cons.mp htrees
    cases below with
    | cons first rest =>
      cases index with
      | zero => exact concludesAt_zero (hfirst first world) rest
      | succ index => exact concludesAt_succ (ih hothers (Nat.lt_of_succ_lt_succ hindex) rest) first

/-! ## Nodes -/

namespace Machine

variable {σ : Type} {machine : Machine σ} {size moves : Nat} {state : σ} {signal answer : Signal}

/-- From here on the machine makes no more than so many moves, whatever it is told. -/
def EndsWithin (machine : Machine σ) (size moves : Nat) (state : σ) (signal : Signal) : Prop :=
  ∀ exchanges last request, machine.Talks size state signal exchanges last request →
    exchanges.length < moves

/-- A machine that ends within some moves may make at least one. -/
theorem EndsWithin.pos (hends : machine.EndsWithin size moves state signal)
    {moment : Moment} (hsize : moment.size = size) : 0 < moves :=
  hends _ _ _ (.asks state signal moment hsize)

/-- After one of the moves a node still ends within the others. -/
theorem EndsWithin.next (hends : machine.EndsWithin size (moves + 1) state signal)
    {moment : Moment} (hsize : moment.size = size)
    (hanswer : (machine moment state signal).request.AnsweredBy answer) :
    machine.EndsWithin size moves (machine moment state signal).state answer :=
  fun _ _ _ htalks =>
    Nat.lt_of_succ_lt_succ (hends _ _ _ (.hears state signal moment hsize hanswer htalks))

/-- Every exchange brings the machine closer to its end. -/
theorem endsWithin_of_lt (left : Signal → Nat)
    (hless : ∀ moment state signal answer,
      (machine moment state signal).request.AnsweredBy answer → left answer < left signal)
    (hmoves : left signal < moves) : machine.EndsWithin size moves state signal := by
  intro exchanges last request htalks
  refine Nat.lt_of_le_of_lt ?_ hmoves
  clear hmoves
  induction htalks with
  | asks => exact Nat.zero_le _
  | hears state signal moment hsize hanswer hrest ih =>
    exact Nat.lt_of_le_of_lt ih (hless moment state signal _ hanswer)

end Machine

/-- A sleep is over in some world. -/
theorem exists_attend_sleep {μ : Type} (mark : Nat) (timer : Timer) (below : μ) :
    ∃ world, attend (.sleep mark timer) below world =
      { result := .signal (.woken mark), memory := below, world := world.endWait } := by
  let world : World := { now := timer.due }
  have hleft : world.waitsLeft ≠ 0 := Nat.succ_ne_zero _
  have hdue : timer.due ≤ world.now := Nat.le_refl timer.due
  exact ⟨world, (if_neg hleft).trans (if_pos hdue)⟩

section Node

variable {name : String} {kind : Kind κ} {children : List (Tree κ)}

/-- What a suspended execution is like after it has been taken up again. -/
theorem concludes_resume (run : Run) (cell : Cell kind.State) (below : Memories children)
    (world : World)
    (hdriven : let rechecked := (crewOf children).recheck run below world
      let driven := (crewOf children).drive name kind children.length
        (kind.allowance children.length) rechecked.result cell rechecked.memory rechecked.world
      Concludes ⟨name, kind, children⟩ driven.result (.node driven.memory.1 driven.memory.2)) :
    Concludes ⟨name, kind, children⟩ (.waiting run) (.node cell below) := by
  refine .later run _ world ?_
  rw [advance_eq, turnOf, Progress.andThen_eq]
  exact hdriven

/-- The node comes to an answer if it is driven on and may make so many moves. -/
def DrivesToAnswer (name : String) (kind : Kind κ) (children : List (Tree κ)) (moves : Nat)
    (signal : Signal) (cell : Cell kind.State) : Prop :=
  ∀ fuel, moves ≤ fuel → ∀ below world,
    let driven := (crewOf children).drive name kind children.length fuel (.signal signal) cell below
      world
    Concludes ⟨name, kind, children⟩ driven.result (.node driven.memory.1 driven.memory.2)

variable {moves fuel mark index : Nat} {cell : Cell kind.State}

/-- Whatever a child does, the node waits for its answer. -/
theorem concludes_replyOfChild (hallowed : moves ≤ kind.allowance children.length)
    (hanswered : ∀ status,
      DrivesToAnswer name kind children moves (.answered mark status) cell)
    {outcome : Outcome} {below : Memories children}
    (hconcludes : ConcludesAt children index outcome below) (hfuel : moves ≤ fuel) (world : World) :
    let driven := (crewOf children).drive name kind children.length fuel
      (replyOfChild mark index outcome) cell below world
    Concludes ⟨name, kind, children⟩ driven.result (.node driven.memory.1 driven.memory.2) := by
  induction hconcludes generalizing fuel world with
  | answered status below => exact hanswered status fuel hfuel below world
  | later run below later _ ih =>
    dsimp only [replyOfChild]
    rw [Crew.drive_stop]
    exact concludes_resume _ _ below later (ih hallowed _)

/-- A sleep is over at once, or in the world in which the node is taken up again. -/
theorem concludes_attend_sleep (hallowed : moves ≤ kind.allowance children.length)
    (hwoken : DrivesToAnswer name kind children moves (.woken mark) cell) (hfuel : moves ≤ fuel)
    (timer : Timer) (below : Memories children) (world : World) :
    let attended := attend (.sleep mark timer) below world
    let driven := (crewOf children).drive name kind children.length fuel attended.result cell
      attended.memory attended.world
    Concludes ⟨name, kind, children⟩ driven.result (.node driven.memory.1 driven.memory.2) := by
  dsimp only
  obtain ⟨-, hattend⟩ | ⟨held, later, -, hattend⟩ := attend_sleep mark timer below world
  · rw [hattend]
    exact hwoken fuel hfuel below _
  · rw [hattend, Crew.drive_stop]
    obtain ⟨due, hdue⟩ := exists_attend_sleep mark held below
    refine concludes_resume _ _ below due ?_
    dsimp only [Crew.recheck]
    rw [hdue]
    exact hwoken _ hallowed below _

/-- A node that is driven comes to an answer if it makes few moves. -/
theorem drivesToAnswer_of_endsWithin (hplain : Machine.IsPlain kind.respond children.length)
    (hsafe : ∀ moment state signal, (kind.respond moment state signal).request ≠ .crash)
    (hchildren : ∀ child ∈ children, child.CanAnswer) {signal : Signal}
    (hends : Machine.EndsWithin kind.respond children.length moves cell.state signal)
    (hallowed : moves ≤ kind.allowance children.length) :
    DrivesToAnswer name kind children moves signal cell := by
  intro fuel hfuel below world
  induction moves generalizing fuel signal cell below world with
  | zero =>
    have hpos := @Machine.EndsWithin.pos _ _ _ _ _ _ hends ⟨name, children.length, 0, {}⟩ rfl
    exact absurd hpos (Nat.lt_irrefl 0)
  | succ moves ih =>
    obtain ⟨fuel, rfl⟩ : ∃ rest, fuel = rest + 1 := ⟨fuel - 1, by omega⟩
    have hfuel : moves ≤ fuel := Nat.le_of_succ_le_succ hfuel
    have hallowed : moves ≤ kind.allowance children.length := Nat.le_of_succ_le hallowed
    dsimp only
    rw [Crew.drive_signal]
    dsimp only
    generalize hmoment : Moment.mk name children.length world.now (world.context cell.binding) =
      moment
    have hsize : moment.size = children.length := by rw [← hmoment]
    have hrequest := hplain moment cell.state signal hsize
    have hsound := hsafe moment cell.state signal
    have hnext := fun answer => @Machine.EndsWithin.next _ _ _ _ _ _ answer hends moment hsize
    generalize kind.respond moment cell.state signal = move at hrequest hsound hnext ⊢
    generalize world.write cell.binding move.writes = written
    simp only [Progress.result_after, Progress.memory_after]
    generalize move.request = request at hrequest hsound hnext ⊢
    -- the move that an answer to the request leads to
    have hmoves : ∀ answer, request.AnsweredBy answer →
        DrivesToAnswer name kind children moves answer ⟨move.state, written.2⟩ :=
      fun answer hanswer fuel hfuel below world =>
        ih (hnext answer hanswer) hallowed fuel hfuel below world
    cases request with
    | finish status =>
      simp only [Crew.serve]
      rw [Crew.drive_stop]
      exact .answered status _
    | crash => exact absurd rfl hsound
    | run mark index =>
      exact concludes_replyOfChild hallowed (fun status => hmoves _ (.run mark index status))
        (concludesAt_advanceChild hchildren hrequest below written.1) hfuel _
    | sleep mark duration =>
      exact concludes_attend_sleep hallowed (hmoves _ (.sleep mark duration)) hfuel _ below _
    | resetChild index => exact hmoves _ (.resetChild index) fuel hfuel _ _
    | runAll => exact hrequest.elim
    | race index limit => exact hrequest.elim
    | abortChild index => exact hrequest.elim

/-- If all executions of the children can be brought to an answer, so can those of a node that has
them run one at a time and stays within its allowance. -/
theorem canAnswer_node (hplain : Machine.IsPlain kind.respond children.length)
    (hsafe : ∀ moment state signal, (kind.respond moment state signal).request ≠ .crash)
    (hends : ∀ state, Machine.EndsWithin kind.respond children.length
      (kind.allowance children.length) state .started)
    (hchildren : ∀ child ∈ children, child.CanAnswer) :
    (⟨name, kind, children⟩ : Tree κ).CanAnswer := by
  intro memory world
  cases memory with
  | node cell below =>
    rw [advance_eq]
    exact drivesToAnswer_of_endsWithin hplain hsafe hchildren (hends cell.state) (Nat.le_refl _) _
      (Nat.le_refl _) below world

/-- Without a child to execute, a failure is forced at once. -/
theorem canAnswer_forceFailure (name : String) :
    (⟨name, .forceFailure, []⟩ : Tree κ).CanAnswer := by
  intro memory world
  cases memory
  exact .answered .failure _

end Node

end BehaviorTree
