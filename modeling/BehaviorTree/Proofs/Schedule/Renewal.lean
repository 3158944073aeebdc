import BehaviorTree.Proofs.Schedule.MemoryInvariant
import BehaviorTree.Proofs.Schedule.RoundBound
import BehaviorTree.Proofs.Schedule.Resumption
import BehaviorTree.Proofs.Tree.Binding

/-!
# A reset tree is as good as new

When no task is under way, a reset leaves nothing of the past of a tree of built-in nodes but the
time and the shared context. So whatever is done with the tree afterwards, it responds like a tree
that has just been built in that context (`Session.renewal`). A session keeps the count of its ticks
besides.
-/

namespace BehaviorTree

variable {κ : Type} [Application κ] {tree : Tree κ}

/-! ## One context for all nodes -/

/-- Every node is bound to the context with a number, and so many contexts there are. -/
def boundLaw (tree : Tree κ) (id count : Nat) : Law tree where
  holds := fun memory contexts => memory.IsBoundTo id ∧ contexts.length = count
  allows := fun _ _ => True

/-- All nodes stay bound to the context, whatever happens. -/
theorem binds_boundLaw (id count : Nat) :
    (boundLaw tree id count).Binds (fun _ => True) (fun _ => False) where
  turn := by
    intro turn hfinds
    obtain ⟨hbound, hcount⟩ := bound_advanceAt turn.path turn.run hfinds.holds.1 hfinds.holds.2
    exact .inl ⟨trivial, ⟨hbound, hcount⟩, fun _ _ => trivial⟩
  notify := fun _ _ _ _ => trivial
  abort := fun now _ _ hholds => ⟨hholds.1.abort now, hholds.2⟩
  reset := fun now _ _ hholds => ⟨hholds.1.reset now, hholds.2⟩

/-- An entry whose tick, if it tells of a change of status, has a number greater by so much. -/
def Entry.recounted (count : Nat) (entry : Entry) : Entry :=
  match entry.happening with
  | .notice (.statusChanged tree status tick) =>
    { entry with happening := .notice (.statusChanged tree status (tick + count)) }
  | _ => entry

/-- Two responses that are the same but for the numbers of the ticks. -/
structure Response.SameButCount (count : Nat) (response other : Response) : Prop where
  /-- The answers are the same. -/
  result_eq : response.result = other.result
  /-- The contexts are the same. -/
  context_eq : response.context = other.context
  /-- The journals are the same but for a report in which the ticks are counted differently. -/
  journal_eq : ∃ journal report, other.journal = journal ++ report ∧
    response.journal = journal ++ report.map (·.recounted count)

/-- Responses with the same journal are the same but for the numbers of the ticks. -/
theorem Response.SameButCount.of_journal_eq {count : Nat} {response other : Response}
    (hresult : response.result = other.result) (hcontext : response.context = other.context)
    (hjournal : response.journal = other.journal) : response.SameButCount count other :=
  ⟨hresult, hcontext, other.journal, [], (List.append_nil _).symm,
    hjournal.trans (List.append_nil _).symm⟩

namespace System

/-! ## Systems in which nothing is under way -/

/-- Nothing is under way. Calls for tasks that have ended may be left. -/
structure IsCalm (system : System tree) : Prop where
  /-- No task is under way. -/
  tasks_eq : system.tasks = []
  /-- Nothing waits in the foreground. -/
  front_eq : system.front = none

/-- Two systems in which nothing is under way and which have the same memory, time and contexts. -/
structure Alike (system other : System tree) : Prop where
  /-- Nothing is under way in the first system. -/
  calm : system.IsCalm
  /-- Nothing is under way in the second system. -/
  otherCalm : other.IsCalm
  /-- The nodes keep the same. -/
  memory_eq : system.memory = other.memory
  /-- The times are the same. -/
  now_eq : system.world.now = other.world.now
  /-- The shared contexts are the same. -/
  contexts_eq : system.world.contexts = other.world.contexts

namespace IsCalm

variable {system : System tree}

/-- Being calm is not about the memory or the world. -/
theorem same {later : System tree} (hcalm : system.IsCalm) (htasks : later.tasks = system.tasks)
    (hfront : later.front = system.front) : later.IsCalm :=
  ⟨htasks.trans hcalm.tasks_eq, hfront.trans hcalm.front_eq⟩

/-- A call finds nobody. -/
theorem call_eq (hcalm : system.IsCalm) (call : Call) : system.call call = system := by
  obtain ⟨memory, world, front, called, tasks, ready⟩ := system
  obtain ⟨rfl, rfl⟩ := hcalm
  simp [System.call]

/-- Calls that concern nobody leave a calm system as it is. -/
theorem callAll_eq (hcalm : system.IsCalm) (calls : List Call) :
    system.callAll calls = system := by
  induction calls with
  | nil => rfl
  | cons call calls ih =>
    rw [System.callAll, List.foldl_cons, hcalm.call_eq]
    exact ih

/-- Calling a party leaves a calm system as it is. -/
theorem callParty_eq (hcalm : system.IsCalm) (party : Party) :
    system.callParty party = system := by
  cases party with
  | front =>
    obtain ⟨memory, world, front, called, tasks, ready⟩ := system
    obtain ⟨rfl, rfl⟩ := hcalm
    rw [System.callParty, Option.isSome_none, Bool.or_false]
  | task id =>
    rw [System.callParty, hcalm.tasks_eq]
    rfl
  | member crowd index => exact hcalm.call_eq _

/-- There is no task to run in a calm system. -/
theorem runTask_eq (hcalm : system.IsCalm) (id : Nat) : system.runTask id = (system, []) := by
  refine runTask_of_none ?_
  rw [task?, hcalm.tasks_eq]
  rfl

end IsCalm

namespace Alike

variable {system other : System tree}

/-- A calm system is like itself. -/
theorem refl (hcalm : system.IsCalm) : system.Alike system := ⟨hcalm, hcalm, rfl, rfl, rfl⟩

/-- Likeness goes both ways. -/
theorem symm (halike : system.Alike other) : other.Alike system :=
  ⟨halike.otherCalm, halike.calm, halike.memory_eq.symm, halike.now_eq.symm,
    halike.contexts_eq.symm⟩

/-- Likeness can be put together. -/
theorem trans {last : System tree} (hfirst : system.Alike other) (hrest : other.Alike last) :
    system.Alike last :=
  ⟨hfirst.calm, hrest.otherCalm, hfirst.memory_eq.trans hrest.memory_eq,
    hfirst.now_eq.trans hrest.now_eq, hfirst.contexts_eq.trans hrest.contexts_eq⟩

end Alike

/-! ## Time passes -/

section

variable {system other : System tree}

/-- Calling those who have put a wait off leaves a calm system as it is, but for the calls. -/
theorem IsCalm.resume (hcalm : system.IsCalm) : system.Alike system.resume := by
  have hparties : ∀ parties : List Party, ∀ system : System tree, system.IsCalm →
      parties.foldl callParty system = system := by
    intro parties
    induction parties with
    | nil => exact fun _ _ => rfl
    | cons party parties ih =>
      intro system hcalm
      rw [List.foldl_cons, hcalm.callParty_eq, ih system hcalm]
  have hforgotten : IsCalm { system with world := { system.world with putOff := [] } } :=
    hcalm.same rfl rfl
  rw [System.resume, hparties _ _ hforgotten]
  exact ⟨hcalm, hforgotten, rfl, rfl, rfl⟩

/-- Running tasks leaves a calm system as it is, but for the calls. -/
theorem IsCalm.runTasks (hcalm : system.IsCalm) (count : Nat) :
    system.Alike (system.runTasks count).1 ∧ (system.runTasks count).2 = [] := by
  induction count generalizing system with
  | zero => exact ⟨.refl hcalm, rfl⟩
  | succ count ih =>
    rw [System.runTasks]
    cases hready : system.ready with
    | nil => exact ⟨.refl hcalm, rfl⟩
    | cons id rest =>
      have hrest : IsCalm { system with ready := rest } := hcalm.same rfl rfl
      obtain ⟨halike, hjournal⟩ := ih hrest
      dsimp only
      rw [hrest.runTask_eq id]
      exact ⟨⟨hcalm, halike.otherCalm, halike.memory_eq, halike.now_eq, halike.contexts_eq⟩,
        hjournal⟩

/-- The rounds until nobody is called leave a calm system as it is, but for the calls. -/
theorem IsCalm.settleWith (hcalm : system.IsCalm) (fuel : Nat) :
    system.Alike (settleWith fuel system).1 ∧ (settleWith fuel system).2 = [] := by
  induction fuel generalizing system with
  | zero => exact ⟨.refl hcalm, rfl⟩
  | succ fuel ih =>
    rw [System.settleWith]
    split
    · exact ⟨.refl hcalm, rfl⟩
    · obtain ⟨htasks, hnone⟩ := hcalm.runTasks roundLength
      have hround : system.Alike system.round.1 := htasks.trans htasks.otherCalm.resume
      obtain ⟨hrest, hothers⟩ := ih hround.otherCalm
      refine ⟨hround.trans hrest, ?_⟩
      have hjournal : system.round.2 = [] := hnone
      dsimp only
      rw [hjournal, hothers]
      rfl

/-- Only the clock moves. -/
theorem IsCalm.moveClock_eq (hcalm : system.IsCalm) (time : Nat) :
    system.moveClock time =
      { system with
        world := { system.world with now := max system.world.now time, results := [] } } := by
  have hlater : IsCalm { system with
      world := { system.world with now := max system.world.now time, results := [] } } :=
    hcalm.same rfl rfl
  exact hlater.callAll_eq _

/-- Systems that are alike stay so when the clock moves. -/
theorem Alike.moveClock (halike : system.Alike other) (time : Nat) :
    (system.moveClock time).Alike (other.moveClock time) := by
  rw [halike.calm.moveClock_eq, halike.otherCalm.moveClock_eq]
  refine ⟨halike.calm.same rfl rfl, halike.otherCalm.same rfl rfl, halike.memory_eq, ?_,
    halike.contexts_eq⟩
  dsimp only
  rw [halike.now_eq]

/-- Nothing happens while time passes. -/
theorem IsCalm.pass (hcalm : system.IsCalm) (duration : Nat) :
    (system.moveClock (system.world.now + duration)).Alike (system.pass duration).1 ∧
      (system.pass duration).2 = [] := by
  obtain ⟨hsettled, hjournal⟩ := hcalm.settleWith system.patience
  have hnone : system.settle.1.nextDue? = none := by
    rw [nextDue?, timers, System.settle, hsettled.otherCalm.front_eq, hsettled.otherCalm.tasks_eq]
    rfl
  rw [System.pass]
  cases system.patience with
  | zero => exact ⟨(Alike.refl hcalm).moveClock _, rfl⟩
  | succ fuel =>
    rw [passTo]
    dsimp only
    rw [hnone]
    exact ⟨hsettled.moveClock _, hjournal⟩

/-- Systems that are alike stay so while time passes. -/
theorem Alike.pass (halike : system.Alike other) (duration : Nat) :
    (system.pass duration).1.Alike (other.pass duration).1 ∧
      (system.pass duration).2 = (other.pass duration).2 := by
  obtain ⟨hpassed, hjournal⟩ := halike.calm.pass duration
  obtain ⟨hotherPassed, hotherJournal⟩ := halike.otherCalm.pass duration
  refine ⟨hpassed.symm.trans ((halike.moveClock _).trans ?_), hjournal.trans hotherJournal.symm⟩
  rw [halike.now_eq]
  exact hotherPassed

/-! ## The same from then on -/

/-- An execution does not tell alike systems apart, and afterwards they are the same. -/
theorem Alike.execute_eq (halike : system.Alike other) : system.execute = other.execute := by
  have hrefreshed : system.refreshed = other.refreshed := by
    rw [refreshed, refreshed, halike.calm.tasks_eq, halike.otherCalm.tasks_eq, World.atRest,
      World.atRest, halike.memory_eq, halike.now_eq, halike.contexts_eq]
    rfl
  rw [execute, execute, hrefreshed]

/-- Systems that are alike have the same context at the root. -/
theorem Alike.rootContext_eq (halike : system.Alike other) :
    system.rootContext = other.rootContext := by
  rw [rootContext, rootContext, halike.memory_eq]
  cases other.memory.binding with
  | own context => rfl
  | shared id => rw [World.context, World.context, halike.contexts_eq]

/-- Systems that are alike stay so after an abort. -/
theorem Alike.abort (halike : system.Alike other) :
    (system.next .abort).Alike (other.next .abort) ∧ system.abort.2 = other.abort.2 := by
  have hmemory : system.memory.abort system.world.now = other.memory.abort other.world.now := by
    rw [halike.memory_eq, halike.now_eq]
  have hjournal := congrArg Prod.snd hmemory
  exact ⟨⟨halike.calm.same rfl rfl, halike.otherCalm.same rfl rfl, congrArg Prod.fst hmemory,
    halike.now_eq, halike.contexts_eq⟩, hjournal⟩

/-- Systems that are alike stay so after a reset. -/
theorem Alike.reset (halike : system.Alike other) :
    (system.next .reset).Alike (other.next .reset) ∧ system.reset.2 = other.reset.2 := by
  have hmemory : system.memory.reset system.world.now = other.memory.reset other.world.now := by
    rw [halike.memory_eq, halike.now_eq]
  have hjournal := congrArg Prod.snd hmemory
  exact ⟨⟨halike.calm.same rfl rfl, halike.otherCalm.same rfl rfl, congrArg Prod.fst hmemory,
    halike.now_eq, halike.contexts_eq⟩, hjournal⟩

/-- Both systems are the same, or nothing is under way and they are alike. -/
def Same (system other : System tree) : Prop := system = other ∨ system.Alike other

/-- The same system, or one that is like it, is executed in the same way. -/
theorem Same.execute_eq (hsame : system.Same other) : system.execute = other.execute := by
  obtain rfl | halike := hsame
  · rfl
  · exact halike.execute_eq

/-- The same system, or one that is like it, has the same time. -/
theorem Same.now_eq (hsame : system.Same other) : system.world.now = other.world.now := by
  obtain rfl | halike := hsame
  · rfl
  · exact halike.now_eq

/-- Systems that are the same in this sense respond in the same way and stay the same. -/
theorem Same.next (hsame : system.Same other) (operation : Operation) :
    system.response operation = other.response operation ∧
      (system.next operation).Same (other.next operation) := by
  obtain rfl | halike := hsame
  · exact ⟨rfl, .inl rfl⟩
  · cases operation with
    | execute =>
      rw [response, response, System.next, System.next, halike.execute_eq]
      exact ⟨rfl, .inl rfl⟩
    | abort =>
      obtain ⟨hlater, hjournal⟩ := halike.abort
      rw [response, response, hlater.rootContext_eq, hjournal]
      exact ⟨rfl, .inr hlater⟩
    | reset =>
      obtain ⟨hlater, hjournal⟩ := halike.reset
      rw [response, response, hlater.rootContext_eq, hjournal]
      exact ⟨rfl, .inr hlater⟩
    | pass duration =>
      obtain ⟨hlater, hjournal⟩ := halike.pass duration
      have hcontext : (system.next (.pass duration)).rootContext =
          (other.next (.pass duration)).rootContext := hlater.rootContext_eq
      rw [response, response, hcontext, hjournal]
      exact ⟨rfl, .inr hlater⟩

/-- The same system, or one that is like it, stays so through several operations. -/
theorem Same.nextAll (hsame : system.Same other) (operations : List Operation) :
    (system.nextAll operations).Same (other.nextAll operations) := by
  induction operations generalizing system other with
  | nil => exact hsame
  | cons operation operations ih => exact ih (hsame.next operation).2

end

/-- The tree as newly built, at the present time and in the context of the root. -/
def rebuilt (system : System tree) : System tree :=
  (System.bound tree system.rootContext).moveClock system.world.now

/-- Two systems respond in the same way to whatever is done with them. -/
def RespondsLike (system other : System tree) : Prop :=
  ∀ operations operation,
    (system.nextAll operations).response operation = (other.nextAll operations).response operation

/-- The same system, or one that is like it, responds in the same way. -/
theorem Same.respondsLike {system other : System tree} (hsame : system.Same other) :
    system.RespondsLike other :=
  fun operations operation => ((hsame.nextAll operations).next operation).1

/-- A reset of a calm tree whose nodes share the only context. -/
theorem reset_alike (hbuiltIn : tree.IsBuiltIn) {system : System tree} (hcalm : system.IsCalm)
    (hbound : system.memory.IsBoundTo 0) (hcount : system.world.contexts.length = 1) :
    system.reset.1.Alike system.rebuilt := by
  have hnew : (System.bound tree system.rootContext).IsCalm := ⟨rfl, rfl⟩
  have hcontexts : system.world.contexts = [system.rootContext] := by
    obtain ⟨context, hcontext⟩ := List.length_eq_one_iff.mp hcount
    rw [rootContext, hbound.binding_eq, World.context, hcontext]
    rfl
  rw [rebuilt, hnew.moveClock_eq]
  refine ⟨hcalm.same rfl rfl, hnew.same rfl rfl, hbound.reset_eq _ hbuiltIn, ?_, hcontexts⟩
  exact (Nat.zero_max _).symm

end System

namespace Session

variable {session : Session tree}

/-- What holds of the systems with which sessions begin, is kept by every operation and is not about
the contexts holds of every session that is reached. -/
theorem Reached.kept (hreached : session.Reached) (holds : System tree → Prop)
    (hbegun : ∀ context, holds (Session.begin tree context).1.system)
    (hloaded : ∀ context, holds (.bound tree context))
    (hnext : ∀ {system : System tree}, holds system → ∀ operation, holds (system.next operation))
    (hchanged : ∀ {system : System tree}, holds system → ∀ id change,
      holds (system.modifyContext id change)) : holds session.system := by
  induction hreached with
  | begun context => exact hbegun context
  | loaded context => exact hloaded context
  | @ticked session status hreached hstatus ih =>
    rw [session.tick_eq.2.1]
    exact hnext ih .execute
  | aborted hreached ih => exact hnext ih .abort
  | restored hreached ih => exact hnext ih .reset
  | passed duration hreached ih => exact hnext ih (.pass duration)
  | changed id change hreached ih => exact hchanged ih id change

/-- In a session nothing is in the foreground between operations. -/
theorem Reached.front_eq (hreached : session.Reached) : session.system.front = none :=
  hreached.kept (·.front = none) (fun _ => rfl) (fun _ => rfl)
    (fun hfront operation => System.front_nextAll hfront [operation]) fun hfront _ _ => hfront

/-- All nodes share the only context. -/
theorem Reached.obeys (hbuiltIn : tree.IsBuiltIn) (hreached : session.Reached) :
    session.system.Obeys (boundLaw tree 0 1) := by
  refine hreached.kept (·.Obeys (boundLaw tree 0 1)) (fun context => ?_) (fun context => ?_)
    (fun hobeys operation => ?_) fun hobeys id change => ?_
  · exact ⟨⟨Memory.isBoundTo_bind 0 0 _ hbuiltIn fun _ => rfl, rfl⟩, nofun, nofun⟩
  · exact ⟨⟨isBoundTo_fresh 0 tree, rfl⟩, nofun, nofun⟩
  · exact (hobeys.next (binds_boundLaw 0 1) operation).of_never
  · exact ⟨⟨hobeys.holds.1, (List.length_modify ..).trans hobeys.holds.2⟩, hobeys.front,
      hobeys.task⟩

/-! ## Sessions -/

/-- Two sessions whose systems are the same, and which differ in nothing but the count of ticks. -/
structure Twins (count : Nat) (session other : Session tree) : Prop where
  /-- The systems are the same. -/
  same : session.system.Same other.system
  /-- The last answers are the same. -/
  last_eq : session.last = other.last
  /-- The first session has counted so many ticks more. -/
  ticks_eq : session.ticks = other.ticks + count

/-- Two sessions respond in the same way to whatever is done with them and end up with the same
status, but for the count of ticks. -/
def RespondsLike (count : Nat) (session other : Session tree) : Prop :=
  ∀ operations operation,
    let later := session.nextAll operations
    let otherLater := other.nextAll operations
    (later.response operation).SameButCount count (otherLater.response operation) ∧
      (later.next operation).last = (otherLater.next operation).last ∧
      (later.next operation).ticks = (otherLater.next operation).ticks + count

variable {count : Nat} {other : Session tree}

/-- Twins report a change of status in the same way, but for the number of the tick. -/
theorem changeReport_twins (hlast : session.last = other.last)
    (hticks : session.ticks = other.ticks + count) (status : Status) (now : Nat) :
    session.changeReport status now =
      (other.changeReport status now).map (·.recounted count) := by
  rw [changeReport, changeReport, hlast, hticks]
  split
  · rfl
  · rw [Nat.add_right_comm]
    rfl

/-- Twins tick in the same way, but for the number of the tick. -/
theorem Twins.tick (htwins : session.Twins count other) :
    (session.response .execute).SameButCount count (other.response .execute) ∧
      (session.next .execute).Twins count (other.next .execute) := by
  rw [response, response, Session.next, Session.next, Session.tick, Session.tick,
    htwins.same.execute_eq]
  generalize other.system.execute = ended
  obtain ⟨result, system, journal⟩ := ended
  cases result with
  | error fault =>
    exact ⟨.of_journal_eq rfl rfl rfl, .inl rfl, htwins.last_eq, htwins.ticks_eq⟩
  | ok status =>
    have hreport := changeReport_twins htwins.last_eq htwins.ticks_eq status system.world.now
    refine ⟨⟨rfl, rfl, journal, other.changeReport status system.world.now, rfl, ?_⟩, .inl rfl, rfl,
      ?_⟩
    · exact congrArg (journal ++ ·) hreport
    · dsimp only
      rw [htwins.ticks_eq, Nat.add_right_comm]

/-- Twins respond to an operation in the same way and stay twins. -/
theorem Twins.next (htwins : session.Twins count other) (operation : Operation) :
    (session.response operation).SameButCount count (other.response operation) ∧
      (session.next operation).Twins count (other.next operation) := by
  obtain ⟨hresponse, hsame⟩ := htwins.same.next operation
  have hcontext := congrArg Response.context hresponse
  have hjournal := congrArg Response.journal hresponse
  cases operation with
  | execute => exact htwins.tick
  | abort =>
    have hnodes : session.system.abort.2 = other.system.abort.2 := hjournal
    have hentries : session.abort.2 = other.abort.2 := calc
      session.abort.2 = noticeAt session.system.world.now (.abortingTree tree.name) ::
          session.system.abort.2 := rfl
      _ = noticeAt other.system.world.now (.abortingTree tree.name) ::
          other.system.abort.2 := by rw [htwins.same.now_eq, hnodes]
      _ = other.abort.2 := rfl
    exact ⟨.of_journal_eq rfl hcontext hentries, hsame, htwins.last_eq, htwins.ticks_eq⟩
  | reset => exact ⟨.of_journal_eq rfl hcontext hjournal, hsame, rfl, htwins.ticks_eq⟩
  | pass duration =>
    exact ⟨.of_journal_eq rfl hcontext hjournal, hsame, htwins.last_eq, htwins.ticks_eq⟩

/-- Twins stay twins through several operations. -/
theorem Twins.nextAll (htwins : session.Twins count other) (operations : List Operation) :
    (session.nextAll operations).Twins count (other.nextAll operations) := by
  induction operations generalizing session other with
  | nil => exact htwins
  | cons operation operations ih => exact ih (htwins.next operation).2

/-- Twins respond in the same way to whatever is done with them. -/
theorem Twins.respondsLike (htwins : session.Twins count other) :
    session.RespondsLike count other := by
  intro operations operation
  obtain ⟨hresponse, hlater⟩ := (htwins.nextAll operations).next operation
  exact ⟨hresponse, hlater.last_eq, hlater.ticks_eq⟩

/-- After a reset, a tree of built-in nodes with no task under way is like one that has just been
built at that time in its context: so are its root, and the session but for the count of ticks. -/
theorem renewal (hbuiltIn : tree.IsBuiltIn) (hreached : session.Reached)
    (hidle : session.system.tasks = []) :
    session.system.reset.1.RespondsLike session.system.rebuilt ∧
      session.reset.1.RespondsLike session.ticks { system := session.system.rebuilt } := by
  have hholds := (hreached.obeys hbuiltIn).holds
  have halike : session.system.reset.1.Alike session.system.rebuilt :=
    System.reset_alike hbuiltIn ⟨hidle, hreached.front_eq⟩ hholds.1 hholds.2
  have htwins : session.reset.1.Twins session.ticks { system := session.system.rebuilt } :=
    ⟨.inr halike, rfl, (Nat.zero_add _).symm⟩
  exact ⟨System.Same.respondsLike (.inr halike), htwins.respondsLike⟩

/-- The sequence that waits is suspended at its second child when it is reset. -/
theorem renewal_waitingSequence :
    let session := (Session.begin waitingSequence {}).1.tick.2.1
    waitingSequence.IsBuiltIn ∧ session.Reached ∧ session.system.tasks = [] ∧
      session.system.reset.1.RespondsLike session.system.rebuilt ∧
      session.reset.1.RespondsLike session.ticks { system := session.system.rebuilt } := by
  intro session
  have hbuiltIn : waitingSequence.IsBuiltIn := ⟨rfl, ⟨rfl, trivial⟩, ⟨rfl, trivial⟩, trivial⟩
  have hreached : session.Reached := (Session.Reached.begun {}).ticked rfl
  exact ⟨hbuiltIn, hreached, rfl, renewal hbuiltIn hreached rfl⟩

end Session

end BehaviorTree
