import BehaviorTree.Proofs.Schedule.Renewal
import BehaviorTree.Proofs.Tree.Writing

/-!
# What becomes of the blackboard

Between the turns nothing happens to the shared contexts, so each turn finds them as the one before
it has left them (`System.handsOn_turnsOf`). Since every turn of a tree of built-in nodes tells in
its journal what becomes of the context, so does every operation: a key never goes away, and what is
under it changes only when a setter with that key succeeds (`Session.only_setters_write`).
-/

namespace BehaviorTree

variable {κ : Type} [Application κ] {tree : Tree κ}

/-- Each turn finds the shared contexts as they were left before it. -/
def HandsOn (before : List Context) : List (Turn tree) → List Context → Prop
  | [], after => after = before
  | turn :: turns, after =>
    turn.world.contexts = before ∧ HandsOn turn.progress.world.contexts turns after

/-- Turns that hand the contexts on may be put together. -/
theorem HandsOn.append {before between after : List Context} {turns later : List (Turn tree)}
    (hturns : HandsOn before turns between) (hlater : HandsOn between later after) :
    HandsOn before (turns ++ later) after := by
  induction turns generalizing before with
  | nil =>
    have hsame : between = before := hturns
    subst hsame
    exact hlater
  | cons turn turns ih => exact ⟨hturns.1, ih hturns.2⟩

/-- If every turn tells what becomes of the contexts, then all of them together do. -/
theorem HandsOn.tells {account : Account} {before after : List Context} {turns : List (Turn tree)}
    (hturns : HandsOn before turns after)
    (htold : ∀ turn ∈ turns, account.tells turn.world.contexts turn.progress.journal
      turn.progress.world.contexts) : account.tells before (journalOf turns) after := by
  induction turns generalizing before with
  | nil =>
    have hsame : after = before := hturns
    subst hsame
    exact account.still after
  | cons turn turns ih =>
    obtain ⟨hfound, hrest⟩ := hturns
    have hfirst := htold turn List.mem_cons_self
    rw [hfound] at hfirst
    have hlater := ih hrest fun other hmem => htold other (List.mem_cons_of_mem _ hmem)
    exact account.append hfirst hlater

namespace System

/-! ## Between the turns -/

/-- Passing calls on leaves the contexts as they are. -/
theorem contexts_callAll (system : System tree) (calls : List Call) :
    (system.callAll calls).world.contexts = system.world.contexts := by
  induction calls generalizing system with
  | nil => rfl
  | cons call calls ih => exact ih (system.call call)

/-- Calling a party leaves the contexts as they are. -/
theorem contexts_callParty (system : System tree) (party : Party) :
    (system.callParty party).world.contexts = system.world.contexts := by
  cases party with
  | front => rfl
  | task id =>
    rw [callParty]
    split <;> rfl
  | member crowd index => rfl

/-- Calling those who have put a wait off leaves the contexts as they are. -/
theorem contexts_resume (system : System tree) :
    system.resume.world.contexts = system.world.contexts := by
  have hparties : ∀ (parties : List Party) (system : System tree),
      (parties.foldl callParty system).world.contexts = system.world.contexts := by
    intro parties
    induction parties with
    | nil => exact fun _ => rfl
    | cons party parties ih =>
      intro system
      exact (ih _).trans (contexts_callParty system party)
  exact hparties _ _

/-- Moving the clock leaves the contexts as they are. -/
theorem contexts_moveClock (system : System tree) (time : Nat) :
    (system.moveClock time).world.contexts = system.world.contexts :=
  contexts_callAll _ _

/-- A refreshed system has the same contexts. -/
theorem contexts_refreshed (system : System tree) :
    system.refreshed.world.contexts = system.world.contexts := by
  rw [refreshed]
  split <;> rfl

/-- After the turn of a task the contexts are as it has left them. -/
theorem contexts_afterTurn (system : System tree) (task : Task) :
    (system.afterTurn task).world.contexts =
      (system.turnOfTask task).progress.world.contexts := by
  rw [afterTurn]
  split <;> rfl

/-! ## From turn to turn -/

/-- A task hands the contexts on. -/
theorem handsOn_runTask (system : System tree) (id : Nat) :
    HandsOn system.world.contexts (system.turnOf? id).toList
      (system.runTask id).1.world.contexts := by
  rw [turnOf?]
  cases htask : system.task? id with
  | none =>
    rw [runTask_of_none htask]
    rfl
  | some task =>
    rw [runTask_of_some htask]
    exact ⟨rfl, contexts_afterTurn system task⟩

/-- Tasks hand the contexts on, one to the other. -/
theorem handsOn_runTasks (count : Nat) (system : System tree) :
    HandsOn system.world.contexts (system.turnsOfTasks count)
      (system.runTasks count).1.world.contexts := by
  induction count generalizing system with
  | zero => rfl
  | succ count ih =>
    rw [turnsOfTasks, runTasks]
    cases hready : system.ready with
    | nil => rfl
    | cons id rest => exact (handsOn_runTask { system with ready := rest } id).append (ih _)

/-- A round hands the contexts on. -/
theorem handsOn_round (system : System tree) :
    HandsOn system.world.contexts system.turnsOfRound system.round.1.world.contexts := by
  have hround : system.round.1.world.contexts = (system.runTasks roundLength).1.world.contexts :=
    contexts_resume _
  rw [hround]
  exact handsOn_runTasks roundLength system

/-- The rounds until nobody is called hand the contexts on. -/
theorem handsOn_settleWith (fuel : Nat) (system : System tree) :
    HandsOn system.world.contexts (turnsOfSettling fuel system)
      (settleWith fuel system).1.world.contexts := by
  induction fuel generalizing system with
  | zero => rfl
  | succ fuel ih =>
    rw [turnsOfSettling, settleWith]
    split
    · rfl
    · exact (handsOn_round system).append (ih _)

/-- The foreground hands the contexts on. -/
theorem handsOn_runFront (system : System tree) :
    HandsOn system.world.contexts [system.turnOfFront] system.runFront.2.1.world.contexts := by
  refine ⟨rfl, ?_⟩
  rw [runFront_eq, progress_turnOfFront]
  rfl

/-- Whether the clock moves or not, after a round the contexts are as the round has left them. -/
theorem contexts_afterRound? {system next : System tree} (hnext : system.afterRound? = some next) :
    next.world.contexts = system.round.1.world.contexts := by
  rw [afterRound?] at hnext
  split at hnext
  · obtain ⟨time, -, rfl⟩ := Option.map_eq_some_iff.mp hnext
    exact contexts_moveClock _ time
  · cases hnext
    rfl

/-- The turns until the foreground has answered hand the contexts on. -/
theorem handsOn_complete (fuel : Nat) (outcome : Outcome) (system : System tree) :
    HandsOn system.world.contexts (turnsOfCompletion fuel outcome system)
      (complete fuel outcome system).2.1.world.contexts := by
  induction fuel generalizing outcome system with
  | zero => cases outcome <;> rfl
  | succ fuel ih =>
    cases outcome with
    | answered status => rfl
    | failed fault => rfl
    | waiting run =>
      rw [turnsOfCompletion, complete_waiting]
      refine (handsOn_round system).append ?_
      cases hnext : system.afterRound? with
      | none => rfl
      | some next =>
        rw [← contexts_afterRound? hnext]
        dsimp only
        split
        · exact (handsOn_runFront next).append (ih _ _)
        · exact ih _ _

/-- An execution of the root hands the contexts on. -/
theorem handsOn_execute (system : System tree) :
    HandsOn system.world.contexts system.turnsOfExecution system.execute.2.1.world.contexts := by
  rw [← contexts_refreshed system]
  exact (handsOn_runFront system.refreshed).append (handsOn_complete _ _ _)

/-- The turns until a point in time hand the contexts on. -/
theorem handsOn_passTo (target fuel : Nat) (system : System tree) :
    HandsOn system.world.contexts (turnsUntil target fuel system)
      (passTo target fuel system).1.world.contexts := by
  induction fuel generalizing system with
  | zero => exact contexts_moveClock system target
  | succ fuel ih =>
    rw [turnsUntil, passTo]
    have hsettled := handsOn_settleWith system.patience system
    refine hsettled.append ?_
    dsimp only
    cases system.settle.1.nextDue? with
    | none => exact contexts_moveClock _ target
    | some time =>
      dsimp only
      split
      · have hrest := ih (system.settle.1.moveClock time)
        rw [contexts_moveClock] at hrest
        exact hrest
      · exact contexts_moveClock _ target

/-- In the course of an operation each turn finds the contexts as they were left before it. -/
theorem handsOn_turnsOf (system : System tree) (operation : Operation) :
    HandsOn system.world.contexts (system.turnsOf operation)
      (system.next operation).world.contexts := by
  cases operation with
  | execute => exact handsOn_execute system
  | abort => rfl
  | reset => rfl
  | pass duration => exact handsOn_passTo _ _ system

/-! ## Operations -/

/-- As long as the nodes share the context, every turn tells what becomes of it. -/
theorem binds_boundLaw_tells (hbuiltIn : tree.IsBuiltIn) (id count : Nat) :
    (boundLaw tree id count).Binds (fun turn => (tree.account id).tells turn.world.contexts
      turn.progress.journal turn.progress.world.contexts) (fun _ => False) where
  turn := by
    intro turn hfinds
    have htells := Tree.isAccounted id tree hbuiltIn turn.path turn.run turn.memory turn.world
      hfinds.holds.1
    obtain ⟨-, hleaves⟩ | hnever := (binds_boundLaw id count).turn turn hfinds
    · exact .inl ⟨htells, hleaves⟩
    · exact hnever.elim
  notify := (binds_boundLaw id count).notify
  abort := (binds_boundLaw id count).abort
  reset := (binds_boundLaw id count).reset

variable {system : System tree}

/-- The context of the root is the only one. -/
theorem Obeys.contexts_eq (hobeys : system.Obeys (boundLaw tree 0 1)) :
    system.world.contexts = [system.rootContext] := by
  obtain ⟨context, hcontext⟩ := List.length_eq_one_iff.mp hobeys.holds.2
  rw [rootContext, hobeys.holds.1.binding_eq, World.context, hcontext]
  rfl

/-- The context stays as it is when nothing writes to the world. -/
theorem Obeys.rootContext_eq {later : System tree} (hobeys : system.Obeys (boundLaw tree 0 1))
    (hlater : later.Obeys (boundLaw tree 0 1))
    (hworld : later.world.contexts = system.world.contexts) :
    later.rootContext = system.rootContext := by
  rw [hobeys.contexts_eq, hlater.contexts_eq] at hworld
  exact List.singleton_inj.mp hworld

/-- The journal of an operation tells what becomes of the context. -/
theorem Obeys.follows (hbuiltIn : tree.IsBuiltIn) (hobeys : system.Obeys (boundLaw tree 0 1))
    (operation : Operation) :
    tree.Follows system.rootContext (system.response operation).journal
      (system.next operation).rootContext := by
  have huntil := hobeys.next (binds_boundLaw_tells hbuiltIn 0 1) operation
  have hlater := huntil.of_never
  have hfollows : tree.Follows system.rootContext (journalOf (system.turnsOf operation))
      (system.next operation).rootContext := by
    have htells := (handsOn_turnsOf system operation).tells (huntil.quiet_of_never)
    rw [hobeys.contexts_eq, hlater.contexts_eq] at htells
    obtain ⟨later, hfound, hfollows⟩ := htells system.rootContext rfl
    have hsame : (system.next operation).rootContext = later := Option.some.inj hfound
    rw [hsame]
    exact hfollows
  cases operation with
  | execute =>
    rw [response, journal_execute]
    exact hfollows
  | abort =>
    rw [hobeys.rootContext_eq hlater rfl]
    exact .quiet (Tree.setBy?_of_milestones tree (milestones_abort _ tree system.memory)) _
  | reset =>
    rw [hobeys.rootContext_eq hlater rfl]
    exact .quiet (Tree.setBy?_of_milestones tree (milestones_reset _ tree system.memory)) _
  | pass duration =>
    rw [response, journal_pass]
    exact hfollows

end System

namespace Session

variable {session : Session tree}

/-- The system of a session changes with an operation as it would without the session. -/
theorem system_next (session : Session tree) (operation : Operation) :
    (session.next operation).system = session.system.next operation := by
  cases operation with
  | execute => exact session.tick_eq.2.1
  | abort => rfl
  | reset => rfl
  | pass duration => rfl

/-- The system of a session changes with several operations as it would without the session. -/
theorem system_nextAll (session : Session tree) (operations : List Operation) :
    (session.nextAll operations).system = session.system.nextAll operations := by
  induction operations generalizing session with
  | nil => rfl
  | cons operation operations ih =>
    refine (ih (session.next operation)).trans ?_
    rw [system_next]
    rfl

/-- What a session adds to the journal tells of no setter. -/
theorem follows_response {operation : Operation} {before after : Context}
    (hfollows : tree.Follows before (session.system.response operation).journal after) :
    tree.Follows before (session.response operation).journal after := by
  cases operation with
  | execute =>
    obtain ⟨report, hjournal, hreport⟩ : ∃ report,
        session.tick.2.2 = session.system.execute.2.2 ++ report ∧
          ∀ entry ∈ report, tree.setBy? entry = none := by
      rw [tick]
      generalize session.system.execute = ended
      obtain ⟨result, system, journal⟩ := ended
      cases result with
      | error fault => exact ⟨[], (List.append_nil _).symm, List.forall_mem_nil _⟩
      | ok status =>
        refine ⟨session.changeReport status system.world.now, rfl, ?_⟩
        rw [changeReport]
        split
        · exact List.forall_mem_nil _
        · intro entry hmem
          rw [List.mem_singleton] at hmem
          subst hmem
          rfl
    rw [response, hjournal]
    exact hfollows.append (.quiet hreport after)
  | abort => exact .still rfl hfollows
  | reset => exact hfollows
  | pass duration => exact hfollows

/-- Only setters that succeed write to the blackboard of a tree of built-in nodes, whatever is done
with it and however long its executions go on. The journal of every operation tells what becomes of
the blackboard. No key goes away, and what is under a key afterwards is what was there before, or
what the last setter with that key has stored. Abort, reset and binding leave every context as it
is. -/
theorem only_setters_write (hbuiltIn : tree.IsBuiltIn) {start : Session tree} {context : Context}
    (hstart : start = (Session.begin tree context).1 ∨ start = { system := .bound tree context })
    (operations : List Operation) (operation : Operation) :
    let session := start.nextAll operations
    let journal := (session.response operation).journal
    let before := session.system.rootContext
    let after := (session.response operation).context
    tree.Follows before journal after ∧
      (∀ key, (before.get? key).isSome → (after.get? key).isSome) ∧
      (∀ key, after.get? key = before.get? key ∨
        ∃ first entry rest settings value middle later, journal = first ++ entry :: rest ∧
          tree.setBy? entry = some settings ∧ settings.key = key ∧
          tree.Follows before first middle ∧ settings.Stores value middle later ∧
          tree.Follows later rest after ∧ after.get? key = some value) ∧
      (operation = .abort ∨ operation = .reset → after = before) ∧
      ∀ id, (session.system.bind id).1.world.contexts = session.system.world.contexts := by
  intro session journal before after
  have hobeys : start.system.Obeys (boundLaw tree 0 1) := by
    obtain rfl | rfl := hstart
    · exact (Reached.begun context).obeys hbuiltIn
    · exact (Reached.loaded context).obeys hbuiltIn
  have hsession : session.system.Obeys (boundLaw tree 0 1) := by
    rw [system_nextAll]
    exact (hobeys.nextAll (binds_boundLaw 0 1) operations).of_never
  have hafter : after = (session.system.next operation).rootContext := by
    rw [← system_next]
    cases operation <;> rfl
  have hfollows : tree.Follows before journal after := by
    rw [hafter]
    exact follows_response (hsession.follows hbuiltIn operation)
  refine ⟨hfollows, hfollows.isSome_get?, hfollows.changed, fun hcontrol => ?_, fun id => rfl⟩
  rw [hafter]
  have hlater := (hsession.next (binds_boundLaw 0 1) operation).of_never
  obtain rfl | rfl := hcontrol
  · exact hsession.rootContext_eq hlater rfl
  · exact hsession.rootContext_eq hlater rfl

/-- A setter under a time limit that is over at once. -/
def detachedSetter : Tree Empty :=
  ⟨"", .timeout 0, [⟨"", .setValue ⟨"key", "1", "Int"⟩, []⟩]⟩

/-- The tick fails and writes nothing. The setter goes on afterwards, and its success is what writes
the number. -/
theorem only_setters_write_detached :
    let session := (Session.begin detachedSetter {}).1.nextAll [.execute]
    let response := session.response (.pass 0)
    detachedSetter.IsBuiltIn ∧ session.system.rootContext.get? "key" = none ∧
      detachedSetter.Follows session.system.rootContext response.journal response.context ∧
      response.journal =
        [eventAt 0 (.entered ""), eventAt 0 (.exited "" .success none)].map (·.under 0) ∧
      response.context.get? "key" = some (.integer .int32 1) := by
  have hbuiltIn : detachedSetter.IsBuiltIn := ⟨rfl, ⟨rfl, trivial⟩, trivial⟩
  refine ⟨hbuiltIn, by rfl, ?_, by rfl, by rfl⟩
  exact (@only_setters_write _ _ _ hbuiltIn _ {} (.inl rfl) [.execute] (.pass 0)).1

end Session

end BehaviorTree
