import BehaviorTree.Proofs.Tree.Exchanges

/-!
# Ticks of a tree

In a tick the root has turns until it answers. In between it may be called and what is below it may
change. Before the next tick it may also be aborted and reset. A tick of a node that has its
children run one at a time is a talk from the beginning of an execution to its end
(`Stage.Answers.talks`).
-/

namespace BehaviorTree

open Journal

variable {κ : Type} [Application κ] {tree : Tree κ}

namespace Act

/-- Whether the root has a turn. -/
def isTurn : Act tree → Bool
  | turn _ => true
  | abort _ | reset _ | notify _ | around .. => false

/-- Whether the root neither has a turn nor is put back. -/
def isQuiet : Act tree → Bool
  | notify _ | around .. => true
  | turn _ | abort _ | reset _ => false

/-- A quiet act notifies the execution of a call, or others change what is around the root. -/
theorem exists_of_isQuiet {act : Act tree} (hquiet : act.isQuiet) :
    (∃ call, act = notify call) ∨ ∃ binding below, act = around binding below := by
  cases act with
  | notify call => exact .inl ⟨call, rfl⟩
  | around binding below => exact .inr ⟨binding, below, rfl⟩
  | turn world => cases hquiet
  | abort now => cases hquiet
  | reset now => cases hquiet

/-- In a quiet act the root has no turn. -/
theorem isTurn_of_isQuiet {act : Act tree} (hquiet : act.isQuiet) : act.isTurn = false := by
  obtain ⟨call, rfl⟩ | ⟨binding, below, rfl⟩ := exists_of_isQuiet hquiet <;> rfl

end Act

namespace Stage

/-- The root has turns, with quiet acts in between, until it answers. -/
inductive Answers : Stage tree → List (Act tree) → Status → Prop where
  | last {stage : Stage tree} (world : World) {status : Status}
      (hresult : (stage.turn world).result = .answered status) :
    Answers stage [.turn world] status
  | wait {stage : Stage tree} (world : World) {run : Run}
      (hresult : (stage.turn world).result = .waiting run) {acts : List (Act tree)}
      {status : Status} (hrest : Answers (stage.act (.turn world)) acts status) :
    Answers stage (.turn world :: acts) status
  | meanwhile {stage : Stage tree} {act : Act tree} (hquiet : act.isQuiet) {acts : List (Act tree)}
      {status : Status} (hrest : Answers (stage.act act) acts status) :
    Answers stage (act :: acts) status

/-- The root has turns, with quiet acts in between, and has not answered yet. -/
inductive Pends : Stage tree → List (Act tree) → Prop where
  | now {stage : Stage tree} (hunderWay : stage.run.isSome) : Pends stage []
  | wait {stage : Stage tree} (world : World) {run : Run}
      (hresult : (stage.turn world).result = .waiting run) {acts : List (Act tree)}
      (hrest : Pends (stage.act (.turn world)) acts) : Pends stage (.turn world :: acts)
  | meanwhile {stage : Stage tree} {act : Act tree} (hquiet : act.isQuiet) {acts : List (Act tree)}
      (hrest : Pends (stage.act act) acts) : Pends stage (act :: acts)

/-- The turns come one after the other, from a time up to that of the last one. Where the clock is
held, no time passes up to the next turn: it is held after a root that has given way on its own
account. -/
inductive KeepsTime : Stage tree → Nat → Bool → List (Act tree) → Nat → Prop where
  | last {stage : Stage tree} {now : Nat} {held : Bool} {world : World} (hle : now ≤ world.now)
      (hheld : held = true → world.now = now) :
    KeepsTime stage now held [.turn world] world.now
  | turn {stage : Stage tree} {now last : Nat} {held : Bool} {world : World}
      (hle : now ≤ world.now) (hheld : held = true → world.now = now) {acts : List (Act tree)}
      (hrest : KeepsTime (stage.act (.turn world)) world.now (stage.turn world).again acts last) :
    KeepsTime stage now held (.turn world :: acts) last
  | other {stage : Stage tree} {now last : Nat} {held : Bool} {act : Act tree}
      (hturn : act.isTurn = false) {acts : List (Act tree)}
      (hrest : KeepsTime (stage.act act) now held acts last) :
    KeepsTime stage now held (act :: acts) last

/-- What the root asks for in an act. -/
def asks (stage : Stage tree) : Act tree → List Request
  | .turn world => requests stage.run stage.memory world
  | .abort _ | .reset _ | .notify _ | .around .. => []

/-- What the root asks for in several acts. -/
def allAsks (stage : Stage tree) : List (Act tree) → List Request
  | [] => []
  | act :: acts => stage.asks act ++ (stage.act act).allAsks acts

/-- What the root does itself in several acts. -/
def journal (stage : Stage tree) : List (Act tree) → Journal
  | [] => []
  | act :: acts => stage.own act ++ (stage.act act).journal acts

end Stage

/-! ## Histories -/

/-- What can be seen of a tick: the answer, what the root asked for, and what happened. -/
structure Tick where
  /-- The answer. -/
  status : Status
  /-- What the root asked for, in order. -/
  requests : List Request
  /-- What happened. -/
  journal : Journal

/-- An execution of a child that has ended. -/
structure Execution where
  /-- The index of the child. -/
  child : Nat
  /-- The status with which it ended. -/
  status : Status
  deriving DecidableEq

/-- What happens to a child in an execution of it. -/
def Execution.deeds (execution : Execution) : List Deed :=
  [.begun execution.child, .ended execution.child execution.status]

/-- The execution of a child that a deed ends. -/
def Deed.execution? : Deed → Option Execution
  | .ended child status => some ⟨child, status⟩
  | .begun _ | .reset _ => none

/-- The execution of a child that an exchange is about. -/
def Exchange.execution? : Exchange → Option Execution
  | ⟨.run _ child, .answered _ status⟩ => some ⟨child, status⟩
  | _ => none

/-- What an exchange does to the children ends the execution that it is about, and no other. -/
theorem Exchange.filterMap_deeds (exchange : Exchange) :
    exchange.deeds.filterMap Deed.execution? = exchange.execution?.toList := by
  obtain ⟨request, answer⟩ := exchange
  cases request with
  | run mark child => cases answer <;> rfl
  | _ => rfl

/-- The duration of a sleep. -/
def Request.sleep? : Request → Option Nat
  | .sleep _ duration => some duration
  | _ => none

namespace Tick

/-- What happened to the children. -/
def deeds (tick : Tick) : List Deed := tick.journal.deeds

/-- The executions of children, in the order in which they ended. -/
def executions (tick : Tick) : List Execution := tick.deeds.filterMap Deed.execution?

/-- The executions are told by what happened, if they came one after the other. -/
theorem executions_eq {tick : Tick} {executions : List Execution}
    (hdeeds : tick.deeds = executions.flatMap Execution.deeds) : tick.executions = executions := by
  rw [Tick.executions, hdeeds]
  clear hdeeds
  induction executions with
  | nil => rfl
  | cons execution executions ih =>
    rw [List.flatMap_cons, List.filterMap_append, ih]
    rfl

/-- The executions are those of the talk. -/
theorem executions_of_talk {tick : Tick} {exchanges : List Exchange}
    (hdeeds : tick.deeds = exchanges.flatMap Exchange.deeds) :
    tick.executions = exchanges.filterMap Exchange.execution? := by
  rw [Tick.executions, hdeeds]
  clear hdeeds
  induction exchanges with
  | nil => rfl
  | cons exchange exchanges ih =>
    rw [List.flatMap_cons, List.filterMap_append, ih, exchange.filterMap_deeds, List.filterMap_cons]
    cases exchange.execution? <;> rfl

/-- The durations of the sleeps of the root. -/
def sleeps (tick : Tick) : List Nat := tick.requests.filterMap Request.sleep?

end Tick

/-- A part of the history of a tree. -/
inductive Episode (tree : Tree κ) where
  /-- A tick in which the root answers. -/
  | tick (acts : List (Act tree)) (status : Status)
  /-- Something that happens between two ticks. -/
  | between (act : Act tree)

namespace Stage

/-- What can be seen of a tick. -/
def tick (stage : Stage tree) (acts : List (Act tree)) (status : Status) : Tick :=
  ⟨status, stage.allAsks acts, stage.journal acts⟩

/-- The tree after an episode. -/
def next (stage : Stage tree) : Episode tree → Stage tree
  | .tick acts _ => stage.after acts
  | .between act => stage.act act

/-- The tree after several episodes. -/
def afterAll (stage : Stage tree) (episodes : List (Episode tree)) : Stage tree :=
  episodes.foldl next stage

/-- The episodes can be a history: ticks end with the answers given, and no turn is between them. -/
inductive Lives : Stage tree → List (Episode tree) → Prop where
  | nil (stage : Stage tree) : Lives stage []
  | tick {stage : Stage tree} {acts : List (Act tree)} {status : Status}
      {episodes : List (Episode tree)} (hanswers : stage.Answers acts status)
      (hrest : Lives (stage.after acts) episodes) : Lives stage (.tick acts status :: episodes)
  | between {stage : Stage tree} {act : Act tree} {episodes : List (Episode tree)}
      (hturn : act.isTurn = false) (hrest : Lives (stage.act act) episodes) :
    Lives stage (.between act :: episodes)

/-- A history begins with a tick if that ends with its answer and the rest is a history
afterwards. -/
theorem lives_tick_iff {stage : Stage tree} {acts : List (Act tree)} {status : Status}
    {episodes : List (Episode tree)} :
    stage.Lives (.tick acts status :: episodes) ↔
      stage.Answers acts status ∧ (stage.after acts).Lives episodes := by
  constructor
  · intro hlives
    cases hlives with
    | tick hanswers hrest => exact ⟨hanswers, hrest⟩
  · rintro ⟨hanswers, hrest⟩
    exact .tick hanswers hrest

/-- A history begins between two ticks if the act is no turn and the rest is a history
afterwards. -/
theorem lives_between_iff {stage : Stage tree} {act : Act tree} {episodes : List (Episode tree)} :
    stage.Lives (.between act :: episodes) ↔
      act.isTurn = false ∧ (stage.act act).Lives episodes := by
  constructor
  · intro hlives
    cases hlives with
    | between hturn hrest => exact ⟨hturn, hrest⟩
  · rintro ⟨hturn, hrest⟩
    exact .between hturn hrest

/-- The ticks in a history, one after the other. -/
def ticks (stage : Stage tree) : List (Episode tree) → List Tick
  | [] => []
  | .tick acts status :: episodes =>
    stage.tick acts status :: (stage.after acts).ticks episodes
  | .between act :: episodes => (stage.act act).ticks episodes

variable {stage : Stage tree}

/-- Without a turn no execution begins. -/
theorem run_act_eq_none (hidle : stage.run = none) {act : Act tree} (hturn : act.isTurn = false) :
    (stage.act act).run = none := by
  cases act with
  | turn world => cases hturn
  | abort now => exact hidle
  | reset now => exact hidle
  | notify call => exact congrArg (Option.map (·.notify call)) hidle
  | around binding below => exact hidle

/-- A turn is the last one of a tick, or the root waits after it. -/
theorem answers_turn_iff {world : World} {acts : List (Act tree)} {status : Status} :
    stage.Answers (.turn world :: acts) status ↔
      acts = [] ∧ (stage.turn world).result = .answered status ∨
        ∃ run, (stage.turn world).result = .waiting run ∧
          (stage.act (.turn world)).Answers acts status := by
  constructor
  · intro hanswers
    cases hanswers with
    | last world hresult => exact .inl ⟨rfl, hresult⟩
    | wait world hresult hrest => exact .inr ⟨_, hresult, hrest⟩
    | meanwhile hquiet => cases hquiet
  · rintro (⟨rfl, hresult⟩ | ⟨run, hresult, hrest⟩)
    · exact .last world hresult
    · exact .wait world hresult hrest

/-- Only quiet acts come between the turns of a tick. -/
theorem answers_cons_iff {act : Act tree} (hturn : act.isTurn = false) {acts : List (Act tree)}
    {status : Status} :
    stage.Answers (act :: acts) status ↔ act.isQuiet ∧ (stage.act act).Answers acts status := by
  constructor
  · intro hanswers
    cases hanswers with
    | last world hresult => cases hturn
    | wait world hresult hrest => cases hturn
    | meanwhile hquiet hrest => exact ⟨hquiet, hrest⟩
  · rintro ⟨hquiet, hrest⟩
    exact .meanwhile hquiet hrest

/-- Nothing is under way after an answer. -/
theorem Answers.run_eq_none {acts : List (Act tree)} {status : Status}
    (hanswers : stage.Answers acts status) : (stage.after acts).run = none := by
  induction hanswers with
  | last world hresult => exact congrArg Outcome.run? hresult
  | wait _ _ _ ih => exact ih
  | meanwhile _ _ ih => exact ih

/-- What the root does in several acts can be told in two parts. -/
theorem journal_append (first rest : List (Act tree)) :
    stage.journal (first ++ rest) = stage.journal first ++ (stage.after first).journal rest := by
  induction first generalizing stage with
  | nil => rfl
  | cons act first ih =>
    rw [List.cons_append, journal, journal, ih, List.append_assoc]
    rfl

namespace KeepsTime

variable {acts : List (Act tree)} {now last : Nat} {held : Bool}

/-- The last turn comes no earlier than the time from which on they come. -/
theorem le (hkeeps : stage.KeepsTime now held acts last) : now ≤ last := by
  induction hkeeps with
  | last hle _ => exact hle
  | turn hle _ _ ih => exact Nat.le_trans hle ih
  | other _ _ ih => exact ih

/-- The same turns, seen from an earlier time up to which the clock was not held. -/
theorem since (hkeeps : stage.KeepsTime now held acts last) {earlier : Nat} {before : Bool}
    (hle : earlier ≤ now) (hheld : before = true → held = true ∧ now = earlier) :
    stage.KeepsTime earlier before acts last := by
  induction hkeeps with
  | last hfirst hnow =>
    refine .last (Nat.le_trans hle hfirst) fun hbefore => ?_
    exact (hnow (hheld hbefore).1).trans (hheld hbefore).2
  | turn hfirst hnow hrest _ =>
    refine .turn (Nat.le_trans hle hfirst) (fun hbefore => ?_) hrest
    exact (hnow (hheld hbefore).1).trans (hheld hbefore).2
  | other hturn _ ih => exact .other hturn (ih hle hheld)

/-- The last turn is at the last time. -/
theorem last_eq {before : List (Act tree)} {world : World}
    (hkeeps : stage.KeepsTime now held (before ++ [.turn world]) last) : last = world.now := by
  generalize hacts : before ++ [.turn world] = acts at hkeeps
  induction hkeeps generalizing before with
  | last =>
    obtain rfl : before = [] := by
      cases before with
      | nil => rfl
      | cons act before => cases before <;> cases hacts
    cases hacts
    rfl
  | turn _ _ hrest ih =>
    cases before with
    | nil =>
      cases hacts
      cases hrest
    | cons act before => exact ih (List.cons.inj hacts).2
  | other hturn _ ih =>
    cases before with
    | nil =>
      cases hacts
      cases hturn
    | cons act before => exact ih (List.cons.inj hacts).2

end KeepsTime

/-- As long as the root has no turn, no time passes for it. -/
theorem keepsTime_append {first acts : List (Act tree)} (hother : ∀ act ∈ first, act.isTurn = false)
    {now last : Nat} {held : Bool} :
    stage.KeepsTime now held (first ++ acts) last ↔
      (stage.after first).KeepsTime now held acts last := by
  induction first generalizing stage with
  | nil => exact Iff.rfl
  | cons act first ih =>
    obtain ⟨hact, hrest⟩ := List.forall_mem_cons.mp hother
    refine Iff.trans ⟨fun hkeeps => ?_, fun hkeeps => .other hact hkeeps⟩ (ih hrest)
    generalize hacts : act :: first ++ acts = all at hkeeps
    cases hkeeps with
    | last =>
      obtain ⟨rfl, -⟩ := List.cons.inj hacts
      cases hact
    | turn =>
      obtain ⟨rfl, -⟩ := List.cons.inj hacts
      cases hact
    | other _ hkeeps =>
      obtain ⟨rfl, rfl⟩ := List.cons.inj hacts
      exact hkeeps

/-- Without a turn the root asks for nothing. -/
theorem asks_eq_nil {act : Act tree} (hturn : act.isTurn = false) : stage.asks act = [] := by
  cases act with
  | turn world => cases hturn
  | _ => rfl

/-- Without a turn the root does nothing. -/
theorem own_eq_nil {act : Act tree} (hturn : act.isTurn = false) : stage.own act = [] := by
  cases act with
  | turn world => cases hturn
  | _ => rfl

/-- A suspended execution still waits for its request after a quiet act. -/
theorem exists_waitsFor_act {act : Act tree} (hquiet : act.isQuiet) {run : Run}
    (hrun : stage.run = some run) {request : Request} (hwaits : run.WaitsFor request) :
    ∃ run, (stage.act act).run = some run ∧ run.WaitsFor request := by
  obtain ⟨call, rfl⟩ | ⟨binding, below, rfl⟩ := Act.exists_of_isQuiet hquiet
  · refine ⟨run.notify call, ?_, hwaits.notify call⟩
    rw [act, hrun, Option.map_some]
  · exact ⟨run, hrun, hwaits⟩

/-- A quiet act leaves the state of the root as it is. -/
theorem state_act_of_isQuiet {act : Act tree} (hquiet : act.isQuiet) :
    (stage.act act).memory.state = stage.memory.state := by
  obtain ⟨⟨cell, below⟩, run⟩ := stage
  obtain ⟨call, rfl⟩ | ⟨binding, below, rfl⟩ := Act.exists_of_isQuiet hquiet <;> rfl

/-- An abort leaves the state of the root aborted. -/
theorem state_act_abort (stage : Stage tree) (now : Nat) :
    (stage.act (.abort now)).memory.state = tree.kind.aborted stage.memory.state := by
  obtain ⟨⟨cell, below⟩, run⟩ := stage
  rfl

/-- A reset puts the state of the root back. -/
theorem state_act_reset (stage : Stage tree) (now : Nat) :
    (stage.act (.reset now)).memory.state = tree.kind.restored stage.memory.state := by
  obtain ⟨⟨cell, below⟩, run⟩ := stage
  rfl

/-! ## Ticks are talks -/

section Node

variable {name : String} {kind : Kind κ} {children : List (Tree κ)}
  {stage : Stage (⟨name, kind, children⟩ : Tree κ)} {acts : List (Act ⟨name, kind, children⟩)}
  {status : Status}

/-- The first turn of a tick tells of a talk from the beginning of an execution on. -/
theorem tells_turn (hplain : Machine.IsPlain kind.respond children.length)
    (hidle : stage.run = none) (world : World)
    (hsound : ∀ fault, (stage.turn world).result ≠ .failed fault) :
    ∃ exchanges request,
      Machine.Tells kind.respond children.length stage.memory.state .started exchanges
        (stage.turn world).memory.state request (stage.turn world).result
        (stage.asks (.turn world)) (deeds (stage.own (.turn world))) := by
  obtain ⟨⟨cell, below⟩, run⟩ := stage
  cases hidle
  exact tells_begin hplain cell below world hsound

/-- A later turn of a tick goes on waiting, or tells of a talk from the answer to the request on. -/
theorem tells_turn_held (hplain : Machine.IsPlain kind.respond children.length) {run : Run}
    (hrun : stage.run = some run) {request : Request} (hwaits : run.WaitsFor request)
    (hrequest : request.IsPlain children.length) (world : World)
    (hsound : ∀ fault, (stage.turn world).result ≠ .failed fault) :
    (∃ held, (stage.turn world).result = .waiting held ∧ held.WaitsFor request ∧
        (stage.turn world).memory.state = stage.memory.state ∧ stage.asks (.turn world) = [] ∧
        deeds (stage.own (.turn world)) = []) ∨
      ∃ answer exchanges later rest, request.AnsweredBy answer ∧
        Machine.Tells kind.respond children.length stage.memory.state answer exchanges
          (stage.turn world).memory.state later (stage.turn world).result
          (stage.asks (.turn world)) rest ∧
        deeds (stage.own (.turn world)) = Exchange.closing ⟨request, answer⟩ ++ rest := by
  obtain ⟨⟨cell, below⟩, _⟩ := stage
  cases hrun
  exact tells_resume hplain hrequest hwaits cell below world hsound

/-- The rest of a tick in which the root waits for a request to be answered. -/
theorem Answers.talks_held (hanswers : stage.Answers acts status)
    (hplain : Machine.IsPlain kind.respond children.length) {run : Run}
    (hrun : stage.run = some run) {request : Request} (hwaits : run.WaitsFor request)
    (hrequest : request.IsPlain children.length) :
    ∃ answer exchanges, request.AnsweredBy answer ∧
      Machine.Talks kind.respond children.length stage.memory.state answer exchanges
        (stage.after acts).memory.state (.finish status) ∧
      stage.allAsks acts = exchanges.map (·.request) ++ [.finish status] ∧
      deeds (stage.journal acts) =
        Exchange.closing ⟨request, answer⟩ ++ exchanges.flatMap Exchange.deeds := by
  induction hanswers generalizing run request with
  | @last stage world status hresult =>
    have hturn := tells_turn_held hplain hrun hwaits hrequest world (by simp [hresult])
    rw [allAsks, allAsks, journal, journal, List.append_nil, List.append_nil]
    rw [hresult] at hturn
    obtain ⟨held, hwaiting, -⟩ | ⟨answer, exchanges, later, rest, hanswer, htells, hdeeds⟩ := hturn
    · cases hwaiting
    · obtain rfl : later = .finish status := htells.leaves
      refine ⟨answer, exchanges, hanswer, htells.talks, htells.requests_eq, ?_⟩
      rw [hdeeds, htells.deeds_eq, Request.deeds, List.append_nil]
      all_goals exact nofun
  | @wait stage world run' hresult acts status hrest ih =>
    have hturn := tells_turn_held hplain hrun hwaits hrequest world (by simp [hresult])
    have hrun' : (stage.act (.turn world)).run = some run' := congrArg Outcome.run? hresult
    rw [allAsks, journal, deeds_append]
    rw [hresult] at hturn
    obtain ⟨held, hwaiting, hholds, hstate, hasks, hdeeds⟩ |
      ⟨answer, exchanges, later, rest, hanswer, htells, hdeeds⟩ := hturn
    · cases hwaiting
      obtain ⟨answer, exchanges, hanswer, htalks, hmore, hrestDeeds⟩ := ih hrun' hholds hrequest
      refine ⟨answer, exchanges, hanswer, hstate ▸ htalks, ?_, ?_⟩
      · rw [hasks, hmore, List.nil_append]
      · rw [hdeeds, hrestDeeds, List.nil_append]
    · obtain ⟨answer', exchanges', hanswer', htalks', hmore, hrestDeeds⟩ :=
        ih hrun' htells.leaves (htells.talks.isPlain hplain)
      refine ⟨answer, _, hanswer, htells.talks.trans hanswer' htalks', ?_, ?_⟩
      · rw [htells.requests_eq, hmore]
        simp
      · rw [hdeeds, hrestDeeds, htells.deeds_eq]
        simp [Exchange.deeds]
  | @meanwhile stage act hquiet acts status hrest ih =>
    have hstate : (stage.act act).memory.state = stage.memory.state := state_act_of_isQuiet hquiet
    have hturn := Act.isTurn_of_isQuiet hquiet
    obtain ⟨run', hrun', hwaits'⟩ := exists_waitsFor_act hquiet hrun hwaits
    rw [allAsks, journal, asks_eq_nil hturn, own_eq_nil hturn, List.nil_append, List.nil_append,
      ← hstate]
    exact ih hrun' hwaits' hrequest

/-- A tick is a talk from the beginning of an execution to its end. The root asked for what is in
the talk, and nothing else happened to the children. -/
theorem Answers.talks (hanswers : stage.Answers acts status)
    (hplain : Machine.IsPlain kind.respond children.length) (hidle : stage.run = none) :
    ∃ exchanges,
      Machine.Talks kind.respond children.length stage.memory.state .started exchanges
        (stage.after acts).memory.state (.finish status) ∧
      (stage.tick acts status).requests = exchanges.map (·.request) ++ [.finish status] ∧
      (stage.tick acts status).deeds = exchanges.flatMap Exchange.deeds := by
  rw [Tick.deeds, tick]
  dsimp only
  induction hanswers with
  | @last stage world status hresult =>
    have hturn := tells_turn hplain hidle world (by simp [hresult])
    rw [hresult] at hturn
    obtain ⟨exchanges, request, htells⟩ := hturn
    obtain rfl : request = .finish status := htells.leaves
    rw [allAsks, allAsks, journal, journal, List.append_nil, List.append_nil]
    refine ⟨exchanges, htells.talks, htells.requests_eq, ?_⟩
    rw [htells.deeds_eq, Request.deeds, List.append_nil]
    exact nofun
  | @wait stage world run hresult acts status hrest ih =>
    have hturn := tells_turn hplain hidle world (by simp [hresult])
    have hrun : (stage.act (.turn world)).run = some run := congrArg Outcome.run? hresult
    rw [hresult] at hturn
    obtain ⟨exchanges, request, htells⟩ := hturn
    obtain ⟨answer, more, hanswer, htalks, hmore, hdeeds⟩ :=
      hrest.talks_held hplain hrun htells.leaves (htells.talks.isPlain hplain)
    rw [allAsks, journal, deeds_append]
    refine ⟨_, htells.talks.trans hanswer htalks, ?_, ?_⟩
    · rw [htells.requests_eq, hmore]
      simp
    · rw [hdeeds, htells.deeds_eq]
      simp [Exchange.deeds]
  | @meanwhile stage act hquiet acts status hrest ih =>
    have hturn := Act.isTurn_of_isQuiet hquiet
    rw [allAsks, journal, asks_eq_nil hturn, own_eq_nil hturn, List.nil_append, List.nil_append,
      ← state_act_of_isQuiet hquiet]
    exact ih (run_act_eq_none hidle hturn)

end Node

end Stage

end BehaviorTree
