import BehaviorTree.Proofs.Tree.Independence
import BehaviorTree.Proofs.Tree.ChildHistory
import BehaviorTree.Proofs.Tree.Tick

/-!
# What a parallel node waits for

A parallel node executes all its children side by side and waits for the slowest of them. A turn of
it gets every child so far as its slot tells (`Gather.proceeds_turn`), so over a whole tick each
child is executed exactly once, and the node answers in the turn in which the last of them ends
(`Gather.Stands.exists_gathers`). The children begin when the tick does, and the tick lasts until
the slowest of them has ended (`Gather.Gathers.lasts`). What the node answers depends on how many of
the children have succeeded and failed, and on nothing else (`Gather.decides_verdict`).
-/

namespace BehaviorTree.Gather

open Journal

variable {κ : Type} [Application κ]

/-! ## What the thresholds decide -/

/-- What a node with such thresholds makes of the statuses of its children. -/
structure Decides (settings : ParallelSettings) (statuses : List Status) (status : Status) :
    Prop where
  /-- The node succeeds when enough children have succeeded. -/
  success_iff : status = .success ↔ settings.successThreshold ≤ statuses.count .success
  /-- It fails when enough children have failed and not enough have succeeded. -/
  failure_iff : status = .failure ↔ statuses.count .success < settings.successThreshold ∧
    settings.failureThreshold ≤ statuses.count .failure
  /-- It goes on running when neither is the case. -/
  running_iff : status = .running ↔ statuses.count .success < settings.successThreshold ∧
    statuses.count .failure < settings.failureThreshold
  /-- It does not matter which child has which status. -/
  perm : ∀ others : List Status, others.Perm statuses → verdict settings others = status
  /-- If all children have succeeded or failed and the thresholds leave no room, so has the node. -/
  terminal : (∀ answer ∈ statuses, answer.isTerminal) →
    settings.successThreshold + settings.failureThreshold ≤ statuses.length + 1 → status.isTerminal

/-- Statuses that are success or failure are counted by both counts. -/
theorem count_add_count {statuses : List Status}
    (hterminal : ∀ answer ∈ statuses, answer.isTerminal) :
    statuses.count .success + statuses.count .failure = statuses.length := by
  induction statuses with
  | nil => rfl
  | cons answer statuses ih =>
    obtain ⟨hanswer, hrest⟩ := List.forall_mem_cons.mp hterminal
    have hlength := ih hrest
    cases answer with
    | running => cases hanswer
    | success => simp [← hlength, Nat.add_right_comm]
    | failure => simp [← hlength, Nat.add_assoc]

/-- The verdict is what the thresholds decide. -/
theorem decides_verdict (settings : ParallelSettings) (statuses : List Status) :
    Decides settings statuses (verdict settings statuses) := by
  have hperm : ∀ others : List Status, others.Perm statuses →
      verdict settings others = verdict settings statuses :=
    fun others hothers => verdict_perm settings hothers
  have hterminal := @count_add_count statuses
  generalize hverdict : verdict settings statuses = status at hperm ⊢
  rw [verdict] at hverdict
  split at hverdict
  · subst hverdict
    exact ⟨iff_of_true rfl ‹_›, iff_of_false (by decide) (by omega),
      iff_of_false (by decide) (by omega), hperm, fun _ _ => rfl⟩
  · split at hverdict
    · subst hverdict
      exact ⟨iff_of_false (by decide) ‹_›, iff_of_true rfl (by omega),
        iff_of_false (by decide) (by omega), hperm, fun _ _ => rfl⟩
    · subst hverdict
      refine ⟨iff_of_false (by decide) ‹_›, iff_of_false (by decide) (by omega),
        iff_of_true rfl (by omega), hperm, fun hall hroom => ?_⟩
      have hlength := hterminal hall
      omega

/-! ## Turns -/

/-- A parallel node. -/
abbrev nodeOf (settings : ParallelSettings) (name : String) (children : List (Tree κ)) : Tree κ :=
  ⟨name, .parallel settings, children⟩

/-- How so many children stand between two turns of their node. -/
inductive Stands (size : Nat) : Option Run → List (Slot Run) → Prop where
  | idle : Stands size none (List.replicate size .fresh)
  | underWay {run : Run} {slots : List (Slot Run)} (hgathers : run.Gathers slots)
      (hlength : slots.length = size) (hopen : Slot.allAnswered? slots = none) :
    Stands size (some run) slots

/-- How a turn at a time ends, and what its journal tells of the children. -/
inductive Proceeds (settings : ParallelSettings) (size now : Nat) (slots : List (Slot Run))
    (journal : Journal) (again : Bool) : Outcome → Prop where
  | answered {statuses : List Status}
      (htells : Tells now 0 slots (statuses.map .answered) journal) :
    Proceeds settings size now slots journal again (.answered (verdict settings statuses))
  | waiting {run : Run} {later : List (Slot Run)} (hstands : Stands size (some run) later)
      (htells : Tells now 0 slots later journal) (hbegun : .fresh ∈ later → again = true) :
    Proceeds settings size now slots journal again (.waiting run)
  | failed (fault : Fault) : Proceeds settings size now slots journal again (.failed fault)

/-- There is a slot for each child. -/
theorem Stands.length_eq {size : Nat} {run : Option Run} {slots : List (Slot Run)}
    (hstands : Stands size run slots) : slots.length = size := by
  cases hstands with
  | idle => exact List.length_replicate
  | underWay _ hlength _ => exact hlength

/-- If not all children have answered, then there is one that has not. -/
theorem exists_open_slot {slots : List (Slot Run)} (hopen : Slot.allAnswered? slots = none) :
    ∃ (child : Nat) (slot : Slot Run), slots[child]? = some slot ∧ slot.isAnswered = false := by
  by_contra hnone
  obtain ⟨statuses, hall⟩ := Slot.exists_allAnswered? fun slot hmem => by
    obtain ⟨child, hchild⟩ := List.getElem?_of_mem hmem
    exact Bool.not_eq_false _ ▸ fun hslot => hnone ⟨child, slot, hchild, hslot⟩
  rw [hall] at hopen
  cases hopen

/-- Between two turns some child has still to end. -/
theorem Stands.exists_open {size : Nat} {run : Option Run} {slots : List (Slot Run)}
    (hstands : Stands size run slots) (hsome : size ≠ 0) :
    ∃ (child : Nat) (slot : Slot Run), slots[child]? = some slot ∧ slot.isAnswered = false := by
  cases hstands with
  | idle =>
    refine ⟨0, .fresh, ?_, rfl⟩
    rw [List.getElem?_replicate, if_pos (Nat.pos_of_ne_zero hsome)]
  | underWay _ _ hopen => exact exists_open_slot hopen

/-- What a node answers when it hears of its children. -/
def conclusion (settings : ParallelSettings) : Reply → Outcome
  | .stop outcome => outcome
  | .signal (.gathered statuses) => .answered (verdict settings statuses)
  | .signal _ => .answered .failure

/-- What the node hears of its children decides how its turn ends. -/
theorem proceeds_of_follows {settings : ParallelSettings} {size now : Nat} {slots : List (Slot Run)}
    {journal rest : Journal} {again : Bool} {reply : Reply}
    (hfollows : reply.Follows now slots journal again) (hlength : slots.length = size)
    (hstory : ∀ child, story child rest = story child journal) :
    Proceeds settings size now slots rest again (conclusion settings reply) := by
  have hsame : ∀ {later}, Tells now 0 slots later journal → Tells now 0 slots later rest :=
    fun htells => ⟨htells.length_eq, fun child => by rw [hstory, htells.told_eq]⟩
  cases hfollows with
  | gathered htells => exact .answered (hsame htells)
  | waiting hgathers hopen htells hbegun =>
    exact .waiting (.underWay hgathers (htells.length_eq.trans hlength) hopen) (hsame htells) hbegun
  | failed fault => exact .failed fault

section Turn

variable {settings : ParallelSettings} {name : String} {children : List (Tree κ)}
  {slots : List (Slot Run)}

/-- After it has heard of its children, the node answers at once, or stops. -/
theorem drive_eq (fuel : Nat) {reply : Reply} (hreply : reply ≠ .signal .started)
    (cell : Cell (Kind.parallel settings : Kind κ).State) (below : Memories children)
    (world : World) :
    (crewOf children).drive name (.parallel settings : Kind κ) children.length (fuel + 1) reply cell
        below world =
      { result := conclusion settings reply, memory := (cell, below), world } := by
  cases reply with
  | stop outcome => exact Crew.drive_stop ..
  | signal signal =>
    have hmove : ∃ status, conclusion settings (.signal signal) = .answered status ∧
        ∀ moment state, (Kind.parallel settings : Kind κ).respond moment state signal =
          .finish () status := by
      cases signal with
      | started => exact absurd rfl hreply
      | gathered statuses => exact ⟨_, rfl, fun _ _ => rfl⟩
      | _ => exact ⟨.failure, rfl, fun _ _ => rfl⟩
    obtain ⟨status, hconclusion, hmove⟩ := hmove
    rw [Crew.drive_signal, hconclusion]
    dsimp only
    simp only [hmove, Move.finish, World.write_nil, Crew.serve, Crew.drive_stop]
    rfl

/-- The node looks at its children: it has them begin, or looks after those who wait. -/
def look (run : Option Run) (below : Memories children) (world : World) :
    Progress Reply (Memories children) :=
  match run with
  | none => (crewOf children).beginAll children.length below world
  | some run => (crewOf children).recheck run below world

/-- A look at the children has one of the expected outcomes. -/
theorem follows_look {run : Option Run} (hstands : Stands children.length run slots)
    (below : Memories children) (world : World) :
    let looked := look run below world
    looked.result.Follows world.now slots looked.journal looked.again := by
  have hlength := hstands.length_eq
  cases hstands with
  | idle => exact follows_beginAll below world
  | underWay hgathers _ _ => exact follows_recheck hgathers hlength below world

/-- In its turn the node looks at its children once. -/
theorem turnOf_eq {run : Option Run} {below : Memories children} {world : World}
    (hreply : (look run below world).result ≠ .signal .started)
    (cell : Cell (Kind.parallel settings : Kind κ).State) :
    turnOf name (.parallel settings : Kind κ) children run cell below world =
      (look run below world).map (conclusion settings) (cell, ·) := by
  cases run with
  | none =>
    have hmove : ∀ moment state, (Kind.parallel settings : Kind κ).respond moment state .started =
        .ask () .runAll := fun _ _ => rfl
    rw [turnOf]
    dsimp only [Kind.allowance]
    rw [Crew.drive_signal]
    simp only [hmove, Move.ask, World.write_nil, Crew.serve, List.map_nil, List.nil_append]
    rw [look] at hreply
    rw [drive_eq 2 hreply]
    simp only [Progress.after, Progress.map, look, List.append_nil, Bool.or_false]
    rfl
  | some run =>
    rw [turnOf]
    dsimp only [Kind.allowance]
    rw [look] at hreply
    rw [Progress.andThen_eq, drive_eq 3 hreply]
    simp only [Progress.after, Progress.map, look, List.append_nil, Bool.or_false]

/-- A turn of the node gets its children on. -/
theorem proceeds_turn {stage : Stage (nodeOf settings name children)}
    (hstands : Stands children.length stage.run slots) (world : World) :
    Proceeds settings children.length world.now slots (stage.turn world).journal
      (stage.turn world).again (stage.turn world).result := by
  obtain ⟨⟨cell, below⟩, run⟩ := stage
  have hfollows := follows_look hstands below world
  have hreply : (look run below world).result ≠ .signal .started := by
    intro hstarted
    dsimp only at hfollows
    rw [hstarted] at hfollows
    cases hfollows
  rw [Stage.turn, advance_eq, turnOf_eq hreply]
  refine proceeds_of_follows hfollows hstands.length_eq fun child => ?_
  rw [story_append, story_append, story_eq_nil (deeds_entryOf ..),
    story_eq_nil (deeds_exitEntry ..), List.nil_append, List.append_nil]
  rfl

end Turn

/-! ## Ticks -/

/-- A quiet act leaves the children standing as they are. -/
theorem Stands.act {size : Nat} {tree : Tree κ} {stage : Stage tree} {slots : List (Slot Run)}
    (hstands : Stands size stage.run slots) {act : Act tree} (hquiet : act.isQuiet) :
    ∃ later, Stands size (stage.act act).run later ∧
      (∀ child, deedsAt later child = deedsAt slots child) ∧ (.fresh ∈ later → .fresh ∈ slots) := by
  obtain ⟨memory, run⟩ := stage
  obtain ⟨call, rfl⟩ | ⟨binding, below, rfl⟩ := Act.exists_of_isQuiet hquiet
  · cases hstands with
    | idle => exact ⟨_, .idle, fun _ => rfl, id⟩
    | @underWay run _ hgathers hlength hopen =>
      exact ⟨notifySlots call slots,
        .underWay (hgathers.notify call) ((length_notifySlots call slots).trans hlength)
          ((allAnswered?_notifySlots call slots).trans hopen),
        deedsAt_notifySlots call slots, fresh_mem_of_notifySlots⟩
  · exact ⟨slots, hstands, fun _ => rfl, id⟩

/-- In the end every child with a status has begun and ended with it. -/
theorem deedsAt_map_answered (statuses : List Status) (child : Nat) :
    deedsAt (statuses.map .answered) child =
      ((statuses[child]?).map fun answer => [.begun child, .ended child answer]).getD [] := by
  rw [deedsAt, List.getElem?_map, Option.map_map]
  rfl

section Tick

variable {settings : ParallelSettings} {name : String} {children : List (Tree κ)}
  {stage : Stage (nodeOf settings name children)}
  {acts : List (Act (nodeOf settings name children))}
  {status : Status} {slots : List (Slot Run)}

/-- What happens to the children from now on until the node answers, together with what has happened
to them so far. -/
structure Gathers (stage : Stage (nodeOf settings name children))
    (acts : List (Act (nodeOf settings name children))) (slots : List (Slot Run))
    (statuses : List Status) (status : Status) : Prop where
  /-- Every child has a status in the end. -/
  length_eq : statuses.length = children.length
  /-- The node answers with the verdict on these statuses. -/
  status_eq : status = verdict settings statuses
  /-- What has happened to a child and what happens from now on is one execution with its status. -/
  deeds_eq : ∀ child, deedsAt slots child ++ (story child (stage.journal acts)).map (·.deed) =
    deedsAt (statuses.map .answered) child

/-- In the course of a tick every child is executed to its end. -/
theorem Stands.exists_gathers (hanswers : stage.Answers acts status)
    (hstands : Stands children.length stage.run slots) :
    ∃ statuses, Gathers stage acts slots statuses status := by
  induction hanswers generalizing slots with
  | @last stage world status hresult =>
    have hproceeds := proceeds_turn hstands world
    rw [hresult] at hproceeds
    cases hproceeds with
    | @answered statuses htells =>
      refine ⟨statuses, ?_, rfl, fun child => ?_⟩
      · rw [← hstands.length_eq, ← htells.length_eq, List.length_map]
      · rw [Stage.journal, Stage.journal, List.append_nil]
        exact htells.deeds_eq child
  | @wait stage world run hresult acts status hrest ih =>
    have hproceeds := proceeds_turn hstands world
    rw [hresult] at hproceeds
    cases hproceeds with
    | waiting hlater htells hbegun =>
      have hrun : (stage.act (.turn world)).run = some run := congrArg Outcome.run? hresult
      obtain ⟨statuses, hlength, hstatus, hdeeds⟩ := ih (hrun ▸ hlater)
      refine ⟨statuses, hlength, hstatus, fun child => ?_⟩
      rw [Stage.journal, story_append, List.map_append, ← List.append_assoc]
      rw [Stage.own, htells.deeds_eq child]
      exact hdeeds child
  | @meanwhile stage act hquiet acts status hrest ih =>
    obtain ⟨later, hlater, hsame, -⟩ := hstands.act hquiet
    obtain ⟨statuses, hlength, hstatus, hdeeds⟩ := ih hlater
    refine ⟨statuses, hlength, hstatus, fun child => ?_⟩
    rw [Stage.journal, Stage.own_eq_nil (Act.isTurn_of_isQuiet hquiet), List.nil_append, ← hsame]
    exact hdeeds child

/-- A child that has still to end has not ended. -/
theorem ended_notMem {child : Nat} {slot : Slot Run} (hslot : slots[child]? = some slot)
    (hopen : slot.isAnswered = false) (answer : Status) :
    .ended child answer ∉ deedsAt slots child := by
  rw [deedsAt, hslot]
  cases slot with
  | answered status => cases hopen
  | fresh => exact List.not_mem_nil
  | waiting run => simp [Slot.deeds]

/-- As long as the node waits, some child has not ended. -/
theorem Stands.exists_pending (hpends : stage.Pends acts)
    (hstands : Stands children.length stage.run slots) :
    ∃ child < children.length, ∀ answer,
      .ended child answer ∉
        deedsAt slots child ++ (story child (stage.journal acts)).map (·.deed) := by
  induction hpends generalizing slots with
  | @now stage hunderWay =>
    have hlength := hstands.length_eq
    generalize stage.run = run at hstands hunderWay
    cases hstands with
    | idle => cases hunderWay
    | underWay _ _ hopen =>
      obtain ⟨child, slot, hslot, hopen⟩ := exists_open_slot hopen
      refine ⟨child, hlength ▸ (List.getElem?_eq_some_iff.mp hslot).1, fun answer => ?_⟩
      rw [Stage.journal, story_nil, List.map_nil, List.append_nil]
      exact ended_notMem hslot hopen answer
  | @wait stage world run hresult acts hrest ih =>
    have hproceeds := proceeds_turn hstands world
    rw [hresult] at hproceeds
    cases hproceeds with
    | waiting hlater htells hbegun =>
      have hrun : (stage.act (.turn world)).run = some run := congrArg Outcome.run? hresult
      obtain ⟨child, hlt, hpending⟩ := ih (hrun ▸ hlater)
      refine ⟨child, hlt, fun answer => ?_⟩
      rw [Stage.journal, story_append, List.map_append, ← List.append_assoc, Stage.own,
        htells.deeds_eq child]
      exact hpending answer
  | @meanwhile stage act hquiet acts hrest ih =>
    obtain ⟨later, hlater, hsame, -⟩ := hstands.act hquiet
    obtain ⟨child, hlt, hpending⟩ := ih hlater
    refine ⟨child, hlt, fun answer => ?_⟩
    rw [Stage.journal, Stage.own_eq_nil (Act.isTurn_of_isQuiet hquiet), List.nil_append, ← hsame]
    exact hpending answer

/-- The node answers in the turn in which the last of its children ends. -/
theorem Stands.exists_last (hanswers : stage.Answers acts status)
    (hstands : Stands children.length stage.run slots) :
    ∃ before world, acts = before ++ [.turn world] ∧
      if children.length = 0 then ∀ act ∈ before, act.isTurn = false
      else ∃ child answer,
        ⟨world.now, .ended child answer⟩ ∈
          story child ((stage.after before).own (.turn world)) := by
  induction hanswers generalizing slots with
  | @last stage world status hresult =>
    have hproceeds := proceeds_turn hstands world
    rw [hresult] at hproceeds
    cases hproceeds with
    | @answered statuses htells =>
      refine ⟨[], world, rfl, ?_⟩
      split
      · exact List.forall_mem_nil _
      · next hsome =>
        obtain ⟨child, slot, hslot, hopen⟩ := hstands.exists_open hsome
        exact ⟨child, htells.exists_ended hslot hopen⟩
  | @wait stage world run hresult acts status hrest ih =>
    have hproceeds := proceeds_turn hstands world
    rw [hresult] at hproceeds
    cases hproceeds with
    | @waiting _ later hlater htells hbegun =>
      have hrun : (stage.act (.turn world)).run = some run := congrArg Outcome.run? hresult
      -- a node that waits has a child to wait for
      have hsome : children.length ≠ 0 := by
        intro hnone
        obtain rfl := List.length_eq_zero_iff.mp (hlater.length_eq.trans hnone)
        cases hlater with
        | underWay _ _ hopen => cases hopen
      obtain ⟨before, last, rfl, hlast⟩ := ih (hrun ▸ hlater)
      rw [if_neg hsome] at hlast
      exact ⟨.turn world :: before, last, rfl, by rw [if_neg hsome]; exact hlast⟩
  | @meanwhile stage act hquiet acts status hrest ih =>
    obtain ⟨later, hlater, -⟩ := hstands.act hquiet
    obtain ⟨before, last, rfl, hlast⟩ := ih hlater
    refine ⟨act :: before, last, rfl, ?_⟩
    split at hlast
    · next hnone =>
      rw [if_pos hnone]
      exact List.forall_mem_cons.mpr ⟨Act.isTurn_of_isQuiet hquiet, hlast⟩
    · next hsome =>
      rw [if_neg hsome]
      exact hlast

/-! ## Times -/

/-- A child that begins from now on had not begun. -/
theorem Gathers.fresh_of_begun {statuses : List Status}
    (hgathers : Gathers stage acts slots statuses status) {child : Nat} {mark : Mark}
    (hmem : mark ∈ story child (stage.journal acts)) (hbegun : mark.deed = .begun child)
    (hlength : slots.length = children.length) : .fresh ∈ slots := by
  have hdeeds := hgathers.deeds_eq child
  have hmem : .begun child ∈ (story child (stage.journal acts)).map (·.deed) :=
    List.mem_map.mpr ⟨mark, hmem, hbegun⟩
  rw [deedsAt_map_answered, deedsAt] at hdeeds
  cases hslot : slots[child]? with
  | none =>
    have hnone : statuses[child]? = none := by
      rw [List.getElem?_eq_none_iff] at hslot ⊢
      rw [hgathers.length_eq, ← hlength]
      exact hslot
    rw [hslot, hnone] at hdeeds
    rw [(List.append_eq_nil_iff.mp hdeeds).2] at hmem
    cases hmem
  | some slot =>
    have hlt : child < statuses.length := by
      rw [hgathers.length_eq, ← hlength]
      exact (List.getElem?_eq_some_iff.mp hslot).1
    rw [hslot, List.getElem?_eq_getElem hlt] at hdeeds
    obtain rfl := Slot.eq_fresh_of_begun hdeeds hmem
    exact List.mem_of_getElem? hslot

/-- What happens to the children in a tick happens between its first turn and its last one. Children
begin in the beginning, since nobody waits before all others have begun. -/
theorem Stands.times (hanswers : stage.Answers acts status)
    (hstands : Stands children.length stage.run slots) {now last : Nat} {held : Bool}
    (hkeeps : stage.KeepsTime now held acts last) (hheld : .fresh ∈ slots → held = true)
    {child : Nat} {mark : Mark} (hmem : mark ∈ story child (stage.journal acts)) :
    now ≤ mark.time ∧ mark.time ≤ last ∧ (mark.deed = .begun child → mark.time = now) := by
  induction hanswers generalizing slots now held with
  | @last stage world status hresult =>
    obtain ⟨statuses, hgathers⟩ := hstands.exists_gathers (.last world hresult)
    have hproceeds := proceeds_turn hstands world
    rw [hresult] at hproceeds
    cases hproceeds with
    | answered htells =>
      cases hkeeps with
      | other hturn => cases hturn
      | turn _ _ hrest => cases hrest
      | last hle hnow =>
        have hbegun := hgathers.fresh_of_begun hmem
        rw [Stage.journal, Stage.journal, List.append_nil] at hmem
        have htime := htells.time_eq hmem
        rw [htime]
        exact ⟨hle, Nat.le_refl _, fun hdeed => hnow (hheld (hbegun hdeed hstands.length_eq))⟩
  | @wait stage world run hresult acts status hrest ih =>
    obtain ⟨statuses, hgathers⟩ := hstands.exists_gathers (.wait world hresult hrest)
    have hproceeds := proceeds_turn hstands world
    rw [hresult] at hproceeds
    cases hproceeds with
    | @waiting _ later hlater htells hbegunLater =>
      cases hkeeps with
      | other hturn => cases hturn
      | last => cases hrest
      | turn hle hnow hkeeps =>
        have hbegun := hgathers.fresh_of_begun hmem
        have hrun : (stage.act (.turn world)).run = some run := congrArg Outcome.run? hresult
        have hbegins : mark.deed = .begun child → world.now = now :=
          fun hdeed => hnow (hheld (hbegun hdeed hstands.length_eq))
        rw [Stage.journal, story_append, List.mem_append] at hmem
        rcases hmem with hmem | hmem
        · rw [htells.time_eq hmem]
          exact ⟨hle, hkeeps.le, hbegins⟩
        · obtain ⟨hearly, hlate, htime⟩ := ih (hrun ▸ hlater) hkeeps hbegunLater hmem
          exact ⟨Nat.le_trans hle hearly, hlate, fun hdeed => (htime hdeed).trans (hbegins hdeed)⟩
  | @meanwhile stage act hquiet acts status hrest ih =>
    obtain ⟨later, hlater, -, hfresh⟩ := hstands.act hquiet
    have hturn := Act.isTurn_of_isQuiet hquiet
    cases hkeeps with
    | last => cases hquiet
    | turn => cases hquiet
    | other _ hkeeps =>
      rw [Stage.journal, Stage.own_eq_nil hturn, List.nil_append] at hmem
      exact ih hlater hkeeps (fun hmem => hheld (hfresh hmem)) hmem

/-! ## What a tick of a parallel node is -/

/-- In a tick that is answered the node has executed every child exactly once, and the answer came
in the turn in which the last of the children ended, or at once if there are none. -/
structure WaitsForAll (stage : Stage (nodeOf settings name children))
    (acts : List (Act (nodeOf settings name children))) (statuses : List Status)
    (status : Status) : Prop where
  /-- Every child has a status. -/
  length_eq : statuses.length = children.length
  /-- Every child is begun and ended once, and nothing else happens to it. -/
  executed : ∀ child, (story child (stage.journal acts)).map (·.deed) =
    ((statuses[child]?).map fun answer => [.begun child, .ended child answer]).getD []
  /-- The last turn is the one in which a child ends, or the first one if there are no children. -/
  ended : ∃ before world, acts = before ++ [.turn world] ∧
    if children.length = 0 then ∀ act ∈ before, act.isTurn = false
    else ∃ child answer,
      ⟨world.now, .ended child answer⟩ ∈ story child ((stage.after before).own (.turn world))
  /-- The answer is what the node makes of these statuses. -/
  decides : Decides settings statuses status

/-- From its start on all children are executed side by side, and the last time is when the slowest
of them has ended. -/
structure LastsAsLong (start last : Nat) (statuses : List Status) (journal : Journal) : Prop where
  /-- Every child begins at the start and ends by the last time. -/
  executed : ∀ child answer, statuses[child]? = some answer → ∃ time, start ≤ time ∧ time ≤ last ∧
    story child journal = [⟨start, .begun child⟩, ⟨time, .ended child answer⟩]
  /-- A child ends at the last time, or there are no children and no time passes. -/
  slowest : (statuses = [] ∧ last = start) ∨
    ∃ child answer, ⟨last, .ended child answer⟩ ∈ story child journal

/-- Nothing has happened to the children before a tick. -/
theorem deedsAt_replicate (size child : Nat) : deedsAt (.replicate size .fresh) child = [] := by
  rw [deedsAt, List.getElem?_replicate]
  split <;> rfl

/-- A node that is not executing has children that have not begun. -/
theorem stands_of_idle (hidle : stage.run = none) :
    Stands children.length stage.run (.replicate children.length .fresh) :=
  hidle ▸ .idle

/-- In a tick that is answered every child has been executed once. -/
theorem exists_waitsForAll (hidle : stage.run = none) (hanswers : stage.Answers acts status) :
    ∃ statuses, WaitsForAll stage acts statuses status := by
  have hstands := stands_of_idle hidle
  obtain ⟨statuses, hlength, rfl, hdeeds⟩ := hstands.exists_gathers hanswers
  refine ⟨statuses, hlength, fun child => ?_, hstands.exists_last hanswers,
    decides_verdict settings statuses⟩
  rw [← deedsAt_map_answered, ← hdeeds, deedsAt_replicate, List.nil_append]

/-- As long as the node has not answered, there is a child that has not. -/
theorem exists_pending (hidle : stage.run = none) (hpends : stage.Pends acts) :
    ∃ child < children.length, ∀ answer,
      .ended child answer ∉ (story child (stage.journal acts)).map (·.deed) := by
  obtain ⟨child, hlt, hpending⟩ := (stands_of_idle hidle).exists_pending hpends
  rw [deedsAt_replicate, List.nil_append] at hpending
  exact ⟨child, hlt, hpending⟩

/-- A tick that is answered lasts until the slowest child has ended. -/
theorem WaitsForAll.lasts {statuses : List Status} {start last : Nat}
    (hwaits : WaitsForAll stage acts statuses status) (hidle : stage.run = none)
    (hanswers : stage.Answers acts status) (hkeeps : stage.KeepsTime start true acts last) :
    LastsAsLong start last statuses (stage.journal acts) := by
  have hstands := stands_of_idle hidle
  refine ⟨fun child answer hanswer => ?_, ?_⟩
  · have hexecuted := hwaits.executed child
    have htimes := fun mark => @Stands.times _ _ _ _ _ _ _ _ _ hanswers hstands _ _ _ hkeeps
      (fun _ => rfl) child mark
    rw [hanswer] at hexecuted
    generalize story child (stage.journal acts) = marks at hexecuted htimes ⊢
    match marks with
    | [⟨began, first⟩, ⟨time, second⟩] =>
      cases hexecuted
      obtain ⟨-, -, hbegan⟩ := htimes _ List.mem_cons_self
      obtain ⟨hearly, hlate, -⟩ := htimes ⟨time, .ended child answer⟩ (by simp)
      obtain rfl : began = start := hbegan rfl
      exact ⟨time, hearly, hlate, rfl⟩
    | [] | [_] | _ :: _ :: _ :: _ => simp at hexecuted
  · obtain ⟨before, world, rfl, hended⟩ := hwaits.ended
    have hlast := hkeeps.last_eq
    split at hended
    · next hnone =>
      left
      refine ⟨List.length_eq_zero_iff.mp (hwaits.length_eq.trans hnone), ?_⟩
      cases (Stage.keepsTime_append hended).mp hkeeps with
      | last _ hnow => exact hnow rfl
      | turn _ _ hrest => cases hrest
      | other hturn => cases hturn
    · right
      obtain ⟨child, answer, hmem⟩ := hended
      refine ⟨child, answer, ?_⟩
      rw [hlast, Stage.journal_append, story_append, Stage.journal, Stage.journal, List.append_nil]
      exact List.mem_append_right _ hmem

end Tick

end BehaviorTree.Gather
