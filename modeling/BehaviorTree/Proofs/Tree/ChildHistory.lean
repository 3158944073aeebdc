import BehaviorTree.Proofs.Tree.WorldRelation
import BehaviorTree.Proofs.Tree.PendingCalls
import BehaviorTree.Proofs.Tree.Exchanges

/-!
# What happens to each of several children, and when

Children that run side by side have a slot each, and how a child stands tells what has happened to
it. When the children have a turn, the journal adds to each child's story exactly what its slot
tells afterwards and did not tell before (`Tells`), whether all of them are looked at
(`tells_advanceEach`) or only those that have been called (`tells_advanceCalled`). A tour of those
ends before it has advanced too many, so every child has begun, or the crowd gives way.
-/

namespace BehaviorTree

open Journal

variable {κ : Type} [Application κ]

/-! ## Stories -/

/-- The child that a deed is about. -/
def Deed.child : Deed → Nat
  | .begun child | .ended child _ | .reset child => child

/-- What happens to a child, and when. -/
structure Mark where
  /-- The time at which it happens. -/
  time : Nat
  /-- What happens. -/
  deed : Deed
  deriving DecidableEq

/-- What an entry says to the parent of the node that it is about, and when. -/
def Entry.mark? (entry : Entry) : Option Mark := entry.deed?.map (Mark.mk entry.time)

namespace Journal

/-- What happens to the children, and when. -/
def marks (journal : Journal) : List Mark := journal.filterMap Entry.mark?

/-- What happens to one child, and when. -/
def story (child : Nat) (journal : Journal) : List Mark :=
  journal.marks.filter (·.deed.child = child)

/-- Two journals tell of the children one after the other. -/
@[simp] theorem marks_append (first rest : Journal) :
    marks (first ++ rest) = marks first ++ marks rest :=
  List.filterMap_append

/-- An empty journal tells nothing of a child. -/
@[simp] theorem story_nil (child : Nat) : story child [] = [] := rfl

/-- The story of a child in two journals is the one and then the other. -/
@[simp] theorem story_append (child : Nat) (first rest : Journal) :
    story child (first ++ rest) = story child first ++ story child rest := by
  rw [story, marks_append, List.filter_append]
  rfl

/-- The marks without their times are the deeds. -/
theorem map_deed_marks (journal : Journal) : journal.marks.map (·.deed) = journal.deeds := by
  rw [marks, List.map_filterMap, deeds]
  congr 1
  funext entry
  rw [Entry.mark?, Option.map_map]
  exact Option.map_id'

/-- Where nothing happens to the children, nothing happens to any of them. -/
theorem marks_eq_nil {journal : Journal} (hdeeds : journal.deeds = []) : journal.marks = [] := by
  rw [← map_deed_marks, List.map_eq_nil_iff] at hdeeds
  exact hdeeds

/-- A journal without deeds tells nothing of a child. -/
theorem story_eq_nil {journal : Journal} (hdeeds : journal.deeds = []) (child : Nat) :
    journal.story child = [] := by
  rw [story, marks_eq_nil hdeeds]
  rfl

end Journal

/-- What happens to a child in a stretch of its execution. -/
def Outcome.turnDeeds (child : Nat) (run : Option Run) (outcome : Outcome) : List Deed :=
  (if run = none then [.begun child] else []) ++ outcome.deeds child

/-- The deeds of a stretch of execution of a child are about that child. -/
theorem Outcome.child_of_mem_turnDeeds {child : Nat} {run : Option Run} {outcome : Outcome}
    {deed : Deed} (hmem : deed ∈ outcome.turnDeeds child run) : deed.child = child := by
  rcases List.mem_append.mp hmem with hbegun | hended
  · split at hbegun
    · rw [List.mem_singleton.mp hbegun]
      rfl
    · cases hbegun
  · cases outcome with
    | answered status =>
      rw [List.mem_singleton.mp hended]
      rfl
    | waiting run => cases hended
    | failed fault => cases hended

/-- A stretch of the execution of a child, seen from its parent. All of it happens at one time. -/
theorem marks_under_advance (index : Nat) (tree : Tree κ) (run : Option Run)
    (memory : Memory tree) (world : World) :
    let progress := advance tree run memory world
    marks (progress.journal.map (·.under index)) =
      (progress.result.turnDeeds index run).map (Mark.mk world.now) := by
  have hnow := (Course.elapsing.advance tree run memory world).now_eq
  obtain ⟨name, kind, children⟩ := tree
  cases memory with
  | node cell below =>
    have hinner := isInner_turn name kind children run cell below world
    dsimp only
    rw [advance_eq] at hnow ⊢
    dsimp only at hnow ⊢
    generalize turnOf name kind children run cell below world = turn at hnow hinner ⊢
    have hbegun : marks ((entryOf name run world).map (·.under index)) =
        (if run = none then [Deed.begun index] else []).map (Mark.mk world.now) := by
      cases run <;> rfl
    have hended : marks ((exitEntry name kind turn).map (·.under index)) =
        (turn.result.deeds index).map (Mark.mk world.now) := by
      rw [exitEntry]
      cases turn.result with
      | answered status => exact congrArg (fun now => [Mark.mk now (.ended index status)]) hnow
      | waiting run => rfl
      | failed fault => rfl
    rw [List.map_append, List.map_append, marks_append, marks_append, hbegun, hended,
      marks_eq_nil (hinner.deeds_under index), List.append_nil, Outcome.turnDeeds, List.map_append]

/-- The marks of a stretch of execution of a child are its deeds at the time of the world. -/
theorem marks_under_advanceChild {trees : List (Tree κ)} {index : Nat}
    (hindex : index < trees.length) (label : Nat) (run : Option Run) (memories : Memories trees)
    (world : World) :
    let progress := advanceChild trees index run memories world
    marks (progress.journal.map (·.under label)) =
      (progress.result.turnDeeds label run).map (Mark.mk world.now) := by
  induction trees generalizing index with
  | nil => exact absurd hindex (Nat.not_lt_zero _)
  | cons tree trees ih =>
    cases memories with
    | cons first rest =>
      cases index with
      | zero => exact marks_under_advance label tree run first world
      | succ index => exact ih (Nat.lt_of_succ_lt_succ hindex) rest

/-! ## How the children stand -/

/-- What has happened to a child that stands like this. -/
def Slot.deeds (child : Nat) : Slot Run → List Deed
  | .fresh => []
  | .waiting _ => [.begun child]
  | .answered status => [.begun child, .ended child status]

/-- What has happened to a child that has a turn, before the turn and in it. -/
theorem Slot.deeds_append (child : Nat) {slot later : Slot Run} {outcome : Outcome}
    (hopen : slot.isAnswered = false) (hlater : outcome.slot = .ok later) :
    slot.deeds child ++ outcome.turnDeeds child slot.run? = later.deeds child := by
  cases slot with
  | answered status => cases hopen
  | fresh => cases outcome <;> cases hlater <;> rfl
  | waiting run => cases outcome <;> cases hlater <;> rfl

/-- A child that has still to end ends. -/
theorem Slot.ended_mem {child : Nat} {slot : Slot Run} {status : Status} {deeds : List Deed}
    (hdeeds : slot.deeds child ++ deeds = [.begun child, .ended child status])
    (hopen : slot.isAnswered = false) : .ended child status ∈ deeds := by
  cases slot with
  | answered answer => cases hopen
  | fresh =>
    cases hdeeds
    simp
  | waiting run =>
    cases hdeeds
    simp

/-- Only a child that has not begun can begin. -/
theorem Slot.eq_fresh_of_begun {child : Nat} {slot : Slot Run} {status : Status}
    {deeds : List Deed} (hdeeds : slot.deeds child ++ deeds = [.begun child, .ended child status])
    (hbegun : .begun child ∈ deeds) : slot = .fresh := by
  cases slot with
  | fresh => rfl
  | waiting run =>
    cases hdeeds
    simp at hbegun
  | answered answer =>
    cases hdeeds
    simp at hbegun

/-- What has happened to a child, as if all of it had happened at one time. The first of the slots
is that of the child with the given index. -/
def told (now : Nat) : Nat → List (Slot Run) → Nat → List Mark
  | _, [], _ => []
  | start, slot :: slots, child =>
    if child = start then (slot.deeds child).map (Mark.mk now) else told now (start + 1) slots child

/-- Nothing is told of a child before the first slot. -/
theorem told_of_lt (now : Nat) {start child : Nat} (hlt : child < start) (slots : List (Slot Run)) :
    told now start slots child = [] := by
  induction slots generalizing start with
  | nil => rfl
  | cons slot slots ih => rw [told, if_neg (Nat.ne_of_lt hlt), ih (Nat.lt_succ_of_lt hlt)]

/-- What has happened to the child with an index. -/
def deedsAt (slots : List (Slot Run)) (child : Nat) : List Deed :=
  ((slots[child]?).map (Slot.deeds child)).getD []

/-- What is told of a child is what its slot tells. -/
theorem told_add (now start : Nat) (slots : List (Slot Run)) (child : Nat) :
    told now start slots (start + child) =
      (((slots[child]?).map (Slot.deeds (start + child))).getD []).map (Mark.mk now) := by
  induction slots generalizing start child with
  | nil => rfl
  | cons slot slots ih =>
    cases child with
    | zero => exact if_pos rfl
    | succ child =>
      have hrest := ih (start + 1) child
      rw [Nat.add_right_comm, Nat.add_assoc] at hrest
      rw [told, if_neg (by omega)]
      exact hrest

/-- What is told of a child among all children is what has happened to it. -/
theorem told_zero (now : Nat) (slots : List (Slot Run)) (child : Nat) :
    told now 0 slots child = (deedsAt slots child).map (Mark.mk now) := by
  have hadd := told_add now 0 slots child
  rw [Nat.zero_add] at hadd
  exact hadd

/-- A turn at a time has got the children so far, and its journal tells what has happened to each of
them meanwhile. -/
structure Tells (now start : Nat) (slots later : List (Slot Run)) (journal : Journal) : Prop where
  /-- There are as many slots as before. -/
  length_eq : later.length = slots.length
  /-- What was told of a child before, and what the journal tells, is what is told of it now. -/
  told_eq : ∀ child, told now start slots child ++ story child journal = told now start later child

namespace Tells

variable {now start : Nat} {slots middle later : List (Slot Run)} {journal rest : Journal}

/-- Nothing happens in an empty journal. -/
theorem still (now start : Nat) (slots : List (Slot Run)) : Tells now start slots slots [] :=
  ⟨rfl, fun _ => List.append_nil _⟩

/-- Journals that tell of one step each tell of both together. -/
theorem trans (hfirst : Tells now start slots middle journal)
    (hrest : Tells now start middle later rest) :
    Tells now start slots later (journal ++ rest) where
  length_eq := hrest.length_eq.trans hfirst.length_eq
  told_eq := fun child => by
    rw [story_append, ← List.append_assoc, hfirst.told_eq, hrest.told_eq]

/-- What has happened to a child in the turn comes after what had happened to it before. -/
theorem deeds_eq (htells : Tells now 0 slots later journal) (child : Nat) :
    deedsAt slots child ++ (story child journal).map (·.deed) = deedsAt later child := by
  have htold := congrArg (List.map (·.deed)) (htells.told_eq child)
  have hdeeds : ∀ deeds : List Deed, (deeds.map (Mark.mk now)).map (·.deed) = deeds := by
    intro deeds
    rw [List.map_map]
    exact List.map_id deeds
  rw [told_zero, told_zero, List.map_append, hdeeds, hdeeds] at htold
  exact htold

/-- Whatever a turn tells of a child has happened at the time of the turn. -/
theorem time_eq (htells : Tells now 0 slots later journal) {child : Nat} {mark : Mark}
    (hmem : mark ∈ story child journal) : mark.time = now := by
  have hlater : mark ∈ (deedsAt later child).map (Mark.mk now) := by
    rw [← told_zero, ← htells.told_eq]
    exact List.mem_append_right _ hmem
  obtain ⟨deed, -, rfl⟩ := List.mem_map.mp hlater
  rfl

/-- A child that had not ended, while all have in the end, has ended in the turn. -/
theorem exists_ended {statuses : List Status}
    (htells : Tells now 0 slots (statuses.map .answered) journal) {child : Nat} {slot : Slot Run}
    (hslot : slots[child]? = some slot) (hopen : slot.isAnswered = false) :
    ∃ answer, ⟨now, .ended child answer⟩ ∈ story child journal := by
  have hlt : child < statuses.length := by
    rw [← List.length_map (Slot.answered : Status → Slot Run), htells.length_eq]
    exact (List.getElem?_eq_some_iff.mp hslot).1
  have hdeeds := htells.deeds_eq child
  have hafter : deedsAt (statuses.map .answered) child =
      [.begun child, .ended child statuses[child]] := by
    rw [deedsAt, List.getElem?_map, List.getElem?_eq_getElem hlt]
    rfl
  have hbefore : deedsAt slots child = slot.deeds child := by
    rw [deedsAt, hslot]
    rfl
  rw [hafter, hbefore] at hdeeds
  have hended := Slot.ended_mem hdeeds hopen
  obtain ⟨mark, hmem, hdeed⟩ := List.mem_map.mp hended
  obtain ⟨time, deed⟩ := mark
  obtain rfl : deed = _ := hdeed
  obtain rfl : time = now := htells.time_eq hmem
  exact ⟨_, hmem⟩

/-- What is told of the others leaves the first child as it was. -/
theorem kept (hrest : Tells now (start + 1) slots later journal) (slot : Slot Run) :
    Tells now start (slot :: slots) (slot :: later) journal where
  length_eq := congrArg Nat.succ hrest.length_eq
  told_eq := fun child => by
    have htold := hrest.told_eq child
    rw [told, told]
    split
    · next hfirst =>
      rw [told_of_lt now (by omega), told_of_lt now (by omega), List.nil_append] at htold
      rw [htold, List.append_nil]
    · exact htold

end Tells

/-- A turn of a child is part of its own story, and no other child has a part in it. -/
theorem story_under_advanceChild {trees : List (Tree κ)} {index : Nat}
    (hindex : index < trees.length) (run : Option Run) (memories : Memories trees) (world : World)
    (child : Nat) :
    let progress := advanceChild trees index run memories world
    story child (progress.journal.map (·.under index)) =
      if child = index then (progress.result.turnDeeds index run).map (Mark.mk world.now)
      else [] := by
  dsimp only
  rw [story, marks_under_advanceChild hindex]
  generalize (advanceChild trees index run memories world).result = outcome
  split
  · next heq =>
    refine List.filter_eq_self.mpr fun mark hmem => ?_
    obtain ⟨deed, hdeed, rfl⟩ := List.mem_map.mp hmem
    exact decide_eq_true ((Outcome.child_of_mem_turnDeeds hdeed).trans heq.symm)
  · next hne =>
    refine List.filter_eq_nil_iff.mpr fun mark hmem => ?_
    obtain ⟨deed, hdeed, rfl⟩ := List.mem_map.mp hmem
    exact fun heq =>
      hne ((of_decide_eq_true heq).symm.trans (Outcome.child_of_mem_turnDeeds hdeed))

section Each

variable {children : List (Tree κ)}

/-- A stretch of execution of a child takes no time. -/
theorem now_advanceChild (index : Nat) (run : Option Run) (below : Memories children)
    (world : World) : (advanceChild children index run below world).world.now = world.now :=
  ((Course.elapsing.leads_crewOf children).advance index run below world).now_eq

/-- A turn of the first child continues what is told of it. -/
theorem Tells.first {slot later : Slot Run} {slots others : List (Slot Run)} {start : Nat}
    {journal : Journal} (hstart : start < children.length) (hopen : slot.isAnswered = false)
    {below : Memories children} {world : World}
    (hlater : (advanceChild children start slot.run? below world).result.slot = .ok later)
    (hrest : Tells world.now (start + 1) slots others journal) :
    let progress := advanceChild children start slot.run? below world
    Tells world.now start (slot :: slots) (later :: others)
      (progress.journal.map (·.under start) ++ journal) where
  length_eq := congrArg Nat.succ hrest.length_eq
  told_eq := fun child => by
    have htold := hrest.told_eq child
    rw [story_append, story_under_advanceChild hstart, told, told]
    split
    · next hfirst =>
      rw [told_of_lt _ (by omega), told_of_lt _ (by omega), List.nil_append] at htold
      rw [htold, List.append_nil, ← List.map_append, hfirst, Slot.deeds_append start hopen hlater]
    · exact htold

/-- If the result with one more slot is no fault, then it was none without. -/
theorem exists_of_map_cons {slot : Slot Run} {result : Except Fault (List (Slot Run))}
    {later : List (Slot Run)} (hok : result.map (slot :: ·) = .ok later) :
    ∃ others, result = .ok others ∧ later = slot :: others := by
  cases result <;> cases hok
  exact ⟨_, rfl, rfl⟩

/-- All of several children have had their turn, so all of them have begun. -/
theorem tells_advanceEach {count start : Nat} (hsize : start + count ≤ children.length)
    {slots : List (Slot Run)} (hcount : slots.length = count) (below : Memories children)
    (world : World) {later : List (Slot Run)} :
    let progress := advanceEach (advanceChild children) count start slots below world
    progress.result = .ok later →
      Tells world.now start slots later progress.journal ∧ .fresh ∉ later := by
  induction count generalizing start slots below world later with
  | zero =>
    obtain rfl := List.length_eq_zero_iff.mp hcount
    rintro - ⟨⟩
    exact ⟨.still _ _ _, List.not_mem_nil⟩
  | succ count ih =>
    cases slots with
    | nil => cases hcount
    | cons slot slots =>
      have hrest := @ih (start + 1) (by omega) slots (Nat.succ.inj hcount)
      dsimp only at hrest ⊢
      rw [advanceEach]
      split
      · next hanswered =>
        intro hok
        obtain ⟨others, hothers, rfl⟩ := exists_of_map_cons hok
        obtain ⟨htells, hbegun⟩ := hrest below world hothers
        refine ⟨htells.kept slot, fun hmem => ?_⟩
        rcases List.mem_cons.mp hmem with rfl | hmem
        · cases hanswered
        · exact hbegun hmem
      · next hopen =>
        rw [Progress.andThen_eq, Progress.result_after, Progress.journal_after]
        simp only [Progress.result_under, Progress.memory_under, Progress.world_under,
          Progress.journal_under]
        cases hfirst : (advanceChild children start slot.run? below world).result.slot with
        | error fault =>
          intro hok
          cases hok
        | ok first =>
          intro hok
          obtain ⟨others, hothers, rfl⟩ := exists_of_map_cons hok
          obtain ⟨htells, hbegun⟩ := hrest _ _ hothers
          rw [now_advanceChild] at htells
          refine ⟨.first (by omega) (Bool.not_eq_true _ ▸ hopen) hfirst htells, fun hmem => ?_⟩
          rcases List.mem_cons.mp hmem with heq | hmem
          · exact ne_fresh_of_slot hfirst heq.symm
          · exact hbegun hmem

end Each

/-! ## Crowds -/

/-- The children that are called in a crowd: none of them twice, and all that have not begun. -/
structure Slot.Enrolled (slots : List (Slot Run)) (called : List Nat) : Prop where
  /-- No child is called twice. -/
  nodup : called.Nodup
  /-- Only children that there are can be called. -/
  lt_length : ∀ index ∈ called, index < slots.length
  /-- A child that has not begun is called. -/
  mem_of_fresh : ∀ index, slots[index]? = some .fresh → index ∈ called

namespace Slot.Enrolled

variable {slots : List (Slot Run)} {called : List Nat} {index : Nat}

/-- At the beginning of a crowd all children are called. -/
theorem replicate (size : Nat) : Enrolled (List.replicate size .fresh) (List.range size) where
  nodup := List.nodup_range
  lt_length := fun index hmem => by
    rw [List.length_replicate]
    exact List.mem_range.mp hmem
  mem_of_fresh := fun index hfresh => by
    have hlt := (List.getElem?_eq_some_iff.mp hfresh).1
    rw [List.length_replicate] at hlt
    exact List.mem_range.mpr hlt

/-- A child that has answered need not be called. -/
theorem tail (henrolled : Enrolled slots (index :: called)) {slot : Slot Run}
    (hslot : slots[index]? = some slot) (hbegun : slot ≠ .fresh) : Enrolled slots called where
  nodup := (List.nodup_cons.mp henrolled.nodup).2
  lt_length := fun other hmem => henrolled.lt_length other (List.mem_cons_of_mem _ hmem)
  mem_of_fresh := fun other hfresh => by
    rcases List.mem_cons.mp (henrolled.mem_of_fresh other hfresh) with rfl | hmem
    · rw [hslot] at hfresh
      exact absurd (Option.some.inj hfresh) hbegun
    · exact hmem

/-- A child that has begun need not be called, and may be called again. -/
theorem set (henrolled : Enrolled slots (index :: called)) {later : Slot Run}
    (hbegun : later ≠ .fresh) (again : Bool) :
    Enrolled (slots.set index later) (if again then enlist index called else called) := by
  have hlt := henrolled.lt_length index List.mem_cons_self
  have htail : Enrolled (slots.set index later) called := by
    have hset : (slots.set index later)[index]? = some later := List.getElem?_set_self hlt
    refine tail ⟨henrolled.nodup, ?_, fun other hfresh => ?_⟩ hset hbegun
    · rw [List.length_set]
      exact henrolled.lt_length
    · by_cases heq : index = other
      · subst heq
        exact List.mem_cons_self
      · rw [List.getElem?_set_ne heq] at hfresh
        exact henrolled.mem_of_fresh other hfresh
  cases again with
  | false => exact htail
  | true =>
    refine ⟨nodup_enlist htail.nodup, fun other hmem => ?_, fun other hfresh =>
      mem_enlist.mpr (.inl (htail.mem_of_fresh other hfresh))⟩
    rcases mem_enlist.mp hmem with hmem | rfl
    · exact htail.lt_length other hmem
    · rw [List.length_set]
      exact hlt

/-- Passing a call on does not change who has begun, and calls only children that wait. -/
theorem notify (henrolled : Enrolled slots called) (call : Call) (id : Nat) :
    Enrolled (notifySlots call slots) (calledAfter call id slots called) where
  nodup := nodup_calledAfter henrolled.nodup call id slots
  lt_length := fun index hmem => by
    rw [length_notifySlots]
    rcases waiting_of_mem_calledAfter hmem with hmem | ⟨run, hrun⟩
    · exact henrolled.lt_length index hmem
    · exact (List.getElem?_eq_some_iff.mp hrun).1
  mem_of_fresh := fun index hfresh =>
    mem_calledAfter.mpr (.inl (henrolled.mem_of_fresh index (fresh_of_notifySlots hfresh)))

end Slot.Enrolled

/-- Passing a call on changes nothing in what has happened to a child. -/
theorem deedsAt_notifySlots (call : Call) (slots : List (Slot Run)) (child : Nat) :
    deedsAt (notifySlots call slots) child = deedsAt slots child := by
  have hslot : ∀ index : Nat, ((notifySlots call slots)[index]?).map (Slot.deeds child) =
      (slots[index]?).map (Slot.deeds child) := by
    induction slots with
    | nil => exact fun _ => rfl
    | cons slot slots ih =>
      intro index
      cases index with
      | zero => cases slot <;> rfl
      | succ index => cases slot <;> exact ih index
  rw [deedsAt, deedsAt, hslot]

/-- A child that has not begun when a call has been passed on had not before. -/
theorem fresh_mem_of_notifySlots {call : Call} {slots : List (Slot Run)}
    (hfresh : .fresh ∈ notifySlots call slots) : .fresh ∈ slots := by
  obtain ⟨index, hindex⟩ := List.getElem?_of_mem hfresh
  exact List.mem_of_getElem? (fresh_of_notifySlots hindex)

section Called

variable {children : List (Tree κ)} {slots : List (Slot Run)} {index : Nat}

/-- Putting one child in another state tells another story of that child only. -/
theorem told_set (now : Nat) (hlt : index < slots.length) (later : Slot Run) (child : Nat) :
    told now 0 (slots.set index later) child =
      if child = index then (later.deeds index).map (Mark.mk now) else told now 0 slots child := by
  rw [told_zero, told_zero]
  split
  · next heq =>
    rw [deedsAt, heq, List.getElem?_set_self hlt]
    rfl
  · next hne => rw [deedsAt, deedsAt, List.getElem?_set_ne (Ne.symm hne)]

/-- A turn of one child of a crowd continues what is told of this child only. -/
theorem tells_advanceMember {tour : Tour} (hsize : tour.slots.length = children.length)
    {slot later : Slot Run} (hslot : tour.slots[index]? = some slot)
    (hopen : slot.isAnswered = false) (below : Memories children) (world : World) :
    let member := (crewOf children).advanceMember tour index below world
    member.result.slot = .ok later →
      Tells world.now 0 tour.slots (tour.slots.set index later)
        (member.journal.map (·.under index)) := by
  intro member hlater
  have hlt := (List.getElem?_eq_some_iff.mp hslot).1
  have hrun := Tour.run?_of_slot hslot
  have hstory : ∀ child, story child (member.journal.map (·.under index)) =
      if child = index then (member.result.turnDeeds index (tour.run? index)).map
        (Mark.mk world.now) else [] :=
    story_under_advanceChild (hsize ▸ hlt) _ below _
  refine ⟨List.length_set, fun child => ?_⟩
  rw [hstory, told_set _ hlt]
  split
  · next heq =>
    rw [told_zero, deedsAt, heq, hslot, hrun, ← Slot.deeds_append index hopen hlater,
      List.map_append]
    rfl
  · exact List.append_nil _

/-- A tour has ended. No child is called any more, or the crowd gives way. -/
structure Tour.Closes (last : Tour) (now : Nat) (slots : List (Slot Run)) (journal : Journal)
    (again : Bool) : Prop where
  /-- The journal tells what has happened to each child. -/
  tells : Tells now 0 slots last.slots journal
  /-- The children that are called are as they should be. -/
  enrolled : Slot.Enrolled last.slots last.called
  /-- No child is called any more, or the crowd gives way. -/
  closed : last.called = [] ∨ again = true

/-- A tour that follows a step closes what that step and the tour did. -/
theorem Tour.Closes.after {last : Tour} {now : Nat} {middle : List (Slot Run)}
    {journal rest : Journal} {again : Bool} (hrest : last.Closes now middle rest again)
    (htells : Tells now 0 slots middle journal) (earlier : Bool) :
    last.Closes now slots (journal ++ rest) (earlier || again) where
  tells := htells.trans hrest.tells
  enrolled := hrest.enrolled
  closed := hrest.closed.imp_right fun hagain => Bool.or_eq_true_iff.mpr (.inr hagain)

/-- A tour of which nobody is called ends at once. -/
theorem closes_advanceCalled_nil {tour last : Tour} (hcalled : tour.called = [])
    (henrolled : Slot.Enrolled tour.slots tour.called) (fuel : Nat) (below : Memories children)
    (world : World) :
    let progress := (crewOf children).advanceCalled fuel tour below world
    progress.result = .ok last →
      last.Closes world.now tour.slots progress.journal progress.again := by
  rw [Crew.advanceCalled_nil hcalled]
  intro progress hok
  cases hok
  exact ⟨.still _ _ _, henrolled, .inl hcalled⟩

/-- A tour ends before it has advanced too many children. -/
theorem tells_advanceCalled {fuel : Nat} {tour : Tour}
    (hsize : tour.slots.length = children.length)
    (henrolled : Slot.Enrolled tour.slots tour.called) (hfuel : tour.effort ≤ fuel)
    (below : Memories children) (world : World) {last : Tour} :
    let progress := (crewOf children).advanceCalled fuel tour below world
    progress.result = .ok last →
      last.Closes world.now tour.slots progress.journal progress.again := by
  induction fuel generalizing tour below world last with
  | zero =>
    exact closes_advanceCalled_nil (Tour.called_eq_nil_of_effort hfuel) henrolled 0 below world
  | succ fuel ih =>
    dsimp only at ih ⊢
    cases hcalled : tour.called with
    | nil => exact closes_advanceCalled_nil hcalled henrolled _ below world
    | cons index called =>
      have hless : ∀ {next : Tour}, next.effort < tour.effort → next.effort ≤ fuel :=
        fun hlt => Nat.le_of_lt_succ (Nat.lt_of_lt_of_le hlt hfuel)
      rw [hcalled] at henrolled
      obtain ⟨slot, hslot⟩ : ∃ slot, tour.slots[index]? = some slot :=
        ⟨_, List.getElem?_eq_getElem (henrolled.lt_length index List.mem_cons_self)⟩
      have hanswer := Tour.hasAnswer_of_slot hslot
      cases hopen : slot.isAnswered with
      | true =>
        have hbegun : slot ≠ .fresh := by
          rintro rfl
          cases hopen
        rw [Crew.advanceCalled_skip hcalled (hanswer.trans hopen)]
        exact @ih { tour with called } hsize (henrolled.tail hslot hbegun)
          (hless (Tour.effort_skip hcalled)) below world last
      | false =>
        have hmember := fun later => @tells_advanceMember _ _ children index { tour with called }
          hsize slot later hslot hopen below world
        have hnow := ((Course.elapsing.leads_crewOf children).advanceMember { tour with called }
          index below world).now_eq
        rw [Crew.advanceCalled_member hcalled (hanswer.trans hopen)]
        dsimp only at hmember ⊢
        rw [Progress.result_after, Progress.journal_after]
        generalize (crewOf children).advanceMember { tour with called } index below world = member
          at hmember hnow ⊢
        cases hresult : member.result with
        | failed fault =>
          intro hok
          cases hok
        | answered status =>
          intro hok
          have htells := hmember (.answered status) (by rw [hresult]; rfl)
          have hnext : Slot.Enrolled (tour.slots.set index (.answered status)) called :=
            henrolled.set (by simp) false
          have hrest := @ih (Tour.answer { tour with called } index status)
            (List.length_set.trans hsize) hnext (hless (Tour.effort_answer hcalled hslot hopen _))
            member.memory member.world last hok
          rw [hnow] at hrest
          exact hrest.after htells _
        | waiting run =>
          have htells := hmember (.waiting run) (by rw [hresult]; rfl)
          have hnext : Slot.Enrolled (tour.slots.set index (.waiting run))
              (if member.again then enlist index called else called) :=
            henrolled.set (by simp) member.again
          dsimp only
          split
          · intro hok
            cases hok
            exact ⟨(List.append_nil _).symm ▸ htells, hnext, .inr (Bool.or_true _)⟩
          · next hstays =>
            intro hok
            have hrest := @ih (Tour.suspend { tour with called } index run member.again)
              (List.length_set.trans hsize) hnext
              (hless (Tour.effort_suspend hcalled hslot hopen _ _ (Bool.eq_false_iff.mpr hstays)))
              member.memory member.world last hok
            rw [hnow] at hrest
            exact hrest.after htells _

/-! ## What comes of a look at the children -/

/-- A suspended execution of children that run side by side, who stand like this. If they are few,
all of them have begun. -/
inductive Run.Gathers : Run → List (Slot Run) → Prop where
  | together {slots : List (Slot Run)} (hbegun : .fresh ∉ slots) : Gathers (.together slots) slots
  | crowd (id : Nat) {slots : List (Slot Run)} {called : List Nat}
      (henrolled : Slot.Enrolled slots called) : Gathers (.crowd id slots called) slots

/-- What gathers children goes on doing so when a call has been passed on. -/
theorem Run.Gathers.notify {run : Run} {slots : List (Slot Run)} (hgathers : run.Gathers slots)
    (call : Call) : (run.notify call).Gathers (notifySlots call slots) := by
  cases hgathers with
  | together hbegun => exact .together fun hfresh => hbegun (fresh_mem_of_notifySlots hfresh)
  | crowd id henrolled => exact .crowd id (henrolled.notify call id)

/-- What comes of a look at the children at a time. Where some have not begun, the others give way
to them. -/
inductive Reply.Follows (now : Nat) (slots : List (Slot Run)) (journal : Journal) (again : Bool) :
    Reply → Prop where
  | gathered {statuses : List Status}
      (htells : Tells now 0 slots (statuses.map .answered) journal) :
    Follows now slots journal again (.signal (.gathered statuses))
  | waiting {run : Run} {later : List (Slot Run)} (hgathers : run.Gathers later)
      (hopen : Slot.allAnswered? later = none) (htells : Tells now 0 slots later journal)
      (hbegun : .fresh ∈ later → again = true) :
    Follows now slots journal again (.stop (.waiting run))
  | failed (fault : Fault) : Follows now slots journal again (.stop (.failed fault))

/-- If all children have answered, then each slot is an answer. -/
theorem Slot.eq_map_of_allAnswered? {slots : List (Slot Run)} {statuses : List Status}
    (hall : allAnswered? slots = some statuses) : slots = statuses.map .answered := by
  induction slots generalizing statuses with
  | nil =>
    cases hall
    rfl
  | cons slot slots ih =>
    cases slot with
    | fresh => cases hall
    | waiting run => cases hall
    | answered status =>
      obtain ⟨others, hothers, rfl⟩ := Option.map_eq_some_iff.mp hall
      rw [ih hothers]
      rfl

/-- A look at all children at once has one of the expected outcomes. -/
theorem follows_advanceAll (hlength : slots.length = children.length) (below : Memories children)
    (world : World) :
    let looked := ((crewOf children).advanceAll slots below world).map replyOfAll id
    looked.result.Follows world.now slots looked.journal looked.again := by
  have heach := @tells_advanceEach _ _ children children.length 0 (by omega) slots hlength below
    world
  have hcrew : (crewOf children).advance = advanceChild children := rfl
  rw [advanceAll_eq, hcrew]
  dsimp only [Progress.map] at heach ⊢
  generalize advanceEach (advanceChild children) _ _ slots below world = progress at heach ⊢
  cases hresult : progress.result with
  | error fault => exact .failed fault
  | ok later =>
    obtain ⟨htells, hbegun⟩ := heach hresult
    rw [replyOfAll]
    cases hall : Slot.allAnswered? later with
    | some statuses => exact .gathered (Slot.eq_map_of_allAnswered? hall ▸ htells)
    | none => exact .waiting (.together hbegun) hall htells fun hfresh => absurd hfresh hbegun

/-- A look at the called children of a crowd has one of the expected outcomes. -/
theorem follows_advanceCrowd (hlength : slots.length = children.length) (id : Nat)
    {called : List Nat} (henrolled : Slot.Enrolled slots called) (below : Memories children)
    (world : World) :
    let looked := (crewOf children).advanceCrowd (.ofSlots id slots called) below world
    looked.result.Follows world.now slots looked.journal looked.again := by
  have hfuel := Tour.effort_le_bound id henrolled.nodup henrolled.lt_length
  have htour := fun last => @tells_advanceCalled _ _ children _ (.ofSlots id slots called) hlength
    henrolled hfuel below world last
  rw [Crew.advanceCrowd]
  dsimp only [Progress.map] at htour ⊢
  generalize (crewOf children).advanceCalled _ _ below world = progress at htour ⊢
  cases hresult : progress.result with
  | error fault => exact .failed fault
  | ok last =>
    obtain ⟨htells, hlast, hends⟩ := htour last hresult
    rw [replyOfTour]
    cases hall : Slot.allAnswered? last.slots with
    | some statuses => exact .gathered (Slot.eq_map_of_allAnswered? hall ▸ htells)
    | none =>
      refine .waiting (.crowd last.crowd hlast) hall htells fun hfresh => ?_
      obtain ⟨index, hindex⟩ := List.getElem?_of_mem hfresh
      have hmem := hlast.mem_of_fresh index hindex
      exact hends.resolve_left fun hnobody => by
        rw [hnobody] at hmem
        cases hmem

/-- When all children begin, what happens to each of them is told, be they few or many. -/
theorem follows_beginAll (below : Memories children) (world : World) :
    let looked := (crewOf children).beginAll children.length below world
    looked.result.Follows world.now (List.replicate children.length .fresh) looked.journal
      looked.again := by
  rw [Crew.beginAll]
  split
  · exact follows_advanceAll List.length_replicate below world
  · exact follows_advanceCrowd List.length_replicate _ (.replicate _) below world.formCrowd.2

/-- A look at the children of a suspended execution has one of the expected outcomes. -/
theorem follows_recheck {run : Run} (hgathers : run.Gathers slots)
    (hlength : slots.length = children.length) (below : Memories children) (world : World) :
    let looked := (crewOf children).recheck run below world
    looked.result.Follows world.now slots looked.journal looked.again := by
  cases hgathers with
  | together hbegun => exact follows_advanceAll hlength below world
  | crowd id henrolled => exact follows_advanceCrowd hlength id henrolled below world

end Called

end BehaviorTree
