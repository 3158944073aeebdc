import BehaviorTree.Proofs.Tree.Turn
import Mathlib.Data.List.Perm.Subperm

/-!
# A tour of the called children

A tour advances the called children of a crowd one after the other, and each of its steps has an
equation: nobody is called any more (`Crew.advanceCalled_nil`), a child that has answered is passed
over (`Crew.advanceCalled_skip`), or a child has the turn (`Crew.advanceCalled_member`). Each step
takes some of the tour's effort (`Tour.effort`), and the bound of a tour leaves room for all of it
(`Tour.effort_le_bound`).
-/

namespace BehaviorTree

/-! ## Those who are called -/

/-- Enlisting a child adds it to those who are called. -/
theorem mem_enlist {index other : Nat} {called : List Nat} :
    other ∈ enlist index called ↔ other ∈ called ∨ other = index := by
  rw [enlist]
  split
  · next hmem =>
    constructor
    · exact .inl
    · rintro (hother | rfl)
      · exact hother
      · simpa using hmem
  · simp

/-- A child that is enlisted is called only once. -/
theorem nodup_enlist {index : Nat} {called : List Nat} (hnodup : called.Nodup) :
    (enlist index called).Nodup := by
  rw [enlist]
  split
  · exact hnodup
  · next hnot =>
    refine List.nodup_append.mpr ⟨hnodup, List.pairwise_singleton _ _, ?_⟩
    rintro other hother last hlast rfl
    obtain rfl := List.mem_singleton.mp hlast
    exact hnot (by simpa using hother)

/-- Nobody is called twice, so no more are called than there are. -/
theorem length_le_of_nodup {called : List Nat} {count : Nat} (hnodup : called.Nodup)
    (hlt : ∀ index ∈ called, index < count) : called.length ≤ count := by
  have hsubset : called ⊆ List.range count :=
    fun index hmem => List.mem_range.mpr (hlt index hmem)
  have hle := (List.subperm_of_subset hnodup hsubset).length_le
  rw [List.length_range] at hle
  exact hle

namespace Slot

variable {slots : List (Slot Run)} {index : Nat} {slot : Slot Run}

/-- The children without an answer are counted one by one. -/
theorem unanswered_cons (slot : Slot Run) (slots : List (Slot Run)) :
    unanswered (slot :: slots) = unanswered slots + if slot.isAnswered then 0 else 1 := by
  cases slot <;> simp [unanswered, isAnswered]

/-- Putting a child in another state changes the count of those without an answer by that child
alone. -/
theorem unanswered_set (hslot : slots[index]? = some slot) (later : Slot Run) :
    unanswered (slots.set index later) + (if slot.isAnswered then 0 else 1) =
      unanswered slots + if later.isAnswered then 0 else 1 := by
  induction slots generalizing index with
  | nil => cases hslot
  | cons first slots ih =>
    cases index with
    | zero =>
      cases hslot
      rw [List.set_cons_zero, unanswered_cons, unanswered_cons]
      omega
    | succ index =>
      have hrest := ih (show slots[index]? = some slot from hslot)
      rw [List.set_cons_succ, unanswered_cons, unanswered_cons]
      omega

/-- At most all children are without an answer. -/
theorem unanswered_le_length (slots : List (Slot Run)) : unanswered slots ≤ slots.length :=
  List.length_filter_le _ _

end Slot

namespace Tour

variable {tour : Tour} {index : Nat} {called : List Nat} {slot : Slot Run}

/-- The run of a child on a tour is that of its slot. -/
theorem run?_of_slot (hslot : tour.slots[index]? = some slot) : tour.run? index = slot.run? := by
  rw [run?, hslot, Option.bind_some]

/-- A child on a tour has an answer if its slot has. -/
theorem hasAnswer_of_slot (hslot : tour.slots[index]? = some slot) :
    tour.hasAnswer index = slot.isAnswered := by
  rw [hasAnswer, hslot, Option.any_some]

/-- A bound on the children that a tour still advances: those that are called, and one that is
called again after every answer. -/
def effort (tour : Tour) : Nat :=
  tour.called.length + Slot.unanswered tour.slots + if tour.eager = 0 then 1 else 0

/-- Passing over a child that is called takes some of the effort. -/
theorem effort_skip (hcalled : tour.called = index :: called) :
    Tour.effort { tour with called } < tour.effort := by
  rw [effort, effort, hcalled, List.length_cons]
  dsimp only
  omega

/-- An answer of a child takes some of the effort, although another child may be called for it. -/
theorem effort_answer (hcalled : tour.called = index :: called)
    (hslot : tour.slots[index]? = some slot) (hopen : slot.isAnswered = false) (status : Status) :
    (Tour.answer { tour with called } index status).effort < tour.effort := by
  have hset := Slot.unanswered_set hslot (.answered status)
  rw [hopen] at hset
  rw [effort, effort, hcalled, List.length_cons, answer, ofSlots]
  simp only [Slot.isAnswered, if_true, Bool.false_eq_true, if_false] at hset ⊢
  omega

/-- A child that is suspended is called again once at most before the crowd gives way. -/
theorem effort_suspend (hcalled : tour.called = index :: called)
    (hslot : tour.slots[index]? = some slot) (hopen : slot.isAnswered = false) (run : Run)
    (again : Bool) (hstays : (Tour.suspend { tour with called } index run again).givesWay = false) :
    (Tour.suspend { tour with called } index run again).effort < tour.effort := by
  have hset := Slot.unanswered_set hslot (.waiting run)
  rw [hopen] at hset
  rw [givesWay, Bool.or_eq_false_iff] at hstays
  obtain ⟨-, hstays⟩ := hstays
  rw [effort, effort, hcalled, List.length_cons]
  simp only [suspend, Slot.isAnswered, decide_eq_false_iff_not, Nat.not_le, Bool.false_eq_true,
    if_false] at hset hstays ⊢
  cases again with
  | false =>
    simp only [Bool.false_eq_true, if_false]
    omega
  | true =>
    have hle : (enlist index called).length ≤ called.length + 1 := by
      rw [enlist]
      split
      · exact Nat.le_succ _
      · exact Nat.le_of_eq List.length_append
    simp only [if_true] at hstays ⊢
    have hfirst : tour.eager = 0 := by omega
    rw [hfirst, if_pos rfl, if_neg (Nat.succ_ne_zero 0)]
    omega

/-- Without effort nobody can be called. -/
theorem called_eq_nil_of_effort (heffort : tour.effort ≤ 0) : tour.called = [] := by
  rw [← List.length_eq_zero_iff]
  rw [effort] at heffort
  omega

/-- The bound of a tour leaves room for all of its effort. -/
theorem effort_le_bound (crowd : Nat) {slots : List (Slot Run)} (hnodup : called.Nodup)
    (hlt : ∀ index ∈ called, index < slots.length) :
    (ofSlots crowd slots called).effort ≤ (ofSlots crowd slots called).bound := by
  have hcalled := length_le_of_nodup hnodup hlt
  have hunanswered := Slot.unanswered_le_length slots
  have hmul := Nat.mul_le_mul_right (slots.length + 2) (Nat.le_add_left 2 slots.length)
  rw [effort, bound, ofSlots]
  simp only [if_true]
  omega

end Tour

/-! ## The steps of a tour -/

section Steps

variable {μ : Type} {crew : Crew μ} {tour : Tour} {index : Nat} {called : List Nat} {below : μ}
  {world : World}

/-- Nobody is called any more. -/
theorem Crew.advanceCalled_nil (hcalled : tour.called = []) (fuel : Nat) :
    crew.advanceCalled fuel tour below world = { result := .ok tour, memory := below, world } := by
  cases fuel with
  | zero => rfl
  | succ fuel => rw [advanceCalled, hcalled]

/-- A child that has answered is passed over. -/
theorem Crew.advanceCalled_skip (hcalled : tour.called = index :: called)
    (hanswer : tour.hasAnswer index = true) (fuel : Nat) :
    crew.advanceCalled (fuel + 1) tour below world =
      crew.advanceCalled fuel { tour with called } below world := by
  have hsame : Tour.hasAnswer { tour with called } index = true := hanswer
  rw [advanceCalled, hcalled]
  dsimp only
  rw [if_pos hsame]

/-- The child that is called first has the turn, and the tour goes on unless that child fails or the
crowd gives way. -/
theorem Crew.advanceCalled_member (hcalled : tour.called = index :: called)
    (hanswer : tour.hasAnswer index = false) (fuel : Nat) :
    crew.advanceCalled (fuel + 1) tour below world =
      let rest : Tour := { tour with called }
      let member := crew.advanceMember rest index below world
      Progress.after (member.journal.map (·.under index)) (member.spawned.map (·.under index))
        member.again <|
        match member.result with
        | .failed fault =>
          { result := .error fault, memory := member.memory, world := member.world }
        | .answered status =>
          crew.advanceCalled fuel (rest.answer index status) member.memory member.world
        | .waiting run =>
          let suspended := rest.suspend index run member.again
          if suspended.givesWay then
            { result := .ok suspended, memory := member.memory, world := member.world,
              again := true }
          else crew.advanceCalled fuel suspended member.memory member.world := by
  have hsame : ¬Tour.hasAnswer { tour with called } index = true := by
    rw [Bool.not_eq_true]
    exact hanswer
  rw [advanceCalled, hcalled]
  dsimp only
  rw [if_neg hsame, Progress.andThen_eq]
  rfl

end Steps

end BehaviorTree
