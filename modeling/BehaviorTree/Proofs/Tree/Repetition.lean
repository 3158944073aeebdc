import BehaviorTree.Proofs.Tree.Effect

/-!
# Trees that do the same again

If what is done with one child can be repeated, then so can everything that a node does with its
children, as long as nothing holds it up: requests one after the other, and all children side by
side. So an execution of a tree of built-in nodes that does not wait can be repeated
(`Tree.repeats`).
-/

namespace BehaviorTree

variable {κ : Type} [Application κ] {ρ τ μ ν : Type}

/-- A stretch of execution can be repeated, and it leaves the memory in order. -/
def Repeatable (number : Nat) (reads written : List String) (holds : μ → Prop) (ended : ρ → Prop)
    (go : World → Progress ρ μ) (world : World) : Prop :=
  holds (go world).memory ∧ ∃ effect, Repeats number reads written ended go world effect

namespace Repeatable

variable {number : Nat} {reads written : List String} {holds : μ → Prop} {ended : ρ → Prop}
  {go inner : World → Progress ρ μ} {world : World}

/-- What only answers can be repeated. -/
theorem still (hready : world.IsReady number) {result : ρ} {memory : μ} {journal : World → Journal}
    (hholds : holds memory) (hended : ended result) :
    Repeatable number reads written holds ended
      (fun world => { result, memory, world, journal := journal world }) world :=
  ⟨hholds, {}, .still hready hended⟩

/-- An effect comes first, and the rest of the stretch can be repeated after it. -/
theorem after {first : Effect} (hready : world.IsReady number)
    (hwaits : first.waits ≤ world.waitsLeft) (hwritten : ∀ write ∈ first.writes, write.1 ∈ written)
    (hfirst : ∀ other, world.Suits number reads other → first.waits ≤ other.waitsLeft →
      (go other).EndsLike (inner (first.on number other)))
    (hinner : Repeatable number reads written holds ended inner (first.on number world)) :
    Repeatable number reads written holds ended go world := by
  obtain ⟨hmemory, effect, hrepeats⟩ := hinner
  have hnow := hfirst world (hready.suits reads) hwaits
  exact ⟨hnow.memory_eq ▸ hmemory, _, .after hready hwaits hwritten hfirst hrepeats⟩

/-- A stretch can be repeated if it ends after an effect wherever it begins. -/
theorem stop {effect : Effect} {result : ρ} {memory : μ} (hready : world.IsReady number)
    (hwaits : effect.waits ≤ world.waitsLeft)
    (hwritten : ∀ write ∈ effect.writes, write.1 ∈ written)
    (hgo : ∀ other, world.Suits number reads other → effect.waits ≤ other.waitsLeft →
      (go other).EndsWith result memory (effect.on number other))
    (hholds : holds memory) (hended : ended result) :
    Repeatable number reads written holds ended go world := by
  have hnow := hgo world (hready.suits reads) hwaits
  refine ⟨hnow.memory_eq ▸ hholds, effect, hready, hnow.result_eq ▸ hended, hwaits, hwritten, ?_⟩
  intro other hsuits hle
  rw [hnow.result_eq, hnow.memory_eq]
  exact hgo other hsuits hle

/-- A child has the turn. If it fails, nothing follows, and what follows its answer can be repeated,
too. -/
theorem afterChild {child : World → Progress Outcome μ} (failure : Fault → ρ)
    (hready : world.IsReady number)
    (hchild : Repeatable number reads written holds Outcome.Ends child world)
    (hfailure : ∀ fault, ended (failure fault))
    (hfailed : ∀ {fault memory other later}, (child other).EndsWith (.failed fault) memory later →
      (go other).EndsWith (failure fault) memory later)
    (hanswered : ∀ status (effect : Effect), effect.waits ≤ world.waitsLeft →
      (∀ other, world.Suits number reads other → effect.waits ≤ other.waitsLeft →
        (child other).EndsWith (.answered status) (child world).memory (effect.on number other)) →
      holds (child world).memory →
        ∃ onward : World → Progress ρ μ,
          (∀ other, world.Suits number reads other → effect.waits ≤ other.waitsLeft →
            (go other).EndsLike (onward (effect.on number other))) ∧
          Repeatable number reads written holds ended onward (effect.on number world)) :
    Repeatable number reads written holds ended go world := by
  obtain ⟨hmemory, effect, hrepeats⟩ := hchild
  have hended : (child world).result.Ends := hrepeats.ended
  have hsame := hrepeats.same
  cases hresult : (child world).result with
  | waiting run =>
    rw [hresult] at hended
    exact hended.elim
  | failed fault =>
    rw [hresult] at hsame
    exact .stop hready hrepeats.waits_le hrepeats.written
      (fun other hsuits hle => hfailed (hsame other hsuits hle)) hmemory (hfailure fault)
  | answered status =>
    rw [hresult] at hsame
    obtain ⟨onward, hgo, honward⟩ := hanswered status effect hrepeats.waits_le hsame hmemory
    exact .after hready hrepeats.waits_le hrepeats.written hgo honward

end Repeatable

/-- Children that run side by side have all answered, or one of them has failed. -/
def AllEnd : Except Fault (List (Slot Run)) → Prop
  | .error _ => True
  | .ok slots => ∀ slot ∈ slots, slot.isAnswered = true

/-- If every slot is an answer, then all have answered. -/
theorem Slot.exists_allAnswered? {slots : List (Slot Run)}
    (hanswered : ∀ slot ∈ slots, slot.isAnswered = true) :
    ∃ statuses, Slot.allAnswered? slots = some statuses := by
  induction slots with
  | nil => exact ⟨[], rfl⟩
  | cons slot slots ih =>
    obtain ⟨hfirst, hrest⟩ := List.forall_mem_cons.mp hanswered
    obtain ⟨statuses, hstatuses⟩ := ih hrest
    cases slot with
    | answered status => exact ⟨status :: statuses, by rw [Slot.allAnswered?, hstatuses]; rfl⟩
    | fresh => cases hfirst
    | waiting run => cases hfirst

/-- If children side by side have come to an end, so has the reply to them. -/
theorem ends_replyOfAll {result : Except Fault (List (Slot Run))} (hends : AllEnd result) :
    (replyOfAll result).Ends := by
  cases result with
  | error fault => trivial
  | ok slots =>
    obtain ⟨statuses, hstatuses⟩ := Slot.exists_allAnswered? hends
    rw [replyOfAll, hstatuses]
    trivial

/-- If a child has come to an end, so has the reply to it. -/
theorem ends_replyOfChild {mark index : Nat} {outcome : Outcome} (hends : outcome.Ends) :
    (replyOfChild mark index outcome).Ends := by
  cases outcome with
  | answered status => trivial
  | waiting run => exact hends
  | failed fault => trivial

namespace Repeats

variable {number : Nat} {reads written : List String} {ended : ρ → Prop} {go : World → Progress ρ μ}
  {world : World} {effect : Effect}

/-- A world is ready after what can be repeated in it. -/
theorem readyAfter (hrepeats : Repeats number reads written ended go world effect) :
    (go world).world.IsReady number := by
  rw [hrepeats.world_eq]
  exact hrepeats.ready.on effect

/-- What can be repeated can be seen from the parent. -/
theorem under (hrepeats : Repeats number reads written ended go world effect) (index : Nat) :
    Repeats number reads written ended (fun world => (go world).under index) world effect where
  ready := hrepeats.ready
  ended := hrepeats.ended
  waits_le := hrepeats.waits_le
  written := hrepeats.written
  same := by
    intro other hsuits hle
    have hsame := hrepeats.same other hsuits hle
    exact ⟨hsame.result_eq, hsame.memory_eq, hsame.world_eq⟩

/-- A stretch without any effect that looks at the clock. -/
theorem atTime (hready : world.IsReady number) (result : ρ) (memory : Nat → μ)
    (journal : World → Journal) (hended : ended result) :
    Repeats number reads written ended
      (fun world => { result, memory := memory world.now, world, journal := journal world }) world
      {} where
  ready := hready
  ended := hended
  waits_le := Nat.zero_le _
  written := List.forall_mem_nil _
  same := fun other hsuits _ =>
    ⟨rfl, congrArg memory hsuits.now_eq, (Effect.on_nothing number other).symm⟩

/-- A stretch in which a child of a crowd has the turn can be repeated. -/
theorem handTo {party : World → Party} (hready : world.IsReady number)
    (hrepeats : Repeats number reads written ended go (world.handTo (party world)) effect) :
    Repeats number reads written ended
      (fun world =>
        { go (world.handTo (party world)) with
          world := (go (world.handTo (party world))).world.handTo world.present })
      world effect where
  ready := hready
  ended := hrepeats.ended
  waits_le := hrepeats.waits_le
  written := hrepeats.written
  same := by
    intro other hsuits hle
    have hhanded : (world.handTo (party world)).Suits number reads (other.handTo (party other)) :=
      ⟨hsuits.ready.handTo _, hsuits.otherReady.handTo _, hsuits.now_eq, hsuits.agrees⟩
    have hsame := hrepeats.same (other.handTo (party other)) hhanded hle
    exact ⟨hsame.result_eq, hsame.memory_eq, by rw [hsame.world_eq]; rfl⟩

end Repeats

/-- A tour in which nobody is suspended, and whoever has not begun is called. -/
structure Tour.IsBeginning (tour : Tour) : Prop where
  /-- No slot has a suspended execution. -/
  run?_eq : ∀ slot ∈ tour.slots, slot.run? = none
  /-- Whoever has not begun is called. -/
  called : ∀ index, tour.slots[index]? = some .fresh → index ∈ tour.called

namespace Tour.IsBeginning

variable {tour : Tour} {index : Nat} {called : List Nat}

/-- Nobody is suspended at the beginning of a tour. -/
theorem run?_none (hbegins : tour.IsBeginning) (index : Nat) : tour.run? index = none := by
  rw [run?]
  cases hslot : tour.slots[index]? with
  | none => rfl
  | some slot => exact hbegins.run?_eq slot (List.mem_of_getElem? hslot)

/-- Whoever has answered need not be called. -/
theorem skip (hbegins : tour.IsBeginning) (hcalled : tour.called = index :: called)
    (hanswer : tour.hasAnswer index = true) : Tour.IsBeginning { tour with called } := by
  refine ⟨hbegins.run?_eq, fun other hother => ?_⟩
  have hmem := hbegins.called other hother
  rw [hcalled] at hmem
  rcases List.mem_cons.mp hmem with rfl | hmem
  · rw [hasAnswer, hother] at hanswer
    cases hanswer
  · exact hmem

/-- An answer leaves nobody suspended. -/
theorem answer (hbegins : tour.IsBeginning) (hcalled : tour.called = index :: called)
    (status : Status) : (Tour.answer { tour with called } index status).IsBeginning := by
  refine ⟨fun slot hmem => ?_, fun other hother => ?_⟩
  · rcases List.mem_or_eq_of_mem_set hmem with hmem | rfl
    · exact hbegins.run?_eq slot hmem
    · rfl
  · have hset : (tour.slots.set index (.answered status))[other]? = some .fresh := hother
    by_cases hindex : index = other
    · subst hindex
      rw [List.getElem?_set_self'] at hset
      cases hslot : tour.slots[index]? <;> simp [hslot] at hset
    · rw [List.getElem?_set_ne hindex] at hset
      have hmem := hbegins.called other hset
      rw [hcalled] at hmem
      exact (List.mem_cons.mp hmem).resolve_left fun heq => hindex heq.symm

/-- When nobody is called any more, all have answered. -/
theorem allEnd (hbegins : tour.IsBeginning) (hcalled : tour.called = []) :
    AllEnd (.ok tour.slots) := by
  intro slot hmem
  cases slot with
  | answered status => rfl
  | waiting run => cases hbegins.run?_eq _ hmem
  | fresh =>
    obtain ⟨index, hindex⟩ := List.mem_iff_getElem?.mp hmem
    have hnone := hbegins.called index hindex
    rw [hcalled] at hnone
    cases hnone

end Tour.IsBeginning

/-- The reply when all have answered is the same whatever number the crowd has. -/
theorem exists_replyOfTour {tour : Tour} (hends : AllEnd (.ok tour.slots)) :
    ∃ statuses, ∀ crowd, replyOfTour (.ok { tour with crowd }) = .signal (.gathered statuses) := by
  obtain ⟨statuses, hstatuses⟩ := Slot.exists_allAnswered? hends
  exact ⟨statuses, fun crowd => by rw [replyOfTour, hstatuses]⟩

/-- The first tour of a crowd. -/
def Tour.beginning (crowd size : Nat) : Tour :=
  .ofSlots crowd (List.replicate size .fresh) (List.range size)

/-- At the beginning of a crowd nobody is suspended and all children are called. -/
theorem Tour.isBeginning_beginning (crowd size : Nat) : (beginning crowd size).IsBeginning := by
  refine ⟨fun slot hmem => ?_, fun index hindex => ?_⟩
  · rw [List.eq_of_mem_replicate hmem]
    rfl
  · have hlt : index < (List.replicate size (Slot.fresh : Slot Run)).length :=
      (List.getElem?_eq_some_iff.mp hindex).1
    rw [List.length_replicate] at hlt
    exact List.mem_range.mpr hlt

/-- The bound of a tour at its beginning lets each child have its turn. -/
theorem Tour.le_bound_beginning (crowd size : Nat) : size ≤ (beginning crowd size).bound := by
  have hslots : (beginning crowd size).slots.length = size := List.length_replicate
  rw [bound, hslots]
  exact Nat.le_trans (Nat.le_add_right size 2) (Nat.le_mul_self _)

/-- The tour of a crowd that was formed when so many crowds fewer had been formed. -/
def Tour.formedBefore (tour : Tour) (crowds : Nat) (world : World) : Tour :=
  { tour with crowd := world.crowdsFormed - crowds }

/-- A tour has the same crowd after an effect that forms so many more crowds. -/
theorem Tour.formedBefore_on (tour : Tour) (crowds number : Nat) (effect : Effect) (world : World) :
    tour.formedBefore (crowds + effect.crowds) (effect.on number world) =
      tour.formedBefore crowds world := by
  have hcrowd : (effect.on number world).crowdsFormed - (crowds + effect.crowds) =
      world.crowdsFormed - crowds := Nat.add_sub_add_right _ _ _
  rw [formedBefore, hcrowd]
  rfl

namespace Crew

variable {crew : Crew μ} {number : Nat} {reads written : List String} {holds : μ → Prop} {below : μ}
  {world : World}

/-! Children side by side, step by step. -/

/-- If the first child answers, then the others have their turns after it. -/
theorem advanceEach_answered {count start : Nat} {slots : List (Slot Run)} {status : Status}
    {memory : μ} {later : World}
    (hchild : (crew.advance start none below world).EndsWith (.answered status) memory later) :
    (advanceEach crew.advance (count + 1) start (.fresh :: slots) below world).EndsLike
      ((advanceEach crew.advance count (start + 1) slots memory later).map
        (·.map (.answered status :: ·)) id) := by
  rw [advanceEach_cons rfl]
  exact (hchild.under start).andThen _

/-- If the first child fails, then no other child has a turn. -/
theorem advanceEach_failed {count start : Nat} {slots : List (Slot Run)} {fault : Fault}
    {memory : μ} {later : World}
    (hchild : (crew.advance start none below world).EndsWith (.failed fault) memory later) :
    (advanceEach crew.advance (count + 1) start (.fresh :: slots) below world).EndsWith
      (.error fault) memory later := by
  rw [advanceEach_cons rfl]
  exact (hchild.under start).andThen _

/-- If the child that is called answers, then the tour goes on after it. -/
theorem advanceCalled_answered {tour : Tour} {index : Nat} {called : List Nat} {status : Status}
    {memory : μ} {later : World} (hcalled : tour.called = index :: called)
    (hanswer : tour.hasAnswer index = false) (fuel : Nat)
    (hmember : (crew.advanceMember { tour with called } index below world).EndsWith
      (.answered status) memory later) :
    (crew.advanceCalled (fuel + 1) tour below world).EndsLike
      (crew.advanceCalled fuel (Tour.answer { tour with called } index status) memory later) := by
  rw [advanceCalled_member hcalled hanswer]
  dsimp only
  rw [hmember.result_eq, hmember.memory_eq, hmember.world_eq]
  exact ⟨rfl, rfl, rfl⟩

/-- If the child that is called fails, then the tour ends with its fault. -/
theorem advanceCalled_failed {tour : Tour} {index : Nat} {called : List Nat} {fault : Fault}
    {memory : μ} {later : World} (hcalled : tour.called = index :: called)
    (hanswer : tour.hasAnswer index = false) (fuel : Nat)
    (hmember : (crew.advanceMember { tour with called } index below world).EndsWith
      (.failed fault) memory later) :
    (crew.advanceCalled (fuel + 1) tour below world).EndsWith (.error fault) memory later := by
  rw [advanceCalled_member hcalled hanswer]
  dsimp only
  rw [hmember.result_eq, hmember.memory_eq, hmember.world_eq]
  exact ⟨rfl, rfl, rfl⟩

/-- A few children are begun by advancing them all. -/
theorem beginAll_few {size : Nat} (hfew : size ≤ few) :
    crew.beginAll size below world =
      (crew.advanceAll (List.replicate size .fresh) below world).map replyOfAll id := by
  rw [beginAll, if_pos hfew]

/-- Many children are begun by a tour of their crowd. -/
theorem beginAll_many {size : Nat} (hmany : ¬size ≤ few) :
    crew.beginAll size below world =
      (crew.advanceCalled (Tour.beginning world.formCrowd.1 size).bound
        (.beginning world.formCrowd.1 size) below world.formCrowd.2).map replyOfTour id := by
  rw [beginAll, if_neg hmany]
  rfl

/-- An execution of a child that does not wait can be repeated. -/
structure CanRepeat (crew : Crew μ) (number : Nat) (reads written : List String)
    (holds : μ → Prop) : Prop where
  /-- An execution of a child that puts no wait off and starts no timer can be repeated. -/
  advance : ∀ index below world, holds below → world.IsReady number →
    (crew.advance index none below world).world.delays = world.delays →
      Repeatable number reads written holds Outcome.Ends (crew.advance index none below) world
  /-- Waits that were put off and timers that were started are not forgotten. -/
  leads : Course.delayed.Leads crew
  /-- An abort leaves the memory in order. -/
  abort : ∀ now index below, holds below → holds (crew.abort now index below).1
  /-- A reset leaves the memory in order. -/
  reset : ∀ now index below, holds below → holds (crew.reset now index below).1

namespace CanRepeat

/-- Advancing children that have not begun, one after the other, can be repeated. -/
theorem advanceEach (hcrew : crew.CanRepeat number reads written holds) (count start size : Nat)
    (hholds : holds below) (hready : world.IsReady number)
    (hdelays : (BehaviorTree.advanceEach crew.advance count start (List.replicate size .fresh) below
      world).world.delays = world.delays) :
    Repeatable number reads written holds AllEnd
      (BehaviorTree.advanceEach crew.advance count start (List.replicate size .fresh) below)
      world := by
  induction count generalizing start size below world with
  | zero => exact .still hready hholds (List.forall_mem_nil _)
  | succ count ih =>
    cases size with
    | zero => exact .still hready hholds (List.forall_mem_nil _)
    | succ size =>
      let child : World → Progress Outcome μ := crew.advance start none below
      let slots : List (Slot Run) := List.replicate size .fresh
      have hsame : (child world).world.delays = world.delays :=
        Nat.le_antisymm (hdelays ▸ hcrew.leads.afterFirst count start slots below world)
          (hcrew.leads.advance start none below world)
      rw [List.replicate_succ] at hdelays ⊢
      refine .afterChild .error hready (hcrew.advance start below world hholds hready hsame)
        (fun _ => trivial) advanceEach_failed fun status effect hwaits hchild hmemory => ?_
      let onward : World → Progress (Except Fault (List (Slot Run))) μ :=
        BehaviorTree.advanceEach crew.advance count (start + 1) slots (child world).memory
      have hgo : ∀ other, world.Suits number reads other → effect.waits ≤ other.waitsLeft →
          (BehaviorTree.advanceEach crew.advance (count + 1) start (.fresh :: slots) below
            other).EndsLike
              ((onward (effect.on number other)).map (·.map (.answered status :: ·)) id) :=
        fun other hsuits hle => advanceEach_answered (hchild other hsuits hle)
      have hnow := hgo world (hready.suits reads) hwaits
      have honward : (onward (effect.on number world)).world.delays =
          (effect.on number world).delays := hnow.world_eq ▸ hdelays
      obtain ⟨hlast, later, hrest⟩ := ih (start + 1) size hmemory (hready.on effect) honward
      refine ⟨fun later => (onward later).map (·.map (.answered status :: ·)) id, hgo, hlast, later,
        hrest.map _ _ ?_⟩
      have hends : AllEnd (onward (effect.on number world)).result := hrest.ended
      cases hslots : (onward (effect.on number world)).result with
      | error fault => trivial
      | ok slots =>
        rw [hslots] at hends
        exact List.forall_mem_cons.mpr ⟨rfl, hends⟩

/-- The turn of a child of a crowd that has not begun can be repeated. -/
theorem advanceMember (hcrew : crew.CanRepeat number reads written holds) (crowds : Nat)
    {tour : Tour} {index : Nat} (hrun : tour.run? index = none) (hholds : holds below)
    (hready : world.IsReady number)
    (hdelays : (crew.advanceMember (tour.formedBefore crowds world) index below
      world).world.delays = world.delays) :
    Repeatable number reads written holds Outcome.Ends
      (fun world => crew.advanceMember (tour.formedBefore crowds world) index below world)
      world := by
  let party : World → Party := fun world => .member (world.crowdsFormed - crowds) index
  have hmember : ∀ other, crew.advanceMember (tour.formedBefore crowds other) index below other =
      { crew.advance index none below (other.handTo (party other)) with
        world := (crew.advance index none below (other.handTo (party other))).world.handTo
          other.present } := by
    intro other
    have hnone : (tour.formedBefore crowds other).run? index = none := hrun
    rw [Crew.advanceMember, hnone]
    rfl
  rw [hmember] at hdelays
  obtain ⟨hmemory, effect, hrepeats⟩ :=
    hcrew.advance index below (world.handTo (party world)) hholds (hready.handTo _) hdelays
  simp only [hmember]
  exact ⟨hmemory, effect, hrepeats.handTo hready⟩

/-- A tour at whose beginning nobody is suspended can be repeated. -/
theorem advanceCalled (hcrew : crew.CanRepeat number reads written holds) {fuel : Nat}
    (crowds : Nat) {tour : Tour} (hbegins : tour.IsBeginning) (hfuel : tour.called.length ≤ fuel)
    (hholds : holds below) (hready : world.IsReady number)
    (hdelays : (crew.advanceCalled fuel (tour.formedBefore crowds world) below
      world).world.delays = world.delays) :
    Repeatable number reads written holds Reply.Ends
      (fun world => (crew.advanceCalled fuel (tour.formedBefore crowds world) below world).map
        replyOfTour id) world := by
  -- a tour that is left with a shorter list of those called
  induction hcalled : tour.called generalizing tour fuel crowds below world with
  | nil =>
    obtain ⟨statuses, hreply⟩ := exists_replyOfTour (hbegins.allEnd hcalled)
    have hgo : (fun world => (crew.advanceCalled fuel (tour.formedBefore crowds world) below
        world).map replyOfTour id) = fun world =>
          { result := .signal (.gathered statuses), memory := below, world } := by
      funext other
      have hnone : (tour.formedBefore crowds other).called = [] := hcalled
      rw [advanceCalled_nil hnone, ← hreply (other.crowdsFormed - crowds)]
      rfl
    rw [hgo]
    exact .still hready hholds trivial
  | cons index called ih =>
    rw [hcalled, List.length_cons] at hfuel
    obtain ⟨fuel, rfl⟩ : ∃ rest, fuel = rest + 1 := ⟨fuel - 1, by omega⟩
    have hshort : called.length ≤ fuel := Nat.le_of_succ_le_succ hfuel
    have hfirst : ∀ other, (tour.formedBefore crowds other).called = index :: called :=
      fun _ => hcalled
    let rest : Tour := { tour with called }
    cases hanswer : tour.hasAnswer index with
    | true =>
      have hskip : ∀ other, crew.advanceCalled (fuel + 1) (tour.formedBefore crowds other) below
          other = crew.advanceCalled fuel (rest.formedBefore crowds other) below other :=
        fun other => advanceCalled_skip (hfirst other) hanswer fuel
      rw [hskip] at hdelays
      simp only [hskip]
      exact ih crowds (hbegins.skip hcalled hanswer) hshort hholds hready hdelays rfl
    | false =>
      let member : World → Progress Outcome μ := fun world =>
        crew.advanceMember (rest.formedBefore crowds world) index below world
      have hsame : (member world).world.delays = world.delays :=
        Nat.le_antisymm
          (hdelays ▸ hcrew.leads.afterMember (hfirst world) hanswer fuel below world)
          (hcrew.leads.advanceMember _ index below world)
      refine .afterChild (fun fault => .stop (.failed fault)) hready
        (hcrew.advanceMember crowds (hbegins.run?_none index) hholds hready hsame)
        (fun _ => trivial) (fun hfailed => ?_) fun status effect hwaits hmember hmemory => ?_
      · have hwhole := advanceCalled_failed (hfirst _) hanswer fuel hfailed
        exact ⟨congrArg replyOfTour hwhole.result_eq, hwhole.memory_eq, hwhole.world_eq⟩
      · let answered : Tour := rest.answer index status
        let onward : World → Progress (Except Fault Tour) μ := fun later =>
          crew.advanceCalled fuel (answered.formedBefore (crowds + effect.crowds) later)
            (member world).memory later
        have hgo : ∀ other, world.Suits number reads other → effect.waits ≤ other.waitsLeft →
            (crew.advanceCalled (fuel + 1) (tour.formedBefore crowds other) below other).EndsLike
              (onward (effect.on number other)) := by
          intro other hsuits hle
          have honward : onward (effect.on number other) =
              crew.advanceCalled fuel (answered.formedBefore crowds other) (member world).memory
                (effect.on number other) :=
            congrArg (crew.advanceCalled fuel · _ _)
              (answered.formedBefore_on crowds number effect other)
          rw [honward]
          exact advanceCalled_answered (hfirst other) hanswer fuel (hmember other hsuits hle)
        have hnow := hgo world (hready.suits reads) hwaits
        have honward : (onward (effect.on number world)).world.delays =
            (effect.on number world).delays := hnow.world_eq ▸ hdelays
        exact ⟨_, fun other hsuits hle => (hgo other hsuits hle).map replyOfTour id,
          ih (crowds + effect.crowds) (hbegins.answer hcalled status) hshort hmemory
            (hready.on effect) honward rfl⟩

/-- Running all children side by side can be repeated. -/
theorem beginAll (hcrew : crew.CanRepeat number reads written holds) (size : Nat)
    (hholds : holds below) (hready : world.IsReady number)
    (hdelays : (crew.beginAll size below world).world.delays = world.delays) :
    Repeatable number reads written holds Reply.Ends (crew.beginAll size below) world := by
  by_cases hfew : size ≤ few
  · obtain ⟨count, heach⟩ := hcrew.leads.sideBySide
    have hgo : crew.beginAll size below = fun world =>
        (BehaviorTree.advanceEach crew.advance count 0 (List.replicate size .fresh) below
          world).map replyOfAll id := by
      funext other
      rw [beginAll_few hfew, heach]
    rw [hgo] at hdelays ⊢
    obtain ⟨hmemory, effect, hrepeats⟩ := hcrew.advanceEach count 0 size hholds hready hdelays
    exact ⟨hmemory, effect, hrepeats.map _ _ (ends_replyOfAll hrepeats.ended)⟩
  · -- the crowd is formed first
    let formed : Effect := { crowds := 1 }
    let tour : Tour := .beginning 0 size
    let onward : World → Progress Reply μ := fun later =>
      (crew.advanceCalled tour.bound (tour.formedBefore 1 later) below later).map replyOfTour id
    have hgo : ∀ other, crew.beginAll size below other = onward (formed.on number other) := by
      intro other
      rw [beginAll_many hfew, ← formCrowd_eq]
      rfl
    have hbegins : tour.IsBeginning := Tour.isBeginning_beginning 0 size
    have hfuel : tour.called.length ≤ tour.bound := by
      have hcalled : tour.called.length = size := List.length_range
      rw [hcalled]
      exact Tour.le_bound_beginning 0 size
    rw [hgo] at hdelays
    have hrest := hcrew.advanceCalled 1 hbegins hfuel hholds (hready.on formed) hdelays
    refine .after hready (Nat.zero_le _) (List.forall_mem_nil _) (fun other _ _ => ?_) hrest
    rw [hgo]
    exact .rfl

/-- Serving a request without waiting can be repeated. -/
theorem serve (hcrew : crew.CanRepeat number reads written holds) (size : Nat) (request : Request)
    (hholds : holds below) (hready : world.IsReady number)
    (hdelays : (crew.serve size request below world).world.delays = world.delays) :
    Repeatable number reads written holds Reply.Ends (crew.serve size request below) world := by
  cases request with
  | finish status => exact .still hready hholds trivial
  | crash => exact .still hready hholds trivial
  | run mark index =>
    obtain ⟨hmemory, effect, hrepeats⟩ := hcrew.advance index below world hholds hready hdelays
    exact ⟨hmemory, effect, (hrepeats.under index).map _ _ (ends_replyOfChild hrepeats.ended)⟩
  | runAll => exact hcrew.beginAll size hholds hready hdelays
  | sleep mark duration =>
    have hmemory : holds (crew.serve size (.sleep mark duration) below world).memory := by
      rw [Crew.serve, memory_attend]
      exact hholds
    exact ⟨hmemory, _, repeats_sleep mark duration below hready hdelays⟩
  | race index limit =>
    have hmemory : holds (crew.serve size (.race index limit) below world).memory := by
      rw [Crew.serve, Progress.memory_after, memory_attend]
      exact hholds
    exact ⟨hmemory, _, repeats_race size index limit crew below hready hdelays⟩
  | resetChild index =>
    exact ⟨hcrew.reset _ index below hholds, {}, .atTime hready (Reply.signal .childReset)
      (fun now => (crew.reset now index below).1)
      (fun world => (crew.reset world.now index below).2.map (·.under index)) trivial⟩
  | abortChild index =>
    exact ⟨hcrew.abort _ index below hholds, {}, .atTime hready (Reply.signal .childAborted)
      (fun now => (crew.abort now index below).1)
      (fun world => (crew.abort world.now index below).2.map (·.under index)) trivial⟩

/-- Driving a node of a built-in type without waiting can be repeated. -/
theorem drive (hcrew : crew.CanRepeat number reads written holds) {kind : Kind κ}
    (hrelays : kind.relays) (hreads : kind.read ⊆ reads) (hwritten : kind.written ⊆ written)
    (name : String) (size fuel : Nat) {reply : Reply} (hreply : reply.Ends)
    {cell : Cell kind.State} (hcell : cell.binding = .shared number) (hholds : holds below)
    (hready : world.IsReady number)
    (hdelays : (crew.drive name kind size fuel reply cell below world).world.delays =
      world.delays) :
    Repeatable number reads written
      (fun memory : Cell kind.State × μ => memory.1.binding = .shared number ∧ holds memory.2)
      Outcome.Ends (crew.drive name kind size fuel reply cell below) world := by
  induction fuel generalizing reply cell below world with
  | zero =>
    cases reply with
    | signal signal => exact .still hready ⟨hcell, hholds⟩ trivial
    | stop outcome =>
      have hends : outcome.Ends := by cases outcome <;> exact hreply
      exact .still hready ⟨hcell, hholds⟩ hends
  | succ fuel ih =>
    cases reply with
    | stop outcome =>
      have hends : outcome.Ends := by cases outcome <;> exact hreply
      exact .still hready ⟨hcell, hholds⟩ hends
    | signal signal =>
      -- the node writes, and then its request is served
      let move := kind.respond ⟨name, size, world.now, world.context (.shared number)⟩ cell.state
        signal
      let wrote : Effect := { writes := move.writes }
      let served : World → Progress Reply μ := crew.serve size move.request below
      let onward : World → Progress Outcome (Cell kind.State × μ) := fun later =>
        (served later).andThen
          (crew.drive name kind size fuel · ⟨move.state, .shared number⟩ · ·)
      have hgo : ∀ other, world.Suits number reads other → wrote.waits ≤ other.waitsLeft →
          (crew.drive name kind size (fuel + 1) (.signal signal) cell below other).EndsLike
            (onward (wrote.on number other)) := by
        intro other hsuits _
        have hmove : kind.respond ⟨name, size, other.now, other.context (.shared number)⟩
            cell.state signal = move := by
          rw [hsuits.now_eq]
          exact Kind.respond_congr hrelays (hsuits.agrees.mono hreads) cell.state signal
        have hworld : other.write (.shared number) move.writes =
            (wrote.on number other, .shared number) := rfl
        rw [Crew.drive_signal, hcell]
        dsimp only
        rw [hmove, hworld]
        exact ⟨rfl, rfl, rfl⟩
      have hnow := hgo world (hready.suits reads) (Nat.zero_le _)
      rw [hnow.world_eq] at hdelays
      have hserved := hcrew.leads.serve size move.request below (wrote.on number world)
      have hdriven := hcrew.leads.drive name kind size fuel (served (wrote.on number world)).result
        ⟨move.state, .shared number⟩ (served (wrote.on number world)).memory
        (served (wrote.on number world)).world
      have hsame : (served (wrote.on number world)).world.delays = (wrote.on number world).delays :=
        Nat.le_antisymm (hdelays ▸ hdriven) hserved
      obtain ⟨hmemory, effect, hrepeats⟩ :=
        hcrew.serve size move.request hholds (hready.on wrote) hsame
      have hbinding : (⟨move.state, .shared number⟩ : Cell kind.State).binding = .shared number :=
        rfl
      obtain ⟨hlast, later, hlater⟩ := ih hrepeats.ended hbinding hmemory hrepeats.readyAfter
        (hdelays.trans hsame.symm)
      have hwrites : ∀ write ∈ wrote.writes, write.1 ∈ written := fun write hmem =>
        hwritten (Kind.mem_written_of_mem_writes hrelays hmem)
      exact .after hready (Nat.zero_le _) hwrites hgo ⟨hlast, _, hrepeats.andThen hlater⟩

end CanRepeat

end Crew

/-! ## Trees -/

/-- An execution of a tree that does not wait can be repeated. -/
def Tree.CanRepeat (tree : Tree κ) (number : Nat) : Prop :=
  ∀ (memory : Memory tree) (world : World), memory.IsBoundTo number → world.IsReady number →
    (advance tree none memory world).world.delays = world.delays →
      Repeatable number tree.read tree.written (·.IsBoundTo number) Outcome.Ends
        (advance tree none memory) world

/-- An execution of one child that does not wait can be repeated if one of each tree can. -/
theorem repeatable_advanceChild {trees : List (Tree κ)} {number : Nat}
    (htrees : ∀ tree ∈ trees, tree.CanRepeat number) (index : Nat) {below : Memories trees}
    {world : World} (hbound : below.AreBoundTo number) (hready : world.IsReady number)
    (hdelays : (advanceChild trees index none below world).world.delays = world.delays) :
    Repeatable number (Tree.readByAll trees) (Tree.writtenByAll trees) (·.AreBoundTo number)
      Outcome.Ends (advanceChild trees index none below) world := by
  induction trees generalizing index with
  | nil =>
    cases below
    exact ⟨trivial, {}, .still hready trivial⟩
  | cons tree trees ih =>
    obtain ⟨htree, hothers⟩ := List.forall_mem_cons.mp htrees
    cases below with
    | cons first rest =>
      cases index with
      | zero =>
        obtain ⟨hmemory, effect, hrepeats⟩ := htree first world hbound.1 hready hdelays
        have hmapped := hrepeats.map id (Memories.cons · rest) hrepeats.ended
        exact ⟨⟨hmemory, hbound.2⟩, effect, hmapped.mono (List.subset_append_left _ _)
          (List.subset_append_left _ _)⟩
      | succ index =>
        obtain ⟨hmemory, effect, hrepeats⟩ := ih hothers index hbound.2 hdelays
        have hmapped := hrepeats.map id (Memories.cons first ·) hrepeats.ended
        exact ⟨⟨hbound.1, hmemory⟩, effect, hmapped.mono (List.subset_append_right _ _)
          (List.subset_append_right _ _)⟩

/-- The executions of children that do not wait can be repeated if those of each tree can. -/
theorem canRepeat_crewOf {children : List (Tree κ)} {number : Nat} {reads written : List String}
    (hchildren : ∀ tree ∈ children, tree.CanRepeat number)
    (hreads : Tree.readByAll children ⊆ reads) (hwritten : Tree.writtenByAll children ⊆ written) :
    (crewOf children).CanRepeat number reads written (·.AreBoundTo number) where
  advance := by
    intro index below world hbound hready hdelays
    obtain ⟨hmemory, effect, hrepeats⟩ :=
      repeatable_advanceChild hchildren index hbound hready hdelays
    exact ⟨hmemory, effect, hrepeats.mono hreads hwritten⟩
  leads := Course.delayed.leads_crewOf children
  abort := fun now index _ hbound => hbound.abortChild now index
  reset := fun now index _ hbound => hbound.resetChild now index

/-- An execution of a tree of built-in nodes that does not wait can be repeated. -/
theorem Tree.canRepeat (number : Nat) (tree : Tree κ) (hbuiltIn : tree.IsBuiltIn) :
    tree.CanRepeat number := by
  induction tree using Tree.nodeInduction with
  | node name kind children ih =>
    intro memory world hbound hready hdelays
    cases memory with
    | node cell below =>
      have hchildren : ∀ tree ∈ children, tree.CanRepeat number := fun tree hmem =>
        ih tree hmem (Tree.isBuiltIn_of_mem hbuiltIn.2 tree hmem)
      have hcrew : (crewOf children).CanRepeat number (kind.read ++ Tree.readByAll children)
          (kind.written ++ Tree.writtenByAll children) (·.AreBoundTo number) :=
        canRepeat_crewOf hchildren (List.subset_append_right _ _) (List.subset_append_right _ _)
      have hstarted : (Reply.signal .started).Ends := trivial
      obtain ⟨hmemory, effect, hrepeats⟩ := hcrew.drive hbuiltIn.1 (List.subset_append_left _ _)
        (List.subset_append_left _ _) name children.length (kind.allowance children.length) hstarted
        hbound.1 hbound.2 hready hdelays
      let node : Cell kind.State × Memories children → Memory ⟨name, kind, children⟩ :=
        fun memory => .node memory.1 memory.2
      have hnode := hrepeats.map id node hrepeats.ended
      rw [Tree.read, Tree.written]
      exact ⟨hmemory, effect, hready, hrepeats.ended, hrepeats.waits_le, hrepeats.written,
        fun other hsuits hle => ⟨(hnode.same other hsuits hle).result_eq,
          (hnode.same other hsuits hle).memory_eq, (hnode.same other hsuits hle).world_eq⟩⟩

end BehaviorTree
