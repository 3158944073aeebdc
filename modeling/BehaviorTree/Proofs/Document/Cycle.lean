import BehaviorTree.Proofs.Document.Visit
import Mathlib.Logic.Relation

/-!
# Cycles of references

The trees that are being built have different names, and all of them but the main tree were
found in the index, so no more of them than the index holds are nested in the main tree. A
cycle is reported as the names on the way to the reference that closes it.
-/

namespace BehaviorTree

namespace Loader

open TreeIndex

variable {κ : Type} [Application κ]

/-! ## The trees being built -/

/-- The names of the trees being built differ by more than the case of letters. -/
theorem Reached.names_pairwise {loader : Loader κ} {root : Element} {visit : Visit}
    (hreached : Reached loader root visit) :
    visit.names.Pairwise fun name other => Text.sameName name other = false := by
  induction hreached with
  | start => exact List.pairwise_singleton _ _
  | step _ hstep ih =>
    cases hstep with
    | child => exact ih
    | @expansion id copy position _ hresolve _ =>
      obtain ⟨_, hclosed, _⟩ := resolve_eq_ok_iff.mp hresolve
      refine List.pairwise_cons.mpr ⟨fun other hother => ?_, ih⟩
      rw [Text.sameName_comm]
      exact Bool.eq_false_iff.mpr fun hsame =>
        Bool.false_ne_true (hclosed.symm.trans (List.any_eq_true.mpr ⟨other, hother, hsame⟩))

/-- The outermost tree is the main tree, and every other one is the definition that its name
refers to. -/
theorem Reached.exists_frames_eq {loader : Loader κ} {root : Element} {visit : Visit}
    (hreached : Reached loader root visit) :
    ∃ opened main position, visit.frames = opened ++ [⟨mainId main, position⟩] ∧
      mainPosition? root = some position ∧ (definitions root)[position]? = some main ∧
      ∀ frame ∈ opened, definitionAt? root frame.name = some frame.position := by
  induction hreached with
  | @start position main _ _ _ hposition hmain _ =>
    exact ⟨[], main, position, rfl, hposition, hmain, by simp⟩
  | step _ hstep ih =>
    obtain ⟨opened, main, position, hframes, hposition, hmain, hopened⟩ := ih
    cases hstep with
    | child => exact ⟨opened, main, position, hframes, hposition, hmain, hopened⟩
    | @expansion id copy found _ _ hfound =>
      refine ⟨⟨id, found⟩ :: opened, main, position, by rw [hframes]; rfl, hposition, hmain, ?_⟩
      exact List.forall_mem_cons.mpr ⟨hfound, hopened⟩

/-- Each tree that is opened uses up a definition. -/
theorem Reached.length_add_unopened_le {loader : Loader κ} {root : Element} {visit : Visit}
    (hreached : Reached loader root visit) :
    visit.names.length + (ofRoot root).1.unopened visit.names ≤
      (ofRoot root).1.trees.length + 1 := by
  induction hreached with
  | @start position main element rest =>
    have hle := unopened_le (ofRoot root).1 [mainId main]
    simp only [Visit.names, List.map_cons, List.map_nil, List.length_singleton]
    omega
  | step _ hstep ih =>
    cases hstep with
    | child => exact ih
    | @expansion id copy position _ hresolve _ =>
      obtain ⟨_, hclosed, _, hopens, _⟩ := resolve_eq_ok_iff.mp hresolve
      have hlt := unopened_cons_lt hclosed hopens
      simp only [Visit.names, List.map_cons, List.length_cons] at ih hlt ⊢
      omega

/-- Each tree was opened by a reference in the tree around it. -/
theorem Reached.exists_reference {loader : Loader κ} {root : Element} {visit : Visit}
    (hreached : Reached loader root visit) {above below : List String} {name next : String}
    (hnames : visit.names = above ++ next :: name :: below) :
    ∃ earlier, Reached loader root earlier ∧ earlier.names = name :: below ∧
      isReference earlier.element = true ∧ referenceId? earlier.element = some next := by
  induction hreached generalizing above with
  | start =>
    have hlength := congrArg List.length hnames
    simp only [Visit.names, List.map_cons, List.map_nil, List.length_append, List.length_cons,
      List.length_nil] at hlength
    omega
  | @step visit _ hreached hstep ih =>
    cases hstep with
    | child => exact ih hnames
    | @expansion id copy position hreference hresolve _ =>
      cases above with
      | nil =>
        obtain ⟨hid, htail⟩ := List.cons.inj hnames
        obtain ⟨hmention, _⟩ := resolve_eq_ok_iff.mp hresolve
        exact ⟨visit, hreached, htail, hreference, by rw [hmention, ← hid]⟩
      | cons _ above => exact ih (List.cons.inj hnames).2

/-- The expansion of references up to a depth. What lies deeper is expanded in some other
way. -/
def expandWithin (loader : Loader κ) (index : TreeIndex) (beyond : Element → Load (Tree κ)) :
    Nat → List String → Element → Load (Tree κ)
  | 0, _, element => beyond element
  | depth + 1, names, element =>
    match resolve index names element with
    | .error error => Load.fail error
    | .ok (id, root) => do
      if hasRemap element then
        Load.note [.notice (.remapIgnored id)]
      loader.loadElement (loader.expandWithin index beyond depth (id :: names)) root

/-- Nothing lies deeper than the number of definitions that can still be opened. -/
theorem expandWithin_eq (loader : Loader κ) {index : TreeIndex}
    (beyond : Element → Load (Tree κ)) {depth : Nat} {names : List String}
    (hdepth : index.unopened names < depth) :
    loader.expandWithin index beyond depth names = loader.expandReference index names := by
  induction depth generalizing names with
  | zero => omega
  | succ depth ih =>
    funext element
    rw [expandWithin, expandReference_eq]
    cases hresolve : resolve index names element with
    | error error => rfl
    | ok found =>
      obtain ⟨_, hclosed, _, hopens, _⟩ := resolve_eq_ok_iff.mp hresolve
      have hlt := unopened_cons_lt hclosed hopens
      dsimp only
      rw [ih (by omega)]

/-! ## The report of a cycle -/

/-- What the names in the report of a cycle mean: the first is that of the main tree, each
following one is given by a reference in the tree before it, and the last one repeats exactly
one of the others up to the case of letters. -/
structure CycleReport (loader : Loader κ) (root : Element) (path : List String) : Prop where
  /-- The first name is that of the main tree. -/
  starts : ∃ main, (mainTree root).result = .ok main ∧ path.head? = some (mainId main)
  /-- Each name after that is given by a reference that is met while the trees before it are
  built. -/
  follows : ∀ before name next after, path = before ++ name :: next :: after →
    ∃ visit, Reached loader root visit ∧ visit.names = name :: before.reverse ∧
      isReference visit.element = true ∧ referenceId? visit.element = some next
  /-- The last name is that of exactly one tree being built. -/
  repeats : ∃ last, path.getLast? = some last ∧
    path.dropLast.countP (fun name => Text.sameName name last) = 1

/-- Among names that differ by more than the case of letters, one in use is used once. -/
theorem countP_sameName_eq_one {names : List String} {id : String}
    (hpairwise : names.Pairwise fun name other => Text.sameName name other = false)
    (hused : isOpen names id = true) :
    names.countP (fun name => Text.sameName name id) = 1 := by
  induction names with
  | nil => cases hused
  | cons name rest ih =>
    obtain ⟨hname, hrest⟩ := List.pairwise_cons.mp hpairwise
    rw [isOpen_cons] at hused
    cases hsame : Text.sameName name id with
    | true =>
      have hzero : rest.countP (fun other => Text.sameName other id) = 0 := by
        rw [List.countP_eq_zero]
        intro other hother hother'
        rw [Text.sameName_comm, ← Text.sameName_congr hsame, hname other hother] at hother'
        cases hother'
      rw [List.countP_cons, hzero, if_pos hsame]
    | false =>
      rw [hsame, Bool.false_or] at hused
      rw [List.countP_cons, ih hrest hused, hsame]
      rfl

/-- Where an alarm is raised, the names on the way to it make up a report. -/
theorem Reached.cycleReport {loader : Loader κ} {root : Element} {visit : Visit} {id : String}
    (hreached : Reached loader root visit) (halarm : visit.Alarm id) :
    CycleReport loader root (id :: visit.names).reverse := by
  obtain ⟨opened, main, position, hframes, hposition, hmain, _⟩ := hreached.exists_frames_eq
  refine ⟨⟨main, result_mainTree_eq_ok_iff.mpr ⟨position, hposition, hmain⟩, ?_⟩, ?_, ?_⟩
  · simp [Visit.names, hframes]
  · intro before name next after hpath
    have hnames : id :: visit.names = after.reverse ++ next :: name :: before.reverse := by
      have h := congrArg List.reverse hpath
      simpa using h
    rcases List.cons_eq_append_iff.mp hnames with ⟨_, heq⟩ | ⟨above, _, heq⟩
    · obtain ⟨hid, hbelow⟩ := List.cons.inj heq
      exact ⟨visit, hreached, hbelow.symm, halarm.reference, by rw [halarm.mention, ← hid]⟩
    · exact hreached.exists_reference heq
  · refine ⟨id, by simp, ?_⟩
    rw [List.reverse_cons, List.dropLast_concat, List.countP_reverse]
    exact countP_sameName_eq_one hreached.names_pairwise halarm.used

/-- Cycle detection is complete. The trees being built have different names, all but the main
tree are in the index, and so they are at most one more than the index holds. No chain of
visits is endless, what would be nested more deeply has no influence, and the report of a
cycle lists the names on the way to the reference that closes it. -/
theorem load_ends (loader : Loader κ) (root : Element) :
    (∀ visit, Reached loader root visit →
      visit.names.Pairwise (fun name other => Text.sameName name other = false) ∧
      (∀ name ∈ visit.names.dropLast, ((ofRoot root).1.get? name).isSome) ∧
      visit.names.length ≤ (ofRoot root).1.trees.length + 1) ∧
    (WellFounded fun next visit => Step loader root visit next) ∧
    (∀ main beyond,
      loader.expandWithin (ofRoot root).1 beyond ((ofRoot root).1.trees.length + 1) [main] =
        loader.expandReference (ofRoot root).1 [main]) ∧
    ((∃ tree, (loader.load root).result = .ok tree) ∨
      ∃ error, (loader.load root).result = .error error) ∧
    ∀ path, (loader.load root).result = .error (.subtreeCycle path) →
      CycleReport loader root path := by
  refine ⟨fun visit hreached => ⟨hreached.names_pairwise, ?_, ?_⟩, wellFounded_step loader root,
    fun main beyond => ?_, ?_, fun path herror => ?_⟩
  · obtain ⟨opened, main, position, hframes, _, _, hopened⟩ := hreached.exists_frames_eq
    intro name hname
    simp only [Visit.names, hframes, List.map_append, List.map_cons, List.map_nil,
      List.dropLast_concat, List.mem_map] at hname
    obtain ⟨frame, hframe, rfl⟩ := hname
    have hlt := definitionAt?_lt (hopened frame hframe)
    rw [get?_ofRoot, hopened frame hframe]
    simpa using hlt
  · have hle := hreached.length_add_unopened_le
    omega
  · have hle := unopened_le (ofRoot root).1 [main]
    exact expandWithin_eq loader beyond (by omega)
  · cases (loader.load root).result with
    | ok tree => exact Or.inl ⟨tree, rfl⟩
    | error error => exact Or.inr ⟨error, rfl⟩
  · obtain ⟨visit, id, hreached, halarm, rfl⟩ := (load_eq_subtreeCycle_iff loader).mp herror
    exact hreached.cycleReport halarm

/-- A document with two trees that refer to each other. -/
def mutualReferences : Element :=
  ⟨"root", [⟨"main_tree_to_execute", "A"⟩],
    [⟨"BehaviorTree", [⟨"ID", "A"⟩], [⟨"SubTree", [⟨"ID", "B"⟩], []⟩]⟩,
     ⟨"BehaviorTree", [⟨"ID", "B"⟩], [⟨"SubTree", [⟨"ID", "A"⟩], []⟩]⟩]⟩

/-- Loading the document reports the names on the way round its cycle. -/
theorem load_mutualReferences (loader : Loader κ) :
    (loader.load mutualReferences).result = .error (.subtreeCycle ["A", "B", "A"]) := by
  have hmain : (definitions mutualReferences)[0]? =
      some ⟨"BehaviorTree", [⟨"ID", "A"⟩], [⟨"SubTree", [⟨"ID", "B"⟩], []⟩]⟩ := rfl
  have hstart : Reached loader mutualReferences ⟨[⟨"A", 0⟩], ⟨"SubTree", [⟨"ID", "B"⟩], []⟩⟩ :=
    .start rfl rfl hmain rfl
  have hnext : Reached loader mutualReferences
      ⟨[⟨"B", 1⟩, ⟨"A", 0⟩], ⟨"SubTree", [⟨"ID", "A"⟩], []⟩⟩ :=
    hstart.step (.expansion rfl rfl rfl)
  exact (load_eq_subtreeCycle_iff loader).mpr ⟨_, "A", hnext, ⟨rfl, rfl, rfl⟩, rfl⟩

/-- The report of this cycle means what it says. -/
theorem load_ends_mutualReferences :
    (Loader.load (⟨.standard, {}⟩ : Loader Empty) mutualReferences).result =
      .error (.subtreeCycle ["A", "B", "A"]) ∧
    CycleReport (⟨.standard, {}⟩ : Loader Empty) mutualReferences ["A", "B", "A"] :=
  have hload := load_mutualReferences (⟨.standard, {}⟩ : Loader Empty)
  ⟨hload, (load_ends (⟨.standard, {}⟩ : Loader Empty) mutualReferences).2.2.2.2 _ hload⟩

end Loader

end BehaviorTree
