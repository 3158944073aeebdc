import BehaviorTree.Proofs.Document.Cycle

/-!
# Alarms and cycles

An alarm is true if the reference that raises it goes to a definition that is being built. Names
do not always tell trees apart, though: the main tree may bear a name that refers to another
definition or to none, and then a reference to that name raises a false alarm. No other alarm is
false, and a document whose references form no cycle raises no true one.
-/

namespace BehaviorTree

namespace Loader

open TreeIndex

variable {κ : Type} [Application κ]

/-- The root element of a definition holds a reference that goes to another definition. Both
are given by their positions. -/
def Refers (root : Element) (source target : Nat) : Prop :=
  ∃ tree element rest id, (definitions root)[source]? = some tree ∧
    tree.children = element :: rest ∧ some id ∈ mentions element ∧
    definitionAt? root id = some target

/-- The references of a document lead from no definition back to it. -/
def Acyclic (root : Element) : Prop :=
  ∀ position, ¬ Relation.TransGen (Refers root) position position

/-- The reference of a visit goes to a definition that is being built. -/
def Visit.Reenters (root : Element) (visit : Visit) (id : String) : Prop :=
  ∃ frame ∈ visit.frames, definitionAt? root id = some frame.position

/-- An identifier is the name of the main tree, which refers to another definition or to
none. -/
def MisnamesMain (root : Element) (id : String) : Prop :=
  ∃ main, (mainTree root).result = .ok main ∧ Text.sameName (mainId main) id = true ∧
    definitionAt? root (mainId main) ≠ mainPosition? root

/-- Where a visit stands among the definitions: the innermost tree mentions what its element
mentions, and every tree being built leads to the innermost one. -/
structure Visit.Within (root : Element) (visit : Visit) (innermost : Frame) : Prop where
  /-- What the element mentions is mentioned in the innermost tree. -/
  mentioned : ∃ tree element rest, (definitions root)[innermost.position]? = some tree ∧
    tree.children = element :: rest ∧ mentions visit.element ⊆ mentions element
  /-- Every tree being built refers to the innermost one, directly or through others. -/
  leads : ∀ frame ∈ visit.frames,
    Relation.ReflTransGen (Refers root) frame.position innermost.position

/-- A reference in the innermost tree makes its definition refer to the target. -/
theorem Visit.Within.refers {root : Element} {visit : Visit} {innermost : Frame} {id : String}
    {target : Nat} (hwithin : visit.Within root innermost)
    (hreference : isReference visit.element = true)
    (hmention : referenceId? visit.element = some id)
    (htarget : definitionAt? root id = some target) :
    Refers root innermost.position target := by
  obtain ⟨tree, element, rest, htree, hchildren, hsubset⟩ := hwithin.mentioned
  refine ⟨tree, element, rest, id, htree, hchildren, hsubset ?_, htarget⟩
  rw [mentions_of_reference hreference, hmention]
  exact List.mem_singleton_self _

/-- Every visit stands within its innermost tree, to which all trees being built lead. -/
theorem Reached.exists_within {loader : Loader κ} {root : Element} {visit : Visit}
    (hreached : Reached loader root visit) : ∃ innermost, visit.Within root innermost := by
  induction hreached with
  | @start position main element rest _ _ hmain hchildren =>
    refine ⟨⟨mainId main, position⟩, ⟨main, element, rest, hmain, hchildren, fun _ h => h⟩, ?_⟩
    simp [Relation.ReflTransGen.refl]
  | @step visit next _ hstep ih =>
    obtain ⟨innermost, hwithin⟩ := ih
    cases hstep with
    | @child kind before after child trees hnode _ _ _ hchildren _ =>
      obtain ⟨tree, element, rest, htree, hrest, hsubset⟩ := hwithin.mentioned
      refine ⟨innermost, ⟨tree, element, rest, htree, hrest, ?_⟩, hwithin.leads⟩
      have hmem : child ∈ visit.element.children := by simp [hchildren]
      rw [mentions_of_node hnode] at hsubset
      exact fun mention h => hsubset (mentions_subset_mentionsAll hmem h)
    | @expansion id copy position hreference hresolve hposition =>
      obtain ⟨hmention, _, element, ⟨tree, rest, hget, hchildren⟩, rfl⟩ :=
        resolve_eq_ok_iff.mp hresolve
      obtain ⟨found, hfound, htree⟩ := get?_ofRoot_eq_some_iff.mp hget
      cases hposition.symm.trans hfound
      have hrefers := hwithin.refers hreference hmention hposition
      refine ⟨⟨id, position⟩, ⟨tree, element, rest, htree, hchildren, ?_⟩, ?_⟩
      · rw [mentions_standIn]
        exact fun _ h => h
      · refine List.forall_mem_cons.mpr ⟨.refl, fun frame hframe => ?_⟩
        exact (hwithin.leads frame hframe).tail hrefers

/-- A true alarm closes a cycle of references. -/
theorem Reached.not_acyclic {loader : Loader κ} {root : Element} {visit : Visit} {id : String}
    (hreached : Reached loader root visit) (halarm : visit.Alarm id)
    (hreenters : visit.Reenters root id) : ¬ Acyclic root := by
  intro hacyclic
  obtain ⟨innermost, hwithin⟩ := hreached.exists_within
  obtain ⟨frame, hframe, htarget⟩ := hreenters
  have hrefers := hwithin.refers halarm.reference halarm.mention htarget
  exact hacyclic frame.position (Relation.TransGen.tail' (hwithin.leads frame hframe) hrefers)

/-- Which identifiers misname the main tree can be told from the main tree that is chosen. -/
theorem misnamesMain_iff {root main : Element} {id : String}
    (hmain : (mainTree root).result = .ok main) :
    MisnamesMain root id ↔ Text.sameName (mainId main) id = true ∧
      definitionAt? root (mainId main) ≠ mainPosition? root := by
  constructor
  · rintro ⟨other, hother, hmisnames⟩
    cases hmain.symm.trans hother
    exact hmisnames
  · exact fun hmisnames => ⟨main, hmain, hmisnames⟩

/-- An alarm is true unless it names the main tree and that name refers to another definition
or to none. -/
theorem Reached.reenters_iff {loader : Loader κ} {root : Element} {visit : Visit} {id : String}
    (hreached : Reached loader root visit) (halarm : visit.Alarm id) :
    visit.Reenters root id ↔ ¬ MisnamesMain root id := by
  obtain ⟨opened, main, position, hframes, hposition, hmain, hopened⟩ := hreached.exists_frames_eq
  rw [misnamesMain_iff (result_mainTree_eq_ok_iff.mpr ⟨position, hposition, hmain⟩), hposition]
  have hnames : visit.names = opened.map (·.name) ++ [mainId main] := by
    simp [Visit.names, hframes]
  have hdiffer : ∀ frame ∈ opened, Text.sameName frame.name (mainId main) = false := by
    intro frame hframe
    have hpairwise := hnames ▸ hreached.names_pairwise
    exact (List.pairwise_append.mp hpairwise).2.2 _ (List.mem_map_of_mem hframe) _
      (List.mem_singleton_self _)
  cases hsame : Text.sameName (mainId main) id with
  | true =>
    rw [definitionAt?_congr hsame]
    simp only [true_and, Decidable.not_not]
    constructor
    · rintro ⟨frame, hframe, htarget⟩
      rw [hframes] at hframe
      rcases List.mem_append.mp hframe with hframe | hframe
      -- Another tree of the same definition would have the name of the main tree.
      · have hsame' := sameName_of_definitionAt?_eq (hopened frame hframe) htarget
        have hdiffer' := hdiffer frame hframe
        rw [Text.sameName_congr hsame', Text.sameName_comm, hsame] at hdiffer'
        cases hdiffer'
      · cases List.mem_singleton.mp hframe
        exact htarget
    · intro htarget
      exact ⟨⟨mainId main, position⟩, by simp [hframes], htarget⟩
  | false =>
    simp only [Bool.false_eq_true, false_and, not_false_eq_true, iff_true]
    have hused := halarm.used
    rw [hnames] at hused
    obtain ⟨name, hname, hname'⟩ := List.any_eq_true.mp hused
    rcases List.mem_append.mp hname with hname | hname
    · obtain ⟨frame, hframe, rfl⟩ := List.mem_map.mp hname
      refine ⟨frame, by simp [hframes, hframe], ?_⟩
      rw [← definitionAt?_congr hname', hopened frame hframe]
    · rw [List.mem_singleton.mp hname, hsame] at hname'
      cases hname'

/-- A reported cycle is one exactly if the reference that closes it does not give the name of
the main tree where that name refers to another definition or to none. A document whose
references form no cycle reports one only in this case. -/
theorem alarm_true_iff (loader : Loader κ) {root : Element} {path : List String}
    (herror : (loader.load root).result = .error (.subtreeCycle path)) :
    ∃ visit id, Reached loader root visit ∧ visit.Alarm id ∧
      path = (id :: visit.names).reverse ∧
      (visit.Reenters root id ↔ ¬ MisnamesMain root id) ∧
      (Acyclic root → MisnamesMain root id) := by
  obtain ⟨visit, id, hreached, halarm, hpath⟩ := (load_eq_subtreeCycle_iff loader).mp herror
  have hiff := hreached.reenters_iff halarm
  refine ⟨visit, id, hreached, halarm, hpath, hiff, fun hacyclic => ?_⟩
  refine Classical.byContradiction fun hnamed => ?_
  exact hreached.not_acyclic halarm (hiff.mpr hnamed) hacyclic

/-- A document whose main tree has no identifier and refers to a tree of the name that stands
in for a missing one. -/
def unnamedMain : Element :=
  ⟨"root", [],
    [⟨"BehaviorTree", [], [⟨"SubTree", [⟨"ID", "UnnamedTree"⟩], []⟩]⟩,
     ⟨"BehaviorTree", [⟨"ID", "UnnamedTree"⟩], [⟨"AlwaysSuccess", [], []⟩]⟩]⟩

/-- In this document references lead to later definitions only. -/
theorem lt_of_refers_unnamedMain {source target : Nat}
    (hrefers : Refers unnamedMain source target) : source < target := by
  obtain ⟨tree, element, rest, id, htree, hchildren, hmention, htarget⟩ := hrefers
  match source with
  | 0 =>
    cases htree
    cases hchildren
    cases List.mem_singleton.mp hmention
    cases htarget
    decide
  | 1 =>
    cases htree
    cases hchildren
    cases hmention
  | position + 2 => cases htree

/-- The references of this document form no cycle. -/
theorem acyclic_unnamedMain : Acyclic unnamedMain := by
  intro position hcycle
  have hlt (target : Nat) (hchain : Relation.TransGen (Refers unnamedMain) position target) :
      position < target := by
    induction hchain with
    | single hrefers => exact lt_of_refers_unnamedMain hrefers
    | tail _ hrefers ih => exact Nat.lt_trans ih (lt_of_refers_unnamedMain hrefers)
  exact Nat.lt_irrefl position (hlt position hcycle)

/-- Loading this document reports a cycle all the same. -/
theorem load_unnamedMain (loader : Loader κ) :
    (loader.load unnamedMain).result = .error (.subtreeCycle ["UnnamedTree", "UnnamedTree"]) := by
  have hmain : (definitions unnamedMain)[0]? =
      some ⟨"BehaviorTree", [], [⟨"SubTree", [⟨"ID", "UnnamedTree"⟩], []⟩]⟩ := rfl
  exact (load_eq_subtreeCycle_iff loader).mpr
    ⟨_, "UnnamedTree", .start rfl rfl hmain rfl, ⟨rfl, rfl, rfl⟩, rfl⟩

/-- The report is a false alarm, and its name is the one that misnames the main tree. -/
theorem alarm_true_iff_unnamedMain :
    (Loader.load (⟨.standard, {}⟩ : Loader Empty) unnamedMain).result =
      .error (.subtreeCycle ["UnnamedTree", "UnnamedTree"]) ∧
    Acyclic unnamedMain ∧ ∃ id, MisnamesMain unnamedMain id := by
  have hload := load_unnamedMain (⟨.standard, {}⟩ : Loader Empty)
  obtain ⟨_, id, _, _, _, _, hmisnames⟩ := alarm_true_iff (⟨.standard, {}⟩ : Loader Empty) hload
  exact ⟨hload, acyclic_unnamedMain, id, hmisnames acyclic_unnamedMain⟩

/-- A reported cycle is not always one. -/
theorem not_reported_cycle_is_cycle :
    ¬ ∀ (loader : Loader Empty) (root : Element) (path : List String),
      (loader.load root).result = .error (.subtreeCycle path) →
      (∃ visit id, Reached loader root visit ∧ visit.Alarm id ∧
        path = (id :: visit.names).reverse ∧ visit.Reenters root id) ∧ ¬ Acyclic root := by
  intro h
  have hcycle := h ⟨.standard, {}⟩ unnamedMain _ (load_unnamedMain _)
  exact hcycle.2 acyclic_unnamedMain

end Loader

end BehaviorTree
