import BehaviorTree.Proofs.Document.MainTree
import BehaviorTree.Proofs.Document.Mentions

/-!
# The visits of the loader

Loading goes from element to element: from a node to one child after the other, and from a
reference into the tree that it refers to. A visit is an element together with the trees that
are being built around it. Every chain of visits ends (`wellFounded_step`), and loading fails
with a cycle exactly if it visits a reference to a tree whose name is in use
(`load_eq_subtreeCycle_iff`).
-/

namespace BehaviorTree

namespace Loader

open TreeIndex

variable {κ : Type} [Application κ]

/-- A tree that is being built: the name under which it was opened, and the position of its
definition. -/
structure Frame where
  /-- The name under which the tree was opened. -/
  name : String
  /-- The position of its definition in the document. -/
  position : Nat

/-- An element that is being loaded, and the trees that are being built, the innermost
first. -/
structure Visit where
  /-- The trees being built, the innermost first. -/
  frames : List Frame
  /-- The element being loaded. -/
  element : Element

/-- The names of the trees that are being built. -/
def Visit.names (visit : Visit) : List String := visit.frames.map (·.name)

/-- What loading the element of a visit gives. -/
def Visit.outcome (loader : Loader κ) (root : Element) (visit : Visit) :
    Except LoadError (Tree κ) :=
  (loader.loadElement (loader.expandReference (ofRoot root).1 visit.names) visit.element).result

/-- From one visit to the next: to a child, once the children before it are loaded, or from a
reference into the tree that it refers to. -/
inductive Step (loader : Loader κ) (root : Element) : Visit → Visit → Prop
  | child {visit : Visit} {kind : Kind κ} {before after : List Element} {child : Element}
      {trees : List (Tree κ)} :
      isReference visit.element = false →
      (loader.loadKind visit.element (nodeName visit.element)).result = .ok kind →
      kind.arity ≠ .exactly 0 →
      arityError? kind visit.element (nodeName visit.element) = none →
      visit.element.children = before ++ child :: after →
      (loader.loadChildren (loader.expandReference (ofRoot root).1 visit.names) kind
        visit.element.name (nodeName visit.element) 0 before).result = .ok trees →
      Step loader root visit ⟨visit.frames, child⟩
  | expansion {visit : Visit} {id : String} {copy : Element} {position : Nat} :
      isReference visit.element = true →
      resolve (ofRoot root).1 visit.names visit.element = .ok (id, copy) →
      definitionAt? root id = some position →
      Step loader root visit ⟨⟨id, position⟩ :: visit.frames, copy⟩

/-- A visit that the loading of a document comes to. -/
inductive Reached (loader : Loader κ) (root : Element) : Visit → Prop
  | start {position : Nat} {main element : Element} {rest : List Element} :
      Text.sameName root.name "root" = true → mainPosition? root = some position →
      (definitions root)[position]? = some main → main.children = element :: rest →
      Reached loader root ⟨[⟨mainId main, position⟩], element⟩
  | step {visit next : Visit} :
      Reached loader root visit → Step loader root visit next → Reached loader root next

/-- A reference that names a tree being built. -/
structure Visit.Alarm (visit : Visit) (id : String) : Prop where
  /-- The element is a reference. -/
  reference : isReference visit.element = true
  /-- It names the tree with this identifier. -/
  mention : referenceId? visit.element = some id
  /-- A tree with this identifier is being built. -/
  used : isOpen visit.names id = true

/-- A child is smaller than its parent. -/
theorem sizeOf_lt_of_mem_children {element child : Element} (hmem : child ∈ element.children) :
    sizeOf child < sizeOf element := by
  obtain ⟨tag, attributes, children⟩ := element
  have hsize : sizeOf child < sizeOf children := List.sizeOf_lt_of_mem hmem
  simp only [Element.mk.sizeOf_spec]
  omega

/-- Every chain of visits ends: a step to a child leaves a smaller element, and one into a tree
leaves fewer definitions to open. -/
theorem wellFounded_step (loader : Loader κ) (root : Element) :
    WellFounded fun next visit => Step loader root visit next := by
  let measure (visit : Visit) : Nat × Nat :=
    ((ofRoot root).1.unopened visit.names, sizeOf visit.element)
  refine Subrelation.wf (r := InvImage (Prod.Lex (· < ·) (· < ·)) measure) ?_
    (InvImage.wf measure (Prod.lex Nat.lt_wfRel Nat.lt_wfRel).wf)
  intro next visit hstep
  cases hstep with
  | @child kind before after child trees _ _ _ _ hchildren _ =>
    have hmem : child ∈ visit.element.children := by simp [hchildren]
    exact Prod.Lex.right _ (sizeOf_lt_of_mem_children hmem)
  | expansion _ hresolve _ =>
    obtain ⟨_, hclosed, _, hopens, _⟩ := resolve_eq_ok_iff.mp hresolve
    exact Prod.Lex.left _ _ (unopened_cons_lt hclosed hopens)

/-! ## Where a failure comes from -/

/-- Children fail to load if one of them does, once those before it are loaded. -/
theorem result_loadChildren_of_error (loader : Loader κ) {expand : Element → Load (Tree κ)}
    {kind : Kind κ} {tag name : String} {index : Nat} {before after : List Element}
    {child : Element} {trees : List (Tree κ)} {error : LoadError}
    (hbefore : (loader.loadChildren expand kind tag name index before).result = .ok trees)
    (hchild : (loader.loadElement expand child).result = .error error) :
    (loader.loadChildren expand kind tag name index (before ++ child :: after)).result =
      .error error := by
  induction before generalizing index trees with
  | nil => rw [List.nil_append, result_loadChildren_cons, hchild]; rfl
  | cons first rest ih =>
    rw [result_loadChildren_cons, Except.bind_eq_ok_iff] at hbefore
    obtain ⟨tree, hfirst, hrest⟩ := hbefore
    rw [List.cons_append, result_loadChildren_cons, hfirst]
    dsimp only [Except.bind]
    split at hrest
    · next hadmits =>
      obtain ⟨others, hothers, _⟩ := Except.bind_eq_ok_iff.mp hrest
      rw [if_pos hadmits, ih hothers]
    · cases hrest

/-- If children fail to load, one of them is refused or fails itself. -/
theorem exists_of_result_loadChildren_eq_error (loader : Loader κ)
    {expand : Element → Load (Tree κ)} {kind : Kind κ} {tag name : String} {index : Nat}
    {children : List Element} {error : LoadError}
    (herror : (loader.loadChildren expand kind tag name index children).result = .error error) :
    error = .childRefused tag ∨ ∃ before child after trees, children = before ++ child :: after ∧
      (loader.loadChildren expand kind tag name index before).result = .ok trees ∧
      (loader.loadElement expand child).result = .error error := by
  induction children generalizing index with
  | nil => cases herror
  | cons first rest ih =>
    rw [result_loadChildren_cons, Except.bind_eq_error_iff] at herror
    rcases herror with hfirst | ⟨tree, hfirst, hrest⟩
    · exact Or.inr ⟨[], first, rest, [], rfl, rfl, hfirst⟩
    · split at hrest
      · next hadmits =>
        rcases Except.bind_eq_error_iff.mp hrest with hrest | ⟨_, _, hnone⟩
        · rcases ih hrest with hrefused | ⟨before, child, after, trees, heq, hbefore, hchild⟩
          · exact Or.inl hrefused
          · refine Or.inr
              ⟨first :: before, child, after, tree :: trees, by rw [heq]; rfl, ?_, hchild⟩
            rw [result_loadChildren_cons, hfirst]
            dsimp only [Except.bind]
            rw [if_pos hadmits, hbefore]
        · cases hnone
      · cases hrest
        exact Or.inl rfl

/-- A node fails to load with a given error, other than those that it raises itself, exactly if
a child does. -/
theorem outcome_node_eq_error_of_children (loader : Loader κ) {root : Element} {visit : Visit}
    {kind : Kind κ} {error : LoadError} (hnode : isReference visit.element = false)
    (hkind : (loader.loadKind visit.element (nodeName visit.element)).result = .ok kind)
    (harity : kind.arity ≠ .exactly 0)
    (hcount : arityError? kind visit.element (nodeName visit.element) = none)
    (hchildren : (loader.loadChildren (loader.expandReference (ofRoot root).1 visit.names) kind
      visit.element.name (nodeName visit.element) 0 visit.element.children).result =
      .error error) : visit.outcome loader root = .error error := by
  unfold Visit.outcome
  rw [result_loadElement, hnode, hkind]
  simp [Except.bind, harity, hcount, hchildren]

/-- What goes wrong at a later visit makes the earlier one fail in the same way. -/
theorem Step.outcome_eq_error {loader : Loader κ} {root : Element} {visit next : Visit}
    {error : LoadError} (hstep : Step loader root visit next)
    (herror : next.outcome loader root = .error error) :
    visit.outcome loader root = .error error := by
  cases hstep with
  | child hnode hkind harity hcount hchildren hbefore =>
    apply outcome_node_eq_error_of_children loader hnode hkind harity hcount
    rw [hchildren]
    exact result_loadChildren_of_error loader hbefore herror
  | expansion hreference hresolve _ =>
    unfold Visit.outcome
    rw [result_loadElement, if_pos hreference, result_expandReference, hresolve]
    exact herror

/-- A visit that fails makes the loading of the document fail with its error. -/
theorem Reached.load_eq_error {loader : Loader κ} {root : Element} {visit : Visit}
    {error : LoadError} (hreached : Reached loader root visit)
    (herror : visit.outcome loader root = .error error) :
    (loader.load root).result = .error error := by
  induction hreached with
  | @start position main element rest hroot hposition hmain hchildren =>
    rw [result_load, if_pos hroot, result_mainTree_eq_ok_iff.mpr ⟨position, hposition, hmain⟩]
    simp only [Except.bind, outcomeOf, hchildren]
    exact herror
  | step _ hstep ih => exact ih (hstep.outcome_eq_error herror)

/-- A reference to a tree that is being built resolves to the report of a cycle. -/
theorem Visit.Alarm.resolve_eq {visit : Visit} {id : String} (halarm : visit.Alarm id)
    (index : TreeIndex) :
    resolve index visit.names visit.element =
      .error (.subtreeCycle (id :: visit.names).reverse) := by
  unfold resolve
  rw [halarm.mention]
  exact if_pos halarm.used

/-- Resolving raises a cycle only for a name in use. -/
theorem alarm_of_resolve_eq {index : TreeIndex} {visit : Visit} {path : List String}
    (hreference : isReference visit.element = true)
    (hresolve : resolve index visit.names visit.element = .error (.subtreeCycle path)) :
    ∃ id, visit.Alarm id ∧ path = (id :: visit.names).reverse := by
  obtain ⟨_, herror⟩ | ⟨id, hid, ⟨hused, herror⟩ | ⟨_, ⟨_, herror⟩ | ⟨_, _, _, herror⟩⟩⟩ :=
    resolve_eq_error_iff.mp hresolve
  · cases herror
  · cases herror
    exact ⟨id, ⟨hreference, hid, hused⟩, rfl⟩
  · cases herror
  · cases herror

/-- If a node fails with a cycle, a child that it comes to does. -/
theorem exists_step_of_node {loader : Loader κ} {root : Element} {visit : Visit}
    {path : List String} (hnode : isReference visit.element = false)
    (herror : visit.outcome loader root = .error (.subtreeCycle path)) :
    ∃ next, Step loader root visit next ∧
      next.outcome loader root = .error (.subtreeCycle path) := by
  unfold Visit.outcome at herror
  rw [result_loadElement, hnode, if_neg Bool.false_ne_true, Except.bind_eq_error_iff] at herror
  rcases herror with hkind | ⟨kind, hkind, hrest⟩
  · cases eq_unknownNode_of_loadKind hkind
  · split at hrest
    · cases hrest
    · next harity =>
      split at hrest
      · next error hcount =>
        cases hrest
        obtain ⟨_, herror⟩ := exists_of_arityError?_eq_some hcount
        cases herror
      · next hcount =>
        rcases Except.bind_eq_error_iff.mp hrest with hchildren | ⟨_, _, hnone⟩
        · rcases exists_of_result_loadChildren_eq_error loader hchildren with
            hrefused | ⟨before, child, after, trees, heq, hbefore, hchild⟩
          · cases hrefused
          · exact ⟨⟨visit.frames, child⟩, .child hnode hkind harity hcount heq hbefore, hchild⟩
        · cases hnone

/-- If a reference fails with a cycle, it names a tree being built, or the tree that it refers
to fails. -/
theorem alarm_or_step_of_reference {loader : Loader κ} {root : Element} {visit : Visit}
    {path : List String} (hreference : isReference visit.element = true)
    (herror : visit.outcome loader root = .error (.subtreeCycle path)) :
    (∃ id, visit.Alarm id ∧ path = (id :: visit.names).reverse) ∨
      ∃ next, Step loader root visit next ∧
        next.outcome loader root = .error (.subtreeCycle path) := by
  unfold Visit.outcome at herror
  rw [result_loadElement, if_pos hreference, result_expandReference,
    Except.bind_eq_error_iff] at herror
  rcases herror with hresolve | ⟨⟨id, copy⟩, hresolve, hcopy⟩
  · exact Or.inl (alarm_of_resolve_eq hreference hresolve)
  · obtain ⟨_, _, _, ⟨tree, _, hget, _⟩, _⟩ := resolve_eq_ok_iff.mp hresolve
    obtain ⟨position, hposition, _⟩ := get?_ofRoot_eq_some_iff.mp hget
    exact Or.inr ⟨_, .expansion hreference hresolve hposition, hcopy⟩

/-- A visit that fails with a cycle leads to the reference that raises it. -/
theorem Reached.exists_alarm {loader : Loader κ} {root : Element} {path : List String}
    {visit : Visit} (hreached : Reached loader root visit)
    (herror : visit.outcome loader root = .error (.subtreeCycle path)) :
    ∃ last id, Reached loader root last ∧ last.Alarm id ∧ path = (id :: last.names).reverse := by
  induction visit using (wellFounded_step loader root).induction with
  | _ visit ih =>
    have hcases : (∃ id, visit.Alarm id ∧ path = (id :: visit.names).reverse) ∨
        ∃ next, Step loader root visit next ∧
          next.outcome loader root = .error (.subtreeCycle path) := by
      cases hkind : isReference visit.element with
      | true => exact alarm_or_step_of_reference hkind herror
      | false => exact Or.inr (exists_step_of_node hkind herror)
    rcases hcases with ⟨id, halarm, hpath⟩ | ⟨next, hstep, hnext⟩
    · exact ⟨visit, id, hreached, halarm, hpath⟩
    · exact ih next hstep (hreached.step hstep) hnext

/-- Loading fails with a cycle exactly if it comes to a reference that names a tree being
built, and reports the names on the way to that reference. -/
theorem load_eq_subtreeCycle_iff (loader : Loader κ) {root : Element} {path : List String} :
    (loader.load root).result = .error (.subtreeCycle path) ↔
      ∃ visit id, Reached loader root visit ∧ visit.Alarm id ∧
        path = (id :: visit.names).reverse := by
  constructor
  · intro herror
    rw [result_load] at herror
    split at herror
    · next hroot =>
      rcases Except.bind_eq_error_iff.mp herror with hnone | ⟨main, hmain, houtcome⟩
      · rw [result_mainTree] at hnone
        split at hnone <;> cases hnone
      · obtain ⟨position, hposition, hget⟩ := result_mainTree_eq_ok_iff.mp hmain
        unfold outcomeOf at houtcome
        split at houtcome
        · cases houtcome
        · next element rest hchildren =>
          exact (Reached.start hroot hposition hget hchildren).exists_alarm houtcome
    · cases herror
  · rintro ⟨visit, id, hreached, halarm, rfl⟩
    apply hreached.load_eq_error
    unfold Visit.outcome
    rw [result_loadElement, if_pos halarm.reference, result_expandReference, halarm.resolve_eq]
    rfl

end Loader

end BehaviorTree
