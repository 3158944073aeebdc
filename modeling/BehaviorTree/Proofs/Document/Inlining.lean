import BehaviorTree.Proofs.Document.MainTree
import BehaviorTree.Proofs.Document.Mentions
import Mathlib.Data.List.Forall2

/-!
# Expansion is inlining

The references in a document can be replaced beforehand, by copies of the trees that they refer
to. This file proves that such a document exists whenever the references lead somewhere and
never in a circle, and that it loads exactly as the original does, be it to a tree or to an
error. The replacement knows nothing of the trees that are being built: this is how the
expansion is compared with something other than itself.
-/

namespace BehaviorTree

namespace Loader

open TreeIndex

variable {κ : Type} [Application κ]

/-- What becomes of some elements when every reference is replaced, as often as it takes, by a
copy of the root element of the tree it refers to. -/
inductive Inlines (index : TreeIndex) : List Element → List Element → Prop
  | nil : Inlines index [] []
  | node {tag : String} {attributes : List Attribute}
      {children inlined rest others : List Element} :
      isReference ⟨tag, attributes, children⟩ = false → Inlines index children inlined →
      Inlines index rest others →
      Inlines index (⟨tag, attributes, children⟩ :: rest) (⟨tag, attributes, inlined⟩ :: others)
  | reference {element root copy : Element} {id : String} {rest others : List Element} :
      isReference element = true → referenceId? element = some id → index.Opens id root →
      Inlines index [standIn element root] [copy] → Inlines index rest others →
      Inlines index (element :: rest) (copy :: others)

/-- There is only one way to replace the references. -/
theorem Inlines.unique {index : TreeIndex} {elements inlined inlined' : List Element}
    (hinlines : Inlines index elements inlined) (hinlines' : Inlines index elements inlined') :
    inlined = inlined' := by
  induction hinlines generalizing inlined' with
  | nil =>
    cases hinlines'
    rfl
  | node hnode _ _ ihchildren ihrest =>
    cases hinlines' with
    | node _ hchildren hrest => rw [ihchildren hchildren, ihrest hrest]
    | reference hreference => simp [hnode] at hreference
  | reference hreference hid hopens _ _ ihcopy ihrest =>
    cases hinlines' with
    | node hnode => simp [hnode] at hreference
    | reference _ hid' hopens' hcopy hrest =>
      cases hid.symm.trans hid'
      cases hopens.unique hopens'
      cases ihcopy hcopy
      rw [ihrest hrest]

/-- An element becomes one element. -/
theorem Inlines.exists_eq_singleton {index : TreeIndex} {element : Element}
    {inlined : List Element} (hinlines : Inlines index [element] inlined) :
    ∃ copy, inlined = [copy] := by
  cases hinlines with
  | node _ _ hrest =>
    cases hrest
    exact ⟨_, rfl⟩
  | reference _ _ _ _ hrest =>
    cases hrest
    exact ⟨_, rfl⟩

/-- Nothing that was put in place of a reference holds one. -/
theorem Inlines.mentionsAll_eq_nil {index : TreeIndex} {elements inlined : List Element}
    (hinlines : Inlines index elements inlined) : mentionsAll inlined = [] := by
  induction hinlines with
  | nil => rfl
  | @node tag attributes _ inlined _ _ hnode _ _ ihchildren ihrest =>
    have hnode' : isReference ⟨tag, attributes, inlined⟩ = false := hnode
    rw [mentionsAll, mentions_of_node hnode', ihchildren, ihrest, List.append_nil]
  | reference _ _ _ _ _ ihcopy ihrest =>
    rw [mentionsAll, mentionsAll, List.append_nil] at ihcopy
    rw [mentionsAll, ihcopy, ihrest, List.append_nil]

/-! ## Where references can be replaced -/

/-- Whatever the mentioned trees reach leads to a tree, none of these trees reaches its own
identifier, and none of them is being built. -/
structure Expandable (index : TreeIndex) (names : List String) (start : List (Option String)) :
    Prop where
  /-- Every reference that is reached names a tree of the index that has a single root. -/
  resolves : ∀ mention, Reaches index start mention →
    ∃ id root, mention = some id ∧ index.Opens id root
  /-- No tree that is reached leads back to its own identifier. -/
  acyclic : ∀ id root inner, Reaches index start (some id) → index.Opens id root →
    Reaches index (mentions root) (some inner) → Text.sameName id inner = false
  /-- No tree that is reached is being built. -/
  closed : ∀ id, Reaches index start (some id) → isOpen names id = false

/-- What can be expanded from several mentions can be expanded from some of them. -/
theorem Expandable.mono {index : TreeIndex} {names : List String}
    {start smaller : List (Option String)} (hexpandable : Expandable index names start)
    (hsubset : smaller ⊆ start) : Expandable index names smaller where
  resolves mention hreach := hexpandable.resolves mention (hreach.mono hsubset)
  acyclic id root inner hreach := hexpandable.acyclic id root inner (hreach.mono hsubset)
  closed id hreach := hexpandable.closed id (hreach.mono hsubset)

/-- A mentioned tree can be expanded while it is being built: it does not reach itself. -/
theorem Expandable.enter {index : TreeIndex} {names : List String}
    {start : List (Option String)} {id : String} {root : Element}
    (hexpandable : Expandable index names start) (hid : some id ∈ start)
    (hopens : index.Opens id root) : Expandable index (id :: names) (mentions root) := by
  have hreach : Reaches index start (some id) := .mentioned hid
  refine ⟨?_, ?_, ?_⟩
  · intro mention hmention
    exact hexpandable.resolves mention (hreach.trans hopens hmention)
  · intro inner innerRoot other hinner
    exact hexpandable.acyclic inner innerRoot other (hreach.trans hopens hinner)
  · intro inner hinner
    rw [isOpen_cons, hexpandable.acyclic id root inner hreach hopens hinner,
      hexpandable.closed inner (hreach.trans hopens hinner), Bool.or_false]

/-- Where nothing is mentioned there is nothing that could not be expanded. -/
theorem Expandable.nil {index : TreeIndex} {names : List String} : Expandable index names [] where
  resolves _ hreach := absurd hreach not_reaches_nil
  acyclic _ _ _ hreach := absurd hreach not_reaches_nil
  closed _ hreach := absurd hreach not_reaches_nil

/-- A tree that can be expanded while it is being built can be mentioned. -/
theorem Expandable.cons {index : TreeIndex} {names : List String} {rest : List (Option String)}
    {id : String} {root : Element} (hopens : index.Opens id root)
    (hclosed : isOpen names id = false)
    (hroot : Expandable index (id :: names) (mentions root))
    (hrest : Expandable index names rest) : Expandable index names (some id :: rest) := by
  have hbelow (inner : String) (hinner : Reaches index (mentions root) (some inner)) :
      Text.sameName id inner = false ∧ isOpen names inner = false := by
    simpa [isOpen_cons] using hroot.closed inner hinner
  refine ⟨?_, ?_, ?_⟩
  · intro mention hmention
    rcases hmention.of_cons hopens with rfl | hmention | hmention
    · exact ⟨id, root, rfl, hopens⟩
    · exact hroot.resolves mention hmention
    · exact hrest.resolves mention hmention
  · intro other otherRoot inner hother hopens' hinner
    rcases hother.of_cons hopens with hid | hother | hother
    · cases hid
      cases hopens.unique hopens'
      exact (hbelow inner hinner).1
    · exact hroot.acyclic other otherRoot inner hother hopens' hinner
    · exact hrest.acyclic other otherRoot inner hother hopens' hinner
  · intro other hother
    rcases hother.of_cons hopens with hid | hother | hother
    · cases hid
      exact hclosed
    · exact (hbelow other hother).2
    · exact hrest.closed other hother

/-- The elements after one that can be expanded with it can be expanded. -/
theorem Expandable.of_rest {index : TreeIndex} {names : List String} {element : Element}
    {rest : List Element} (hexpandable : Expandable index names (mentionsAll (element :: rest))) :
    Expandable index names (mentionsAll rest) :=
  hexpandable.mono (List.subset_append_right _ _)

/-- The children of a node that can be expanded can be expanded. -/
theorem Expandable.of_node {index : TreeIndex} {names : List String} {element : Element}
    {rest : List Element} (hexpandable : Expandable index names (mentionsAll (element :: rest)))
    (hnode : isReference element = false) :
    Expandable index names (mentionsAll element.children) := by
  rw [← mentions_of_node hnode]
  exact hexpandable.mono (List.subset_append_left _ _)

/-- A reference among expandable elements gives an identifier that leads to a tree, and this
tree is expandable in its place. -/
theorem Expandable.of_reference {index : TreeIndex} {names : List String} {element : Element}
    {rest : List Element} (hexpandable : Expandable index names (mentionsAll (element :: rest)))
    (hreference : isReference element = true) :
    ∃ id root, referenceId? element = some id ∧ index.Opens id root ∧
      isOpen names id = false ∧
      Expandable index (id :: names) (mentionsAll [standIn element root]) := by
  have hmem : referenceId? element ∈ mentionsAll (element :: rest) := by
    simp [mentionsAll, mentions_of_reference hreference]
  obtain ⟨id, root, hid, hopens⟩ := hexpandable.resolves _ (.mentioned hmem)
  rw [hid] at hmem
  refine ⟨id, root, hid, hopens, hexpandable.closed id (.mentioned hmem), ?_⟩
  simpa [mentionsAll] using hexpandable.enter hmem hopens

/-- The references in expandable elements can be replaced. -/
theorem Expandable.exists_inlines {index : TreeIndex} (names : List String) :
    (elements : List Element) → Expandable index names (mentionsAll elements) →
      ∃ inlined, Inlines index elements inlined
  | [], _ => ⟨[], .nil⟩
  | ⟨tag, attributes, children⟩ :: rest, hexpandable => by
    obtain ⟨others, hrest⟩ := exists_inlines names rest hexpandable.of_rest
    cases hkind : isReference ⟨tag, attributes, children⟩ with
    | false =>
      obtain ⟨inlined, hchildren⟩ := exists_inlines names children (hexpandable.of_node hkind)
      exact ⟨_, .node hkind hchildren hrest⟩
    | true =>
      obtain ⟨id, root, hid, hopens, hclosed, hroot⟩ := hexpandable.of_reference hkind
      -- The tree may be larger than the reference, but it leaves fewer definitions to open.
      have hfewer := unopened_cons_lt hclosed hopens
      obtain ⟨inlined, hinlined⟩ := exists_inlines (id :: names) _ hroot
      obtain ⟨copy, rfl⟩ := hinlined.exists_eq_singleton
      exact ⟨_, .reference hkind hid hopens hinlined hrest⟩
termination_by elements => (index.unopened names, sizeOf elements)

/-! ## What the replacement loads to -/

/-- Elements that load alike one by one load alike as the children of a node. -/
theorem result_loadChildren_congr (loader : Loader κ) {expand expand' : Element → Load (Tree κ)}
    {elements elements' : List Element}
    (halike : List.Forall₂ (fun element element' =>
      (loader.loadElement expand element).result = (loader.loadElement expand' element').result)
      elements elements')
    (kind : Kind κ) (tag name : String) (index : Nat) :
    (loader.loadChildren expand kind tag name index elements).result =
      (loader.loadChildren expand' kind tag name index elements').result := by
  induction halike generalizing index with
  | nil => rfl
  | cons hfirst _ ih => rw [result_loadChildren_cons, result_loadChildren_cons, hfirst, ih]

/-- Nodes that differ only in their children load alike if their children do. -/
theorem result_loadElement_congr (loader : Loader κ) {expand expand' : Element → Load (Tree κ)}
    {tag : String} {attributes : List Attribute} {children children' : List Element}
    (hnode : isReference ⟨tag, attributes, children⟩ = false)
    (halike : List.Forall₂ (fun element element' =>
      (loader.loadElement expand element).result = (loader.loadElement expand' element').result)
      children children') :
    (loader.loadElement expand ⟨tag, attributes, children⟩).result =
      (loader.loadElement expand' ⟨tag, attributes, children'⟩).result := by
  have hnode' : isReference ⟨tag, attributes, children'⟩ = false := hnode
  have hcount (kind : Kind κ) (name : String) :
      arityError? kind ⟨tag, attributes, children⟩ name =
        arityError? kind ⟨tag, attributes, children'⟩ name := by
    unfold arityError?
    rw [halike.length_eq]
  rw [result_loadElement, result_loadElement, hnode, hnode', result_loadKind, result_loadKind]
  simp only [Bool.false_eq_true, if_false, hcount, result_loadChildren_congr loader halike]
  rfl

/-- Where the references can be expanded, their replacement loads as they do, however references
are expanded then. -/
theorem Inlines.result_eq (loader : Loader κ) (expand : Element → Load (Tree κ))
    {index : TreeIndex} {elements inlined : List Element}
    (hinlines : Inlines index elements inlined) {names : List String}
    (hexpandable : Expandable index names (mentionsAll elements)) :
    List.Forall₂ (fun element copy =>
      (loader.loadElement (loader.expandReference index names) element).result =
        (loader.loadElement expand copy).result) elements inlined := by
  induction hinlines generalizing names with
  | nil => exact .nil
  | node hnode _ _ ihchildren ihrest =>
    refine .cons ?_ (ihrest hexpandable.of_rest)
    exact result_loadElement_congr loader hnode (ihchildren (hexpandable.of_node hnode))
  | @reference element root copy id _ _ hreference hid hopens _ _ ihcopy ihrest =>
    obtain ⟨id', root', hid', hopens', hclosed, hroot⟩ := hexpandable.of_reference hreference
    cases hid.symm.trans hid'
    cases hopens.unique hopens'
    have hresolve : resolve index names element = .ok (id, standIn element root) :=
      resolve_eq_ok_iff.mpr ⟨hid, hclosed, root, hopens, rfl⟩
    refine .cons ?_ (ihrest hexpandable.of_rest)
    rw [result_loadElement, if_pos hreference, result_expandReference, hresolve]
    cases ihcopy hroot with
    | cons hcopy _ => exact hcopy

/-! ## Documents -/

/-- A document with the attributes of another and a single tree. -/
def withOnlyTree (root : Element) (id : String) (elements : List Element) : Element :=
  { root with children := [⟨"BehaviorTree", [⟨"ID", id⟩], elements⟩] }

/-- A document becomes one with a single tree, which has the identifier of the main tree and its
root element, in which the references are replaced. -/
def InlinesDocument (root inlined : Element) : Prop :=
  ∃ main id elements, (mainTree root).result = .ok main ∧ main.attribute? "ID" = some id ∧
    Inlines (ofRoot root).1 (main.children.take 1) elements ∧
    inlined = withOnlyTree root id elements

/-- A document is inlined in one way at most. -/
theorem InlinesDocument.unique {root inlined inlined' : Element}
    (hinlines : InlinesDocument root inlined) (hinlines' : InlinesDocument root inlined') :
    inlined = inlined' := by
  obtain ⟨main, id, elements, hmain, hid, helements, rfl⟩ := hinlines
  obtain ⟨main', id', elements', hmain', hid', helements', rfl⟩ := hinlines'
  cases hmain.symm.trans hmain'
  cases hid.symm.trans hid'
  rw [helements.unique helements']

/-- A document with a single tree mentions what this tree does. -/
theorem mentionsAll_withOnlyTree {root : Element} {id : String} {elements : List Element} :
    mentionsAll (withOnlyTree root id elements).children = mentionsAll elements := by
  have hname : Text.sameName "BehaviorTree" "SubTree" = false := by decide
  have hnode : isReference ⟨"BehaviorTree", [⟨"ID", id⟩], elements⟩ = false := hname
  rw [withOnlyTree, mentionsAll, mentions_of_node hnode, mentionsAll, List.append_nil]

/-- The only tree of a document is its main tree, whatever the document asks for. -/
theorem result_mainTree_withOnlyTree (root : Element) (id : String) (elements : List Element) :
    (mainTree (withOnlyTree root id elements)).result =
      .ok ⟨"BehaviorTree", [⟨"ID", id⟩], elements⟩ := by
  have hdefinitions : definitions (withOnlyTree root id elements) =
      [⟨"BehaviorTree", [⟨"ID", id⟩], elements⟩] := rfl
  obtain ⟨position, main, hposition, hget⟩ :=
    exists_mainPosition? (hdefinitions ▸ List.mem_singleton_self _)
  have hmem := List.mem_of_getElem? hget
  rw [hdefinitions, List.mem_singleton] at hmem
  subst hmem
  exact result_mainTree_eq_ok_iff.mpr ⟨position, hposition, hget⟩

/-- The main tree with its references replaced gives what it gives with them. -/
theorem Inlines.outcomeOf_eq (loader : Loader κ) {root main : Element} {id : String}
    {elements : List Element}
    (hinlines : Inlines (ofRoot root).1 (main.children.take 1) elements)
    (hid : main.attribute? "ID" = some id)
    (hexpandable : Expandable (ofRoot root).1 [id] (mentionsAll (main.children.take 1))) :
    loader.outcomeOf root main = loader.outcomeOf (withOnlyTree root id elements)
      ⟨"BehaviorTree", [⟨"ID", id⟩], elements⟩ := by
  have hown : mainId main = id := by rw [mainId, hid, Option.getD_some]
  have halike := hinlines.result_eq loader
    (loader.expandReference (ofRoot (withOnlyTree root id elements)).1 [id]) hexpandable
  unfold outcomeOf
  rw [hown]
  cases hchildren : main.children with
  | nil =>
    rw [hchildren] at halike
    cases halike
    rfl
  | cons element rest =>
    rw [hchildren] at halike
    cases halike with
    | cons helement _ => exact helement

/-- If the main tree of a document has an identifier and its references can be expanded, then
they can be replaced in exactly one way, and the document with none left loads as the original
does. -/
theorem load_inlined (loader : Loader κ) {root main : Element} {id : String}
    (hmain : (mainTree root).result = .ok main) (hid : main.attribute? "ID" = some id)
    (hexpandable : Expandable (ofRoot root).1 [id] (mentionsAll (main.children.take 1))) :
    ∃ inlined, InlinesDocument root inlined ∧
      (∀ other, InlinesDocument root other → other = inlined) ∧
      mentionsAll inlined.children = [] ∧
      (loader.load root).result = (loader.load inlined).result := by
  obtain ⟨elements, helements⟩ := hexpandable.exists_inlines
  have hinlines : InlinesDocument root (withOnlyTree root id elements) :=
    ⟨main, id, elements, hmain, hid, helements, rfl⟩
  refine ⟨_, hinlines, fun other hother => hother.unique hinlines, ?_, ?_⟩
  · exact mentionsAll_withOnlyTree.trans helements.mentionsAll_eq_nil
  · have hname : (withOnlyTree root id elements).name = root.name := rfl
    have houtcome := helements.outcomeOf_eq loader hid hexpandable
    rw [result_load, result_load, hname, hmain, result_mainTree_withOnlyTree]
    simp only [Except.bind, houtcome]

/-- A document with a reference under a new name to a tree that is a reference itself. -/
def renamed : Element :=
  ⟨"root", [⟨"main_tree_to_execute", "Main"⟩],
    [⟨"BehaviorTree", [⟨"ID", "Main"⟩],
      [⟨"Sequence", [],
        [⟨"SubTree", [⟨"ID", "grip"⟩, ⟨"name", "grasp"⟩], []⟩, ⟨"ForceFailure", [], []⟩]⟩]⟩,
     ⟨"BehaviorTree", [⟨"ID", "Grip"⟩], [⟨"SubTree", [⟨"ID", "Close"⟩], []⟩]⟩,
     ⟨"BehaviorTree", [⟨"ID", "Close"⟩], [⟨"AlwaysSuccess", [], []⟩]⟩]⟩

/-- The same document with its references replaced. -/
def renamedInlined : Element :=
  withOnlyTree renamed "Main"
    [⟨"Sequence", [], [⟨"AlwaysSuccess", [⟨"name", "grasp"⟩], []⟩, ⟨"ForceFailure", [], []⟩]⟩]

/-- In this document one spelling of an identifier opens a tree that is a reference. -/
theorem opens_grip_renamed :
    (ofRoot renamed).1.Opens "grip" ⟨"SubTree", [⟨"ID", "Close"⟩], []⟩ := ⟨_, [], rfl, rfl⟩

/-- In this document the other identifier opens a leaf. -/
theorem opens_close_renamed :
    (ofRoot renamed).1.Opens "Close" ⟨"AlwaysSuccess", [], []⟩ := ⟨_, [], rfl, rfl⟩

/-- The reference of the main tree can be expanded. -/
theorem expandable_renamed : Expandable (ofRoot renamed).1 ["Main"] [some "grip"] :=
  .cons opens_grip_renamed rfl (.cons opens_close_renamed rfl .nil .nil) .nil

/-- The references of the document are replaced as shown, and the new name is kept. -/
theorem inlinesDocument_renamed : InlinesDocument renamed renamedInlined := by
  refine ⟨_, "Main", _, rfl, rfl, ?_, rfl⟩
  refine .node rfl (.reference rfl rfl opens_grip_renamed ?_ (.node rfl .nil .nil)) .nil
  exact .reference rfl rfl opens_close_renamed (.node rfl .nil .nil) .nil

/-- Both documents load to the tree with the leaf under its new name. -/
theorem load_inlined_renamed :
    ∃ main, (mainTree renamed).result = .ok main ∧ main.attribute? "ID" = some "Main" ∧
      Expandable (ofRoot renamed).1 ["Main"] (mentionsAll (main.children.take 1)) ∧
      (Loader.load (⟨.standard, {}⟩ : Loader Empty) renamed).result =
        .ok ⟨"Sequence", .sequence,
          [⟨"grasp", .alwaysSuccess, []⟩, ⟨"ForceFailure", .forceFailure, []⟩]⟩ := by
  have hmain : (mainTree renamed).result = .ok _ := rfl
  refine ⟨_, hmain, rfl, expandable_renamed, ?_⟩
  obtain ⟨inlined, _, hunique, _, hload⟩ :=
    load_inlined (⟨.standard, {}⟩ : Loader Empty) hmain rfl expandable_renamed
  rw [hload, ← hunique renamedInlined inlinesDocument_renamed]
  rfl

end Loader

end BehaviorTree
