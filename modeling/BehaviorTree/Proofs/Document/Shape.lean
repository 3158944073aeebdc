import BehaviorTree.Proofs.Document.Visit
import BehaviorTree.Proofs.Node.BuiltIn
import BehaviorTree.Proofs.Tree.Writing
import Mathlib.Data.List.Forall2

/-!
# The shape of loaded trees

A tree that is loaded with the built-in node types has the shape of its element: where a reference
stands there is what it unfolds to, a leaf has no children, and every other node has one child for
each child element, in their order. Children are never refused, since they are counted before they
are loaded. Where the document gives a decorator another number of children than one, or uses a
name that is not registered, loading fails (`Loader.load_mirrors`).
-/

namespace BehaviorTree

namespace Loader

open TreeIndex

/-- What an element becomes when a reference is followed until there is none. -/
inductive Unfolds (index : TreeIndex) : Element → Element → Prop
  | node {element : Element} : isReference element = false → Unfolds index element element
  | reference {element root found : Element} {id : String} : isReference element = true →
      referenceId? element = some id → index.Opens id root →
      Unfolds index (standIn element root) found → Unfolds index element found

/-- What stands at a position of an element with the references in it followed. Nothing stands
below a leaf. -/
inductive ElementAt (index : TreeIndex) : Element → Path → Element → Prop
  | here {element found : Element} : Unfolds index element found → ElementAt index element [] found
  | inside {element found child inner : Element} {position : Nat} {path : Path} :
      Unfolds index element found → found.name ∉ Registry.leafNames →
      found.children[position]? = some child → ElementAt index child path inner →
      ElementAt index element (position :: path) inner

/-- What an element unfolds to is no reference. -/
theorem Unfolds.isReference_eq {index : TreeIndex} {element found : Element}
    (hunfolds : Unfolds index element found) : isReference found = false := by
  induction hunfolds with
  | node hnode => exact hnode
  | reference _ _ _ _ ih => exact ih

/-- An element unfolds to one element at most. -/
theorem Unfolds.unique {index : TreeIndex} {element found other : Element}
    (hunfolds : Unfolds index element found) (hother : Unfolds index element other) :
    found = other := by
  induction hunfolds with
  | node hnode =>
    cases hother with
    | node => rfl
    | reference hreference => simp [hnode] at hreference
  | reference hreference hid hopens _ ih =>
    cases hother with
    | node hnode => simp [hnode] at hreference
    | reference _ hid' hopens' hrest =>
      cases hid.symm.trans hid'
      cases hopens.unique hopens'
      exact ih hrest

variable {κ : Type} [Application κ]

/-- A node is what an element describes: it has the name and the type that the element gives, and
a number of children that suits the type. -/
structure IsNodeOf (context : Context) (found : Element) (node : Tree κ) : Prop where
  /-- The name is the one that the element gives. -/
  name_eq : node.name = nodeName found
  /-- The type is the built-in one that the tag names, configured by the attributes. -/
  configured : ∃ kind, (found.name, kind) ∈ Registry.builtIn ∧
    node.kind = (configureAll context (nodeName found) kind.properties kind found.attributes).1
  /-- The number of children is one that the type takes for that many elements. -/
  suits : node.kind.Suits found.children.length node.children.length

/-- A tree mirrors an element: at the same positions there are nodes in the one and elements in the
other, and the nodes are what the elements describe. -/
structure Mirrors (context : Context) (index : TreeIndex) (element : Element) (tree : Tree κ) :
    Prop where
  /-- Every node is what the element at its position describes. -/
  nodes : ∀ path node, tree.at? path = some node →
    ∃ found, ElementAt index element path found ∧ IsNodeOf context found node
  /-- Every element describes the node at its position. -/
  elements : ∀ path found, ElementAt index element path found →
    ∃ node, tree.at? path = some node ∧ IsNodeOf context found node

/-! ## Loading a node -/

/-- The attributes of a built-in node do not change its type. -/
theorem type_configureAll (context : Context) (name : String) (properties : List Property)
    {kind : Kind κ} (hrelays : kind.relays) (attributes : List Attribute) :
    (configureAll context name properties kind attributes).1.relays ∧
      (configureAll context name properties kind attributes).1.arity = kind.arity := by
  induction attributes generalizing kind with
  | nil => exact ⟨hrelays, rfl⟩
  | cons item rest ih =>
    have hone : (configureOne context name properties kind item).1.relays ∧
        (configureOne context name properties kind item).1.arity = kind.arity := by
      unfold configureOne
      split
      · exact ⟨hrelays, rfl⟩
      · next property _ =>
        split
        · next value _ =>
          have htype := kind.hasTypeOf_configure hrelays property.key value
          exact ⟨htype.relays, htype.arity_eq⟩
        · exact ⟨hrelays, rfl⟩
    rw [← hone.2]
    exact ih hone.1

variable {loader : Loader κ} {expand : Element → Load (Tree κ)} {kind : Kind κ}

/-- Children that load do so one by one. -/
theorem forall₂_of_loadChildren_eq_ok {tag name : String} {index : Nat} {children : List Element}
    {trees : List (Tree κ)}
    (hload : (loader.loadChildren expand kind tag name index children).result = .ok trees) :
    List.Forall₂ (fun child tree => (loader.loadElement expand child).result = .ok tree)
      children trees := by
  induction children generalizing index trees with
  | nil =>
    cases hload
    exact .nil
  | cons child rest ih =>
    rw [result_loadChildren_cons, Except.bind_eq_ok_iff] at hload
    obtain ⟨tree, htree, hrest⟩ := hload
    split at hrest
    · obtain ⟨others, hothers, htrees⟩ := Except.bind_eq_ok_iff.mp hrest
      cases htrees
      exact .cons htree (ih hothers)
    · cases hrest

/-- Where no child is refused, children fail to load only if one of them does. -/
theorem exists_mem_of_loadChildren_eq_error {tag name : String} {index : Nat}
    {children : List Element} {error : LoadError}
    (hadmits : ∀ count < index + children.length, kind.admits count)
    (herror : (loader.loadChildren expand kind tag name index children).result = .error error) :
    ∃ child ∈ children, (loader.loadElement expand child).result = .error error := by
  induction children generalizing index with
  | nil => cases herror
  | cons child rest ih =>
    rw [List.length_cons] at hadmits
    rw [result_loadChildren_cons, Except.bind_eq_error_iff] at herror
    obtain hchild | ⟨tree, -, hrest⟩ := herror
    · exact ⟨child, List.mem_cons_self, hchild⟩
    · rw [if_pos (hadmits index (by omega)), Except.bind_eq_error_iff] at hrest
      obtain hrest | ⟨_, _, hnone⟩ := hrest
      · obtain ⟨other, hother, hfails⟩ := ih (fun count hlt => hadmits count (by omega)) hrest
        exact ⟨other, List.mem_cons_of_mem _ hother, hfails⟩
      · cases hnone

/-- With the built-in types the kind of an element is a built-in one with the settings of its
attributes, and of the same arity. -/
theorem result_loadKind_of_mem {element : Element} {name : String}
    (hstandard : loader.registry = .standard)
    (hkind : (loader.loadKind element name).result = .ok kind) :
    ∃ plain, (element.name, plain) ∈ Registry.builtIn ∧
      kind = (configureAll loader.context name plain.properties plain element.attributes).1 ∧
      kind.relays ∧ kind.arity = plain.arity := by
  rw [result_loadKind, hstandard, Registry.create] at hkind
  split at hkind
  · next plain hplain =>
    cases hkind
    have hmem := Registry.mem_builtIn_of_kind?_standard hplain
    exact ⟨plain, hmem, rfl,
      type_configureAll _ _ _ (Registry.type_of_mem_builtIn hmem).1 _⟩
  · cases hkind

/-- A node that loads is of the type that its element names. It has no children if it is a leaf,
and else what its child elements load to. -/
theorem exists_of_loadElement_eq_ok {element : Element} {tree : Tree κ}
    (hstandard : loader.registry = .standard) (hnode : isReference element = false)
    (hload : (loader.loadElement expand element).result = .ok tree) :
    IsNodeOf loader.context element tree ∧
      if element.name ∈ Registry.leafNames then tree.children = []
      else List.Forall₂ (fun child tree => (loader.loadElement expand child).result = .ok tree)
        element.children tree.children := by
  rw [result_loadElement, hnode, if_neg Bool.false_ne_true, Except.bind_eq_ok_iff] at hload
  obtain ⟨kind, hkind, hrest⟩ := hload
  obtain ⟨plain, hmem, hconfigured, hrelays, harity⟩ := result_loadKind_of_mem hstandard hkind
  have hleaf : kind.arity = .exactly 0 ↔ element.name ∈ Registry.leafNames := by
    rw [harity]
    exact (Registry.type_of_mem_builtIn hmem).2.2
  split at hrest
  · next hnone =>
    cases hrest
    refine ⟨⟨rfl, ⟨plain, hmem, hconfigured⟩, ?_⟩, ?_⟩
    · refine Kind.suits_of_arity hrelays (fun _ => rfl) (fun limit hlimit hne => ?_) fun hany => ?_
      · cases hnone.symm.trans hlimit
        exact absurd rfl hne
      · cases hnone.symm.trans hany
    · rw [if_pos (hleaf.mp hnone)]
  · next hsome =>
    split at hrest
    · cases hrest
    · next hcount =>
      obtain ⟨trees, htrees, htree⟩ := Except.bind_eq_ok_iff.mp hrest
      cases htree
      have hchildren := forall₂_of_loadChildren_eq_ok htrees
      have hlength := hchildren.length_eq
      refine ⟨⟨rfl, ⟨plain, hmem, hconfigured⟩, ?_⟩, ?_⟩
      · refine Kind.suits_of_arity hrelays (fun hnone => absurd hnone hsome)
          (fun limit hlimit hne => ?_) fun _ => hlength.symm
        have hexact := arityError?_eq_none_iff.mp hcount limit hlimit hne
        exact ⟨hlength.symm.trans hexact, hexact⟩
      · rwa [if_neg fun hmem => hsome (hleaf.mpr hmem)]

/-- A decorator in a document that loads has one child element. -/
theorem IsNodeOf.length_eq_one {context : Context} {found : Element} {node : Tree κ}
    (hnode : IsNodeOf context found node) (hname : found.name ∈ Registry.decoratorNames) :
    found.children.length = 1 := by
  obtain ⟨plain, hmem, hkind⟩ := hnode.configured
  obtain ⟨hrelays, hdecorator, -⟩ := Registry.type_of_mem_builtIn hmem
  have harity : node.kind.arity = plain.arity := by
    rw [hkind]
    exact (type_configureAll context (nodeName found) plain.properties hrelays _).2
  exact (hnode.suits.eq_one (harity.trans (hdecorator.mpr hname))).2

/-! ## Loading a tree -/

/-- What loads unfolds to a node that loads in the same way. -/
theorem exists_unfolds {index : TreeIndex} {names : List String} {element : Element}
    {tree : Tree κ}
    (hload : (loader.loadElement (loader.expandReference index names) element).result = .ok tree) :
    ∃ found others, Unfolds index element found ∧
      (loader.loadElement (loader.expandReference index others) found).result = .ok tree := by
  cases hreference : isReference element with
  | false => exact ⟨element, names, .node hreference, hload⟩
  | true =>
    rw [result_loadElement, if_pos hreference, result_expandReference, Except.bind_eq_ok_iff]
      at hload
    obtain ⟨⟨id, copy⟩, hresolve, hcopy⟩ := hload
    obtain ⟨hid, hclosed, root, hopens, rfl⟩ := resolve_eq_ok_iff.mp hresolve
    -- The copy may be larger than the reference, but it leaves fewer definitions to open.
    have hfewer := unopened_cons_lt hclosed hopens
    obtain ⟨found, others, hunfolds, hfound⟩ := exists_unfolds hcopy
    exact ⟨found, others, .reference hreference hid hopens hunfolds, hfound⟩
termination_by index.unopened names

/-- A tree that loads mirrors its element. -/
theorem mirrors_of_loadElement (hstandard : loader.registry = .standard) {index : TreeIndex}
    {names : List String} {element : Element} {tree : Tree κ}
    (hload : (loader.loadElement (loader.expandReference index names) element).result = .ok tree) :
    Mirrors loader.context index element tree := by
  induction tree using Tree.nodeInduction generalizing names element with
  | node name kind children ih =>
    obtain ⟨found, others, hunfolds, hfound⟩ := exists_unfolds hload
    obtain ⟨hnode, hchildren⟩ :=
      exists_of_loadElement_eq_ok hstandard hunfolds.isReference_eq hfound
    refine ⟨fun path node hat => ?_, fun path inner hat => ?_⟩
    · cases path with
      | nil =>
        cases hat
        exact ⟨found, .here hunfolds, hnode⟩
      | cons position path =>
        rw [Tree.at?, Tree.below?_eq, Option.bind_eq_some_iff] at hat
        obtain ⟨tree, htree, hinner⟩ := hat
        obtain ⟨hlt, rfl⟩ := List.getElem?_eq_some_iff.mp htree
        split at hchildren
        · next hleaf =>
          -- The node is a leaf, so there is nothing at a position below it.
          have hnone : children = [] := hchildren
          simp [hnone] at hlt
        · next hleaf =>
          have hlt' : position < found.children.length := by rwa [hchildren.length_eq]
          have hmirrors := ih _ (List.getElem_mem hlt) (hchildren.get hlt' hlt)
          obtain ⟨inner, hat, hinner⟩ := hmirrors.nodes path node hinner
          exact ⟨inner, .inside hunfolds hleaf (List.getElem?_eq_getElem hlt') hat, hinner⟩
    · cases hat with
      | here hother =>
        cases hunfolds.unique hother
        exact ⟨_, rfl, hnode⟩
      | inside hother hleaf hchild hinner =>
        cases hunfolds.unique hother
        rw [if_neg hleaf] at hchildren
        obtain ⟨hlt, rfl⟩ := List.getElem?_eq_some_iff.mp hchild
        have hlt' : _ < children.length := hchildren.length_eq ▸ hlt
        have hmirrors := ih _ (List.getElem_mem hlt') (hchildren.get hlt hlt')
        obtain ⟨node, hat, hnode⟩ := hmirrors.elements _ inner hinner
        refine ⟨node, ?_, hnode⟩
        rw [Tree.at?, Tree.below?_eq, List.getElem?_eq_getElem hlt', Option.bind_some, hat]

/-- Children that have been counted are not refused. -/
theorem admits_of_arityError?_eq_none {element : Element} {name : String} (hrelays : kind.relays)
    (hsome : kind.arity ≠ .exactly 0) (hcount : arityError? kind element name = none) :
    ∀ count < element.children.length, kind.admits count := by
  intro count hlt
  rw [Kind.admits_eq hrelays]
  cases harity : kind.arity with
  | any => rfl
  | exactly limit =>
    have hlimit : limit ≠ 0 := by
      rintro rfl
      exact hsome harity
    rw [arityError?_eq_none_iff.mp hcount limit harity hlimit] at hlt
    exact decide_eq_true hlt

/-- Loading an element with the built-in types never refuses a child. -/
theorem loadElement_ne_childRefused (hstandard : loader.registry = .standard) (index : TreeIndex)
    (names : List String) (element : Element) (type : String) :
    (loader.loadElement (loader.expandReference index names) element).result ≠
      .error (.childRefused type) := by
  intro herror
  cases hreference : isReference element with
  | true =>
    rw [result_loadElement, if_pos hreference, result_expandReference,
      Except.bind_eq_error_iff] at herror
    obtain hresolve | ⟨⟨id, copy⟩, hresolve, hcopy⟩ := herror
    · simp [resolve_eq_error_iff] at hresolve
    · obtain ⟨_, hclosed, root, hopens, _⟩ := resolve_eq_ok_iff.mp hresolve
      have hfewer := unopened_cons_lt hclosed hopens
      exact loadElement_ne_childRefused hstandard index (id :: names) copy type hcopy
  | false =>
    rw [result_loadElement, hreference, if_neg Bool.false_ne_true,
      Except.bind_eq_error_iff] at herror
    obtain hkind | ⟨kind, hkind, hrest⟩ := herror
    · cases eq_unknownNode_of_loadKind hkind
    · obtain ⟨_, _, _, hrelays, _⟩ := result_loadKind_of_mem hstandard hkind
      split at hrest
      · cases hrest
      · next hsome =>
        split at hrest
        · next error hcount =>
          cases hrest
          obtain ⟨_, herror⟩ := exists_of_arityError?_eq_some hcount
          cases herror
        · next hcount =>
          obtain hchildren | ⟨_, _, hnone⟩ := Except.bind_eq_error_iff.mp hrest
          · -- No child is refused, so one of them fails itself, and it is smaller.
            have hadmits := admits_of_arityError?_eq_none hrelays hsome hcount
            obtain ⟨child, hmem, hchild⟩ :=
              exists_mem_of_loadChildren_eq_error (by rwa [Nat.zero_add]) hchildren
            have hsmaller := sizeOf_lt_of_mem_children hmem
            exact loadElement_ne_childRefused hstandard index names child type hchild
          · cases hnone
termination_by (index.unopened names, sizeOf element)

/-- Loading a document with the built-in types never refuses a child. -/
theorem load_ne_childRefused (hstandard : loader.registry = .standard) (root : Element)
    (type : String) : (loader.load root).result ≠ .error (.childRefused type) := by
  rw [result_load]
  split
  · intro herror
    obtain hmain | ⟨main, -, houtcome⟩ := Except.bind_eq_error_iff.mp herror
    · rw [result_mainTree] at hmain
      split at hmain <;> cases hmain
    · unfold outcomeOf at houtcome
      split at houtcome
      · cases houtcome
      · exact loadElement_ne_childRefused hstandard _ _ _ _ houtcome
  · nofun

/-- A document that loads has a main tree, and the tree that it loads to mirrors the root element of
that. -/
theorem exists_mirrors_of_load (hstandard : loader.registry = .standard) {root : Element}
    {tree : Tree κ} (hload : (loader.load root).result = .ok tree) :
    ∃ main element rest, (mainTree root).result = .ok main ∧ main.children = element :: rest ∧
      Mirrors loader.context (ofRoot root).1 element tree := by
  rw [result_load] at hload
  split at hload
  · obtain ⟨main, hmain, houtcome⟩ := Except.bind_eq_ok_iff.mp hload
    unfold outcomeOf at houtcome
    split at houtcome
    · cases houtcome
    · next element rest hchildren =>
      exact ⟨main, element, rest, hmain, hchildren, mirrors_of_loadElement hstandard houtcome⟩
  · cases hload

/-- What stands at a position of an element that loads has a registered name, and one child element
if it is a decorator. -/
theorem Mirrors.suits_at {context : Context} {index : TreeIndex} {element found : Element}
    {tree : Tree κ} {path : Path} (hmirrors : Mirrors context index element tree)
    (hat : ElementAt index element path found) :
    (found.name ∈ Registry.decoratorNames → found.children.length = 1) ∧
      ∃ kind : Kind κ, (found.name, kind) ∈ Registry.builtIn := by
  obtain ⟨node, -, hnode⟩ := hmirrors.elements path found hat
  obtain ⟨kind, hmem, -⟩ := hnode.configured
  exact ⟨hnode.length_eq_one, kind, hmem⟩

/-- Loading with the built-in node types refuses no child. A tree that is loaded mirrors the root
element of the main tree: at each position there is a node in the one and an element in the other,
and the node has the name, the type and the settings that the element gives it, and a number of
children that suits its type. If somewhere in the main tree, outside of leaves, there is a decorator
with another number of child elements than one, or a name that is not registered, loading fails. -/
theorem load_mirrors (context : Context) (root : Element) :
    (∀ type, ((⟨.standard, context⟩ : Loader κ).load root).result ≠
      .error (.childRefused type)) ∧
    (∀ tree, ((⟨.standard, context⟩ : Loader κ).load root).result = .ok tree →
      ∃ main element rest, (mainTree root).result = .ok main ∧ main.children = element :: rest ∧
        Mirrors context (ofRoot root).1 element tree) ∧
    ∀ main element rest path found, (mainTree root).result = .ok main →
      main.children = element :: rest → ElementAt (ofRoot root).1 element path found →
      (found.name ∈ Registry.decoratorNames ∧ found.children.length ≠ 1 ∨
        ∀ kind : Kind κ, (found.name, kind) ∉ Registry.builtIn) →
      ∃ error, ((⟨.standard, context⟩ : Loader κ).load root).result = .error error := by
  have hstandard : (⟨.standard, context⟩ : Loader κ).registry = .standard := rfl
  refine ⟨load_ne_childRefused hstandard root, fun tree => exists_mirrors_of_load hstandard, ?_⟩
  intro main element rest path found hmain hchildren hat hunfit
  cases hload : ((⟨.standard, context⟩ : Loader κ).load root).result with
  | error error => exact ⟨error, rfl⟩
  | ok tree =>
    obtain ⟨main', element', rest', hmain', hchildren', hmirrors⟩ :=
      exists_mirrors_of_load hstandard hload
    cases hmain.symm.trans hmain'
    cases hchildren.symm.trans hchildren'
    obtain ⟨hdecorator, kind, hmem⟩ := hmirrors.suits_at hat
    obtain ⟨hname, hlength⟩ | hunknown := hunfit
    · exact absurd (hdecorator hname) hlength
    · exact absurd hmem (hunknown kind)

/-- A document whose main tree is an inverter of a leaf that has a child element. -/
def shelteredLeaf : Element :=
  ⟨"root", [⟨"main_tree_to_execute", "Main"⟩],
    [⟨"BehaviorTree", [⟨"ID", "Main"⟩],
      [⟨"Inverter", [], [⟨"Wait", [], [⟨"Unknown", [], []⟩]⟩]⟩]⟩]⟩

/-- A document whose main tree is a sequence of a tree that is an inverter without a child. -/
def emptyInverter : Element :=
  ⟨"root", [⟨"main_tree_to_execute", "Main"⟩],
    [⟨"BehaviorTree", [⟨"ID", "Main"⟩], [⟨"Sequence", [], [⟨"SubTree", [⟨"ID", "Not"⟩], []⟩]⟩]⟩,
     ⟨"BehaviorTree", [⟨"ID", "Not"⟩], [⟨"Inverter", [], []⟩]⟩]⟩

/-- In this document an inverter without children stands at the first position of the main tree. -/
theorem elementAt_emptyInverter :
    ElementAt (ofRoot emptyInverter).1 ⟨"Sequence", [], [⟨"SubTree", [⟨"ID", "Not"⟩], []⟩]⟩ [0]
      ⟨"Inverter", [], []⟩ :=
  .inside (.node rfl) (by decide) rfl
    (.here (.reference rfl rfl ⟨_, [], rfl, rfl⟩ (.node rfl)))

/-- The one document loads, since nothing below a leaf counts, and the other does not. -/
theorem load_mirrors_shelteredLeaf :
    (∃ tree main element rest,
      ((⟨.standard, {}⟩ : Loader Empty).load shelteredLeaf).result = .ok tree ∧
      (mainTree shelteredLeaf).result = .ok main ∧ main.children = element :: rest ∧
      Mirrors {} (ofRoot shelteredLeaf).1 element tree) ∧
    ∃ error, ((⟨.standard, {}⟩ : Loader Empty).load emptyInverter).result = .error error := by
  have hload : ((⟨.standard, {}⟩ : Loader Empty).load shelteredLeaf).result =
      .ok ⟨"Inverter", .inverter, [⟨"Wait", .wait 1000, []⟩]⟩ := by rfl
  constructor
  · obtain ⟨main, element, rest, hmain, hchildren, hmirrors⟩ :=
      (load_mirrors {} shelteredLeaf).2.1 _ hload
    exact ⟨_, main, element, rest, hload, hmain, hchildren, hmirrors⟩
  · exact (load_mirrors {} emptyInverter).2.2 _ _ [] [0] _ rfl rfl elementAt_emptyInverter
      (.inl ⟨by decide, by decide⟩)

end Loader

end BehaviorTree
