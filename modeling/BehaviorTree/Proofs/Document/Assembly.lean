import BehaviorTree.Proofs.Document.Shape
import BehaviorTree.Proofs.Tree.Parts

/-!
# Loading with contexts

A node that is loaded is made with a context of its own. It is bound to the shared context while it
has no children yet; those are loaded, each in the same way, and then added. Here loading is
followed with what the nodes keep at every step. In the end every node is bound to the shared
context and has never moved, whatever the shape of the tree and wherever references were expanded
(`Loader.assemble_eq`).
-/

namespace BehaviorTree

/-- What is loaded, changed by a function. -/
def Load.map {α β : Type} (change : α → β) (load : Load α) : Load β :=
  ⟨load.journal, load.result.map change⟩

namespace Load

variable {α β γ : Type}

/-- A change of what is loaded last is a change in the last step. -/
theorem map_bind (change : β → γ) (load : Load α) (next : α → Load β) :
    (load >>= next).map change = load >>= fun value => (next value).map change := by
  obtain ⟨journal, result⟩ := load
  cases result <;> rfl

/-- What goes on from a changed value goes on from the value and its change. -/
theorem bind_map (change : α → β) (load : Load α) (next : β → Load γ) :
    load.map change >>= next = load >>= fun value => next (change value) := by
  obtain ⟨journal, result⟩ := load
  cases result <;> rfl

/-- A value that needs no loading is changed at once. -/
theorem map_pure (change : α → β) (value : α) :
    (Pure.pure value : Load α).map change = Pure.pure (change value) := rfl

/-- A change does not move what has been journalled. -/
theorem map_under (change : α → β) (index : Nat) (load : Load α) :
    (load.under index).map change = (load.map change).under index := rfl

/-- Reporting something first stands before the rest. -/
theorem map_ite_note_bind (change : α → β) (condition : Prop) [Decidable condition]
    (happenings : List Happening) (load : Load α) :
    (do if condition then note happenings
        load).map change =
      (do if condition then note happenings
          load.map change) := by
  split
  · exact map_bind change (note happenings) fun _ => load
  · rfl

end Load

variable {κ : Type} [Application κ]

/-- A tree that is being put together, with what its nodes keep. -/
structure Assembly (κ : Type) [Application κ] where
  /-- The tree so far. -/
  tree : Tree κ
  /-- What its nodes keep. -/
  memory : Memory tree

namespace Assembly

/-- A node as it is made: without children, and with a context of its own. -/
def make (name : String) (kind : Kind κ) : Assembly κ :=
  ⟨⟨name, kind, []⟩, .fresh (.own {}) ⟨name, kind, []⟩⟩

/-- Binds the nodes to a shared context. Nothing is held while a tree is put together. -/
def bind (id : Nat) (part : Assembly κ) : Assembly κ :=
  ⟨part.tree, (part.memory.bind 0 id fun _ => false).1⟩

/-- What the nodes of several parts keep. -/
def memories : (parts : List (Assembly κ)) → Memories (parts.map tree)
  | [] => .nil
  | part :: rest => .cons part.memory (memories rest)

/-- Adds children to a node, after those that it has. -/
def adopt : Assembly κ → List (Assembly κ) → Assembly κ
  | ⟨⟨name, kind, _⟩, .node cell below⟩, parts =>
    ⟨⟨name, kind, _⟩, .node cell (below.append (memories parts))⟩

/-- A tree whose nodes have never moved and are all bound to one context. -/
def complete (id : Nat) (tree : Tree κ) : Assembly κ := ⟨tree, .fresh (.shared id) tree⟩

/-- Complete trees one after the other have never moved and are bound to one context. -/
theorem sigma_memories_complete (id : Nat) (trees : List (Tree κ)) :
    (⟨_, memories (trees.map (complete id))⟩ : (trees : List (Tree κ)) × Memories trees) =
      ⟨trees, .fresh (.shared id) trees⟩ := by
  induction trees with
  | nil => rfl
  | cons tree trees ih =>
    exact congrArg (fun rest : (trees : List (Tree κ)) × Memories trees =>
      (⟨tree :: rest.1, .cons (.fresh (.shared id) tree) rest.2⟩ :
        (trees : List (Tree κ)) × Memories trees)) ih

/-- A node without children is complete as soon as it is bound. -/
theorem bind_make (id : Nat) (name : String) (kind : Kind κ) :
    (make name kind).bind id = complete id ⟨name, kind, []⟩ := by
  cases kind <;> rfl

/-- A node that is bound before it gets its children makes a complete tree of complete ones. -/
theorem adopt_bind_make (id : Nat) (name : String) (kind : Kind κ) (trees : List (Tree κ)) :
    ((make name kind).bind id).adopt (trees.map (complete id)) =
      complete id ⟨name, kind, trees⟩ := by
  rw [bind_make]
  exact congrArg (fun rest : (trees : List (Tree κ)) × Memories trees =>
    (⟨⟨name, kind, rest.1⟩, .node ⟨kind.initial, .shared id⟩ rest.2⟩ : Assembly κ))
    (sigma_memories_complete id trees)

end Assembly

namespace Loader

mutual

/-- Loads the tree that an element describes, with what its nodes keep. -/
def assembleElement (loader : Loader κ) (expand : Element → Load (Assembly κ)) :
    Element → Load (Assembly κ)
  | ⟨tag, attributes, children⟩ =>
    let element : Element := ⟨tag, attributes, children⟩
    if isReference element then expand element
    else do
      let name := nodeName element
      let kind ← loader.loadKind element name
      let node := (Assembly.make name kind).bind 0
      if kind.arity = .exactly 0 then
        if children.length ≠ 0 then
          Load.note [.notice (.childrenIgnored name children.length)]
        return node
      else
        match arityError? kind element name with
        | some error => Load.fail error
        | none =>
          let parts ← loader.assembleChildren expand kind tag name 0 children
          return node.adopt parts

/-- Loads the children of a node, with what their nodes keep. -/
def assembleChildren (loader : Loader κ) (expand : Element → Load (Assembly κ)) (kind : Kind κ)
    (tag name : String) (index : Nat) : List Element → Load (List (Assembly κ))
  | [] => return []
  | child :: rest => do
    let part ← (loader.assembleElement expand child).under index
    Loader.adopt kind tag name index part.tree
    let parts ← loader.assembleChildren expand kind tag name (index + 1) rest
    return part :: parts

end

/-- Replaces a reference by the tree it refers to, with what its nodes keep. -/
def assembleReference (loader : Loader κ) (index : TreeIndex) (names : List String)
    (element : Element) : Load (Assembly κ) :=
  match _ : resolve index names element with
  | .error error => Load.fail error
  | .ok (id, root) => do
    if hasRemap element then
      Load.note [.notice (.remapIgnored id)]
    loader.assembleElement (loader.assembleReference index (id :: names)) root
termination_by index.unopened names
decreasing_by
  obtain ⟨_, hclosed, _, hopens, _⟩ := resolve_eq_ok_iff.mp ‹resolve _ _ _ = _›
  exact TreeIndex.unopened_cons_lt hclosed hopens

/-- Loads the main tree of a document, with what its nodes keep. The only shared context is that of
the loader. -/
def assemble (loader : Loader κ) (root : Element) : Load (Assembly κ) := do
  if !Text.sameName root.name "root" then
    Load.fail (.invalidRoot root.name)
  checkFormat root
  let main ← mainTree root
  let id := mainId main
  Load.note [.notice (.treeLoading id)]
  match main.children with
  | [] => Load.fail (.emptyTree id)
  | element :: _ =>
    let (index, notices) := TreeIndex.ofRoot root
    Load.note (notices.map .notice)
    let part ← loader.assembleElement (loader.assembleReference index [id]) element
    Load.note [.notice (.treeLoaded id)]
    return part

mutual

/-- If references are expanded to complete trees, an element is assembled to a complete tree. -/
theorem assembleElement_eq (loader : Loader κ) {expand : Element → Load (Tree κ)}
    {assembled : Element → Load (Assembly κ)}
    (hexpand : ∀ element, assembled element = (expand element).map (Assembly.complete 0)) :
    (element : Element) → loader.assembleElement assembled element =
      (loader.loadElement expand element).map (Assembly.complete 0)
  | ⟨tag, attributes, children⟩ => by
    have hchildren := fun kind name =>
      assembleChildren_eq loader hexpand kind tag name 0 children
    rw [assembleElement, loadElement]
    dsimp only
    split
    · exact hexpand _
    · rw [Load.map_bind]
      congr 1
      funext kind
      by_cases hleaf : kind.arity = .exactly 0
      · rw [if_pos hleaf, if_pos hleaf, Load.map_ite_note_bind, Load.map_pure,
          ← Assembly.bind_make]
      · rw [if_neg hleaf, if_neg hleaf]
        cases arityError? kind ⟨tag, attributes, children⟩
          (nodeName ⟨tag, attributes, children⟩) with
        | some error => rfl
        | none =>
          simp only [hchildren, Load.bind_map, Load.map_bind, Load.map_pure,
            Assembly.adopt_bind_make]

/-- If references are expanded to complete trees, the children of a node are assembled to complete
trees. -/
theorem assembleChildren_eq (loader : Loader κ) {expand : Element → Load (Tree κ)}
    {assembled : Element → Load (Assembly κ)}
    (hexpand : ∀ element, assembled element = (expand element).map (Assembly.complete 0))
    (kind : Kind κ) (tag name : String) (index : Nat) : (children : List Element) →
      loader.assembleChildren assembled kind tag name index children =
        (loader.loadChildren expand kind tag name index children).map
          (List.map (Assembly.complete 0))
  | [] => by rw [assembleChildren, loadChildren, Load.map_pure, List.map_nil]
  | child :: rest => by
    have hchild := assembleElement_eq loader hexpand child
    have hrest := assembleChildren_eq loader hexpand kind tag name (index + 1) rest
    rw [assembleChildren, loadChildren, hchild, hrest, ← Load.map_under, Load.bind_map,
      Load.map_bind]
    congr 1
    funext tree
    rw [Load.map_bind]
    congr 1
    funext _
    rw [Load.bind_map, Load.map_bind]
    rfl

end

/-- A reference is expanded to a complete tree, by induction on the trees that can still be
opened. -/
theorem assembleReference_eq (loader : Loader κ) (index : TreeIndex) (names : List String)
    (element : Element) : loader.assembleReference index names element =
      (loader.expandReference index names element).map (Assembly.complete 0) := by
  rw [assembleReference, expandReference_eq]
  split
  · next error hresolve =>
    rw [hresolve]
    rfl
  · next id root hresolve =>
    have hroot := assembleElement_eq loader
      (fun element => assembleReference_eq loader index (id :: names) element) root
    rw [hresolve, hroot]
    exact (Load.map_ite_note_bind _ _ _ _).symm
termination_by index.unopened names
decreasing_by
  obtain ⟨_, hclosed, _, hopens, _⟩ := resolve_eq_ok_iff.mp ‹resolve _ _ _ = _›
  exact TreeIndex.unopened_cons_lt hclosed hopens

/-- A document is loaded to a complete tree: every node is bound to the shared context. -/
theorem assemble_eq (loader : Loader κ) (root : Element) :
    loader.assemble root = (loader.load root).map (Assembly.complete 0) := by
  unfold assemble load
  cases Text.sameName root.name "root" with
  | false => rfl
  | true =>
    simp only [Bool.not_true, Bool.false_eq_true, if_false, Load.map_bind]
    congr 1
    funext _
    congr 1
    funext main
    congr 1
    funext _
    cases main.children with
    | nil => rfl
    | cons element rest =>
      have helement := assembleElement_eq loader
        (loader.assembleReference_eq (TreeIndex.ofRoot root).1 [mainId main]) element
      simp only [helement, Load.map_bind, Load.bind_map, Load.map_pure]

end Loader

end BehaviorTree
