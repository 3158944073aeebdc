import BehaviorTree.Context.Placeholder
import BehaviorTree.Document.Files
import BehaviorTree.Document.Reference
import BehaviorTree.Markup.Parser
import BehaviorTree.Property.Name
import BehaviorTree.Registry
import BehaviorTree.Tree.Control

/-!
# Loading a tree from a document

The main tree of a document is built from the root element of its definition. Each element
becomes a node of the kind registered under its name, with its properties set from the
attributes; a `SubTree` element is replaced by a copy of the tree it refers to. A reference
to a tree that is being built already is an error.
-/

namespace BehaviorTree

/-- A computation that keeps a journal and may fail. The journal of a failure is kept. -/
structure Load (α : Type) where
  /-- What happened until the end or the failure. -/
  journal : Journal
  /-- The value, or the reason why there is none. -/
  result : Except LoadError α

namespace Load

variable {α β : Type}

/-- Loads nothing and gives a value. -/
def pure (value : α) : Load α := ⟨[], .ok value⟩

/-- Goes on with what has been loaded, unless that has failed. The journals follow one another. -/
def bind (load : Load α) (next : α → Load β) : Load β :=
  match load.result with
  | .ok value => ⟨load.journal ++ (next value).journal, (next value).result⟩
  | .error error => ⟨load.journal, .error error⟩

/-- Steps of loading in sequence. -/
instance : Monad Load where
  pure := pure
  bind := bind

/-- Gives loading up with an error. -/
def fail (error : LoadError) : Load α := ⟨[], .error error⟩

/-- A result that needs no loading. -/
def ofExcept (result : Except LoadError α) : Load α := ⟨[], result⟩

/-- Notes events and notices. Loading takes place at time zero. -/
def note (happenings : List Happening) : Load Unit :=
  ⟨happenings.map fun happening => ⟨0, [], happening⟩, .ok ()⟩

/-- The loading of a child, seen from its parent. -/
def under (index : Nat) (load : Load α) : Load α :=
  { load with journal := load.journal.map (·.under index) }

end Load

/-- What loading a document depends on besides the document. -/
structure Loader (κ : Type) where
  /-- The types of nodes that elements may name. -/
  registry : Registry κ
  /-- The context that the nodes are bound to and that text attributes are resolved in. -/
  context : Context

namespace Loader

variable {κ : Type} [Application κ]

/-- The declared property that an attribute sets. The attribute `name` never sets one. -/
def propertyFor? (properties : List Property) (item : Attribute) : Option Property :=
  if item.name = "name" then none
  else properties.find? fun property => property.key = Property.pascalCase item.name

/-- Sets the property that one attribute names, with placeholders filled in from the
context. An attribute that names none is ignored, and one that does not convert is
reported. -/
def configureOne (context : Context) (name : String) (properties : List Property)
    (kind : Kind κ) (item : Attribute) : Kind κ × List Happening :=
  match propertyFor? properties item with
  | none => (kind, [])
  | some property =>
    match property.parse (context.insertValues item.value) with
    | .ok value =>
      let kind := kind.configure property.key value
      (kind, [.event (.configured name property.key value kind.settings)])
    | .error error => (kind, [.notice (.propertyRejected name error.message)])

/-- Sets properties from attributes, in their order. -/
def configureAll (context : Context) (name : String) (properties : List Property) :
    Kind κ → List Attribute → Kind κ × List Happening
  | kind, [] => (kind, [])
  | kind, item :: rest =>
    let (kind, happenings) := configureOne context name properties kind item
    let (kind, others) := configureAll context name properties kind rest
    (kind, happenings ++ others)

/-- The kind registered for an element, with its properties set. -/
def loadKind (loader : Loader κ) (element : Element) (name : String) : Load (Kind κ) := do
  let kind ← Load.ofExcept (loader.registry.create element.name)
  Load.note [.event (.renamed kind.title name), .event (.bound name)]
  let (kind, happenings) :=
    configureAll loader.context name kind.properties kind element.attributes
  Load.note happenings
  return kind

/-- The error for a wrong number of children, unless the number is right. -/
def arityError? (kind : Kind κ) (element : Element) (name : String) : Option LoadError :=
  match kind.arity with
  | .any => none
  | .exactly expected =>
    if expected = 0 ∨ element.children.length = expected then none
    else some (.childCount name element.name expected element.children.length)

/-- Adds a loaded child to a node that has `count` children. -/
def adopt (kind : Kind κ) (element name : String) (count : Nat) (child : Tree κ) : Load Unit :=
  if kind.admits count then Load.note [.event (.adopted name child.name)]
  else do
    Load.note [.event (.refused name child.name)]
    Load.fail (.childRefused element)

/-- The name of the node that an element describes. -/
def nodeName (element : Element) : String := (element.attribute? "name").getD element.name

mutual

/-- Loads the tree that an element describes. How a reference to another tree is expanded is
given from outside. -/
def loadElement (loader : Loader κ) (expand : Element → Load (Tree κ)) :
    Element → Load (Tree κ)
  | ⟨tag, attributes, children⟩ =>
    let element : Element := ⟨tag, attributes, children⟩
    if isReference element then expand element
    else do
      let name := nodeName element
      let kind ← loader.loadKind element name
      if kind.arity = .exactly 0 then
        if children.length ≠ 0 then
          Load.note [.notice (.childrenIgnored name children.length)]
        return ⟨name, kind, []⟩
      else
        match arityError? kind element name with
        | some error => Load.fail error
        | none =>
          let trees ← loader.loadChildren expand kind tag name 0 children
          return ⟨name, kind, trees⟩

/-- Loads the children of a node, the first of them being the one with the given index. -/
def loadChildren (loader : Loader κ) (expand : Element → Load (Tree κ)) (kind : Kind κ)
    (tag name : String) (index : Nat) : List Element → Load (List (Tree κ))
  | [] => return []
  | child :: rest => do
    let tree ← (loader.loadElement expand child).under index
    adopt kind tag name index tree
    let trees ← loader.loadChildren expand kind tag name (index + 1) rest
    return tree :: trees

end

/-- Replaces a reference by the tree it refers to. The names are those of the trees that are
being built, the innermost first. A tree is never opened within itself, so each expansion
leaves fewer definitions to open. -/
def expandReference (loader : Loader κ) (index : TreeIndex) (names : List String)
    (element : Element) : Load (Tree κ) :=
  match _ : resolve index names element with
  | .error error => Load.fail error
  | .ok (id, root) => do
    if hasRemap element then
      Load.note [.notice (.remapIgnored id)]
    loader.loadElement (loader.expandReference index (id :: names)) root
termination_by index.unopened names
decreasing_by
  obtain ⟨_, hclosed, _, hopens, _⟩ := resolve_eq_ok_iff.mp ‹resolve _ _ _ = _›
  exact TreeIndex.unopened_cons_lt hclosed hopens

/-- The expansion of a reference, whatever shows that it ends. -/
theorem expandReference_eq (loader : Loader κ) (index : TreeIndex) (names : List String)
    (element : Element) :
    loader.expandReference index names element =
      match resolve index names element with
      | .error error => Load.fail error
      | .ok (id, root) => (do
        if hasRemap element then
          Load.note [.notice (.remapIgnored id)]
        loader.loadElement (loader.expandReference index (id :: names)) root) := by
  rw [expandReference]
  split
  · next error hresolve => rw [hresolve]
  · next id root hresolve => rw [hresolve]

/-- The main tree that a document asks for by name. -/
def requestedTree? (root : Element) : Option String :=
  (root.attribute? "main_tree_to_execute").filter (· ≠ "")

/-- The definition of the main tree: the first with the requested identifier, else the first
of all. -/
def mainTree (root : Element) : Load Element := do
  let definitions := root.elements "BehaviorTree"
  let requested := requestedTree? root
  if requested.isNone then
    Load.note [.notice .mainTreeUnnamed]
  let isWanted (name : String) (tree : Element) : Bool := tree.attribute? "ID" = some name
  match requested.bind fun name => definitions.find? (isWanted name) with
  | some tree => return tree
  | none =>
    match definitions with
    | [] => Load.fail (.missingTree (root.children.map (·.name)))
    | tree :: _ =>
      if let some name := requested then
        Load.note [.notice (.mainTreeMissing name)]
      return tree

/-- Reports a format version that is not the supported one. -/
def checkFormat (root : Element) : Load Unit :=
  match root.attribute? "BTCPP_format" with
  | some format => if format = "4" then return else Load.note [.notice (.unexpectedFormat format)]
  | none => return

/-- The name of the main tree on the way to its subtrees. -/
def mainId (tree : Element) : String := (tree.attribute? "ID").getD "UnnamedTree"

/-- Loads the main tree of a document given by its root element. -/
def load (loader : Loader κ) (root : Element) : Load (Tree κ) := do
  if !Text.sameName root.name "root" then
    Load.fail (.invalidRoot root.name)
  checkFormat root
  let main ← mainTree root
  let id := mainId main
  Load.note [.notice (.treeLoading id)]
  match main.children with
  | [] => Load.fail (.emptyTree id)
  | element :: _ =>
    let (index, notices) := TreeIndex.ofRoot root
    Load.note (notices.map .notice)
    let expand := loader.expandReference index [id]
    let tree ← loader.loadElement expand element
    Load.note [.notice (.treeLoaded id)]
    return tree

/-- Reads a document that must end where its root element and what may follow it end. -/
def parseDocument (source : String) : Except LoadError Element :=
  let chars := source.toList
  match Markup.parse chars with
  | .ok (root, []) => .ok root
  | .ok (_, rest) =>
    .error (.malformed (Markup.lineOf chars rest) "unexpected content after the root element")
  | .error failure =>
    .error (.malformed (Markup.lineOf chars failure.rest) failure.expected.text)

/-- Loads the main tree of a document given as text. -/
def loadText (loader : Loader κ) (source : String) : Load (Tree κ) := do
  let root ← Load.ofExcept (parseDocument source)
  loader.load root

/-- The text of a file. -/
def fileText (files : Files) (path : String) : Except FileError String :=
  (files.read path).bind fun bytes =>
    match String.fromUTF8? bytes with
    | some text => .ok text
    | none => .error .notText

/-- Loads the main tree of a document in a file. -/
def loadFile (loader : Loader κ) (files : Files) (path : String) : Load (Tree κ) :=
  match fileText files path with
  | .error reason => Load.fail (.unreadable path reason)
  | .ok source => do
    Load.note [.notice .fileRead]
    loader.loadText source

end Loader

end BehaviorTree
