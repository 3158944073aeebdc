import BehaviorTree.Journal.Notice
import BehaviorTree.Markup.Element
import BehaviorTree.Text.Ascii
import BehaviorTree.Text.Blank

/-!
# The index of tree definitions

A document defines trees under identifiers that are compared without regard to ASCII case.
A later definition replaces an earlier one of the same identifier, in its place and with
its own spelling. Definitions without an identifier cannot be referred to.
-/

namespace BehaviorTree

/-- Tree definitions by identifier, in the order in which the identifiers first appear. -/
structure TreeIndex where
  /-- An identifier, spelled as in its last definition, with the element that defines it. -/
  trees : List (String × Element)

namespace TreeIndex

/-- The identifier of a definition, unless it is blank. -/
def idOf? (tree : Element) : Option String :=
  (tree.attribute? "ID").filter fun id => !Text.isBlankText id

/-- Puts a definition in the place of the one with the same identifier, or at the end. -/
def place (id : String) (tree : Element) : List (String × Element) → List (String × Element)
  | [] => [(id, tree)]
  | (existing, other) :: rest =>
    if Text.sameName existing id then (id, tree) :: rest
    else (existing, other) :: place id tree rest

/-- The definition that an identifier refers to. -/
def get? (index : TreeIndex) (id : String) : Option Element :=
  (index.trees.find? fun entry => Text.sameName entry.1 id).map (·.2)

/-- An identifier leads to the root element of the tree that it refers to. -/
def Opens (index : TreeIndex) (id : String) (root : Element) : Prop :=
  ∃ tree rest, index.get? id = some tree ∧ tree.children = root :: rest

/-- Whether an identifier names one of the trees with the given names. -/
def isOpen (names : List String) (id : String) : Bool :=
  names.any fun name => Text.sameName name id

/-- The number of identifiers that name none of the trees with the given names. -/
def unopened (index : TreeIndex) (names : List String) : Nat :=
  (index.trees.filter fun entry => !isOpen names entry.1).length

/-- The identifiers, as they were last spelled. -/
def ids (index : TreeIndex) : List String := index.trees.map (·.1)

/-- Adds one definition and reports if it replaces another. -/
def add (index : TreeIndex) (tree : Element) : TreeIndex × List Notice :=
  match idOf? tree with
  | none => (index, [])
  | some id =>
    (⟨place id tree index.trees⟩, if (index.get? id).isSome then [.treeRedefined id] else [])

/-- Adds definitions in order. -/
def addAll (index : TreeIndex) : List Element → TreeIndex × List Notice
  | [] => (index, [])
  | tree :: rest =>
    let (index, notices) := index.add tree
    let (index, others) := index.addAll rest
    (index, notices ++ others)

/-- The index of the definitions in a document. -/
def ofRoot (root : Element) : TreeIndex × List Notice :=
  TreeIndex.addAll ⟨[]⟩ (root.elements "BehaviorTree")

/-- An identifier leads to one root at most. -/
theorem Opens.unique {index : TreeIndex} {id : String} {root other : Element}
    (hroot : index.Opens id root) (hother : index.Opens id other) : root = other := by
  obtain ⟨tree, rest, hget, hchildren⟩ := hroot
  obtain ⟨tree', rest', hget', hchildren'⟩ := hother
  cases hget.symm.trans hget'
  cases hchildren.symm.trans hchildren'
  rfl

/-- A name is open if it is the innermost one or one of those around it, in any case of letters. -/
theorem isOpen_cons (name : String) (names : List String) (id : String) :
    isOpen (name :: names) id = (Text.sameName name id || isOpen names id) := rfl

/-- Whether a name is open does not depend on the case of its letters. -/
theorem isOpen_congr {id other : String} (hsame : Text.sameName id other = true)
    (names : List String) : isOpen names id = isOpen names other := by
  induction names with
  | nil => rfl
  | cons name rest ih =>
    rw [isOpen_cons, isOpen_cons, ih, Text.sameName_comm name id, Text.sameName_comm name other,
      Text.sameName_congr hsame]

/-- There are no more unopened trees than trees in the index. -/
theorem unopened_le (index : TreeIndex) (names : List String) :
    index.unopened names ≤ index.trees.length := List.length_filter_le _ _

/-- Each tree that is opened takes a definition off those that can still be opened. -/
theorem unopened_cons_lt {index : TreeIndex} {names : List String} {id : String} {root : Element}
    (hclosed : isOpen names id = false) (hopens : index.Opens id root) :
    index.unopened (id :: names) < index.unopened names := by
  obtain ⟨tree, _, hget, _⟩ := hopens
  obtain ⟨entry, hfind, _⟩ := Option.map_eq_some_iff.mp hget
  have hsame : Text.sameName entry.1 id = true := by simpa using List.find?_some hfind
  have hmem : entry ∈ index.trees.filter fun entry => !isOpen names entry.1 := by
    simp [List.mem_of_find?_eq_some hfind, isOpen_congr hsame, hclosed]
  have hsplit : (index.trees.filter fun entry => !isOpen (id :: names) entry.1) =
      (index.trees.filter fun entry => !isOpen names entry.1).filter
        fun entry => !Text.sameName id entry.1 := by
    rw [List.filter_filter]
    exact List.filter_congr fun entry _ => by rw [isOpen_cons, Bool.not_or]
  unfold unopened
  rw [hsplit, List.length_filter_lt_length_iff_exists]
  exact ⟨entry, hmem, by simp [Text.sameName_comm id, hsame]⟩

end TreeIndex

end BehaviorTree
