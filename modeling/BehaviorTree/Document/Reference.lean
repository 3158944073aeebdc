import BehaviorTree.Document.Error
import BehaviorTree.Document.TreeIndex

/-!
# References to trees

A `SubTree` element refers to a tree by its identifier. It resolves to a copy of the root
element of that tree, unless the tree is unknown, has no root element or is being built
already.
-/

namespace BehaviorTree

namespace Loader

/-- Whether an element stands for another tree. -/
def isReference (element : Element) : Bool := Text.sameName element.name "SubTree"

/-- The identifier that a reference gives, without surrounding blanks. -/
def referenceId? (element : Element) : Option String :=
  (((element.attribute? "ID").or (element.attribute? "id")).map Text.trim).filter (· ≠ "")

/-- The copy of a root element that stands for a reference: under the name that the reference
gives, if that is not blank. -/
def standIn (reference root : Element) : Element :=
  match (reference.attribute? "name").filter fun name => !Text.isBlankText name with
  | some name => root.setAttribute "name" name
  | none => root

/-- What stands in for a reference keeps the name of the tree's root, so it is a reference just if
that root is one. -/
@[simp] theorem isReference_standIn (reference root : Element) :
    isReference (standIn reference root) = isReference root := by
  unfold standIn
  split <;> rfl

/-- What stands in for a reference has the children of the tree's root. -/
@[simp] theorem children_standIn (reference root : Element) :
    (standIn reference root).children = root.children := by
  unfold standIn
  split <;> rfl

/-- A new name leaves the identifier that a reference gives. -/
@[simp] theorem referenceId?_standIn (reference root : Element) :
    referenceId? (standIn reference root) = referenceId? root := by
  unfold standIn
  split
  · simp [referenceId?, Element.attribute?_setAttribute]
  · rfl

/-- The identifier that a reference gives, and the element that stands for the reference. The
names are those of the trees that are being built, the innermost first. -/
def resolve (index : TreeIndex) (names : List String) (element : Element) :
    Except LoadError (String × Element) :=
  match referenceId? element with
  | none => .error .missingSubtreeId
  | some id =>
    if TreeIndex.isOpen names id then .error (.subtreeCycle (id :: names).reverse)
    else
      match index.get? id with
      | none => .error (.subtreeNotFound id index.ids)
      | some tree =>
        match tree.children with
        | [] => .error (.emptyTree id)
        | root :: _ => .ok (id, standIn element root)

/-- A reference resolves exactly if its identifier names a definition with a root element that
is not being built. -/
theorem resolve_eq_ok_iff {index : TreeIndex} {names : List String} {element copy : Element}
    {id : String} :
    resolve index names element = .ok (id, copy) ↔
      referenceId? element = some id ∧ TreeIndex.isOpen names id = false ∧
        ∃ root, index.Opens id root ∧ copy = standIn element root := by
  constructor
  · intro h
    unfold resolve at h
    split at h
    · cases h
    · next own hown =>
      split at h
      · cases h
      · next hclosed =>
        split at h
        · cases h
        · next tree hget =>
          split at h
          · cases h
          · next root rest hchildren =>
            cases h
            exact ⟨hown, by simpa using hclosed, root, ⟨tree, rest, hget, hchildren⟩, rfl⟩
  · rintro ⟨hid, hclosed, root, ⟨tree, rest, hget, hchildren⟩, rfl⟩
    simp [resolve, hid, hclosed, hget, hchildren]

/-- Whether a reference asks for remapping, which is not supported. -/
def hasRemap (element : Element) : Bool :=
  element.children.any fun child => Text.sameName child.name "remap"

end Loader

end BehaviorTree
