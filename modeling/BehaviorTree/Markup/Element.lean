/-!
# Elements of a tree document

An element has a name, attributes in document order and child elements. Attribute names may
repeat; reading an attribute finds the first one.
-/

namespace BehaviorTree

/-- One attribute of an element, its value decoded. -/
structure Attribute where
  /-- The name as it is written. -/
  name : String
  /-- The value with its references replaced. -/
  value : String
  deriving DecidableEq

/-- An element of a document. -/
structure Element where
  /-- The tag of the element. -/
  name : String
  /-- The attributes in the order in which they are written. -/
  attributes : List Attribute
  /-- The elements inside, in order. -/
  children : List Element

namespace Element

/-- An element without a name stands in where none is given. -/
instance : Inhabited Element := ⟨⟨"", [], []⟩⟩

/-- The value of the first attribute with this name. -/
def attribute? (element : Element) (name : String) : Option String :=
  (element.attributes.find? fun found => found.name = name).map (·.value)

/-- Replaces the value of the first attribute with this name, or adds one at the end. -/
def setIn (name value : String) : List Attribute → List Attribute
  | [] => [⟨name, value⟩]
  | first :: rest =>
    if first.name = name then ⟨name, value⟩ :: rest else first :: setIn name value rest

/-- Gives an element an attribute, in place of the first one with the same name. -/
def setAttribute (element : Element) (name value : String) : Element :=
  { element with attributes := setIn name value element.attributes }

/-- After an attribute has been set, its name finds the new value and every other name finds what it
found before. -/
theorem find?_setIn (name value other : String) (attributes : List Attribute) :
    ((setIn name value attributes).find? fun found => found.name = other).map (·.value) =
      if name = other then some value
      else (attributes.find? fun found => found.name = other).map (·.value) := by
  induction attributes with
  | nil =>
    by_cases hname : name = other <;> simp [setIn, hname]
  | cons first rest ih =>
    by_cases hfirst : first.name = name
    · subst hfirst
      by_cases hname : first.name = other <;> simp [setIn, hname]
    · by_cases hother : first.name = other
      · subst hother
        have hname : name ≠ first.name := fun h => hfirst h.symm
        simp [setIn, hfirst, hname]
      · simpa [setIn, hfirst, hother] using ih

/-- Setting an attribute changes the value under its name and under no other. -/
theorem attribute?_setAttribute (element : Element) (name value other : String) :
    (element.setAttribute name value).attribute? other =
      if name = other then some value else element.attribute? other :=
  find?_setIn name value other element.attributes

/-- The child elements with this name, in order. -/
def elements (element : Element) (name : String) : List Element :=
  element.children.filter fun child => child.name = name

mutual

/-- Whether two elements agree in name, attributes and children. -/
def same : Element → Element → Bool
  | ⟨name, attributes, children⟩, ⟨name', attributes', children'⟩ =>
    name = name' && attributes = attributes' && sameAll children children'

/-- Whether two lists of elements agree one by one. -/
def sameAll : List Element → List Element → Bool
  | [], [] => true
  | element :: rest, element' :: rest' => same element element' && sameAll rest rest'
  | _, _ => false

end

end Element

end BehaviorTree
