import BehaviorTree.Document.Load

/-!
# The built-in node types

The built-in types are leaves, decorators with one child, and composites with any number of
children. The settings of a node do not change its type, and so not the number of its children
either.
-/

namespace BehaviorTree

namespace Dict

variable {α : Type} {entries : List (String × α)} {key : String} {value : α}

/-- After several insertions a key has what one of them put there, or what it had before. -/
theorem mem_or_get?_of_foldl {dict : Dict α}
    (hget : (entries.foldl (fun dict entry => dict.insert entry.1 entry.2) dict).get? key =
      some value) : (key, value) ∈ entries ∨ dict.get? key = some value := by
  induction entries generalizing dict with
  | nil => exact .inr hget
  | cons entry rest ih =>
    obtain hmem | hdict := ih hget
    · exact .inl (List.mem_cons_of_mem _ hmem)
    · rw [get?_insert] at hdict
      split at hdict
      · next hkey =>
        cases hdict
        subst hkey
        exact .inl List.mem_cons_self
      · exact .inr hdict

/-- What a dictionary has for a key is one of the entries that it was made from. -/
theorem mem_of_get?_ofList (hget : (ofList entries).get? key = some value) :
    (key, value) ∈ entries := by
  obtain hmem | hnone := mem_or_get?_of_foldl hget
  · exact hmem
  · cases hnone

end Dict

namespace Registry

/-- The names of the types that take one child. -/
def decoratorNames : List String :=
  ["Retry", "RetryUntilSuccess", "Timeout", "Repeat", "Inverter", "Succeeder"]

/-- The names of the types that take no child. -/
def leafNames : List String := ["Wait", "SetBlackboardValue", "AlwaysSuccess", "ForceFailure"]

variable {κ : Type} {name : String} {kind : Kind κ}

/-- A name that the standard registry knows stands for the kind that is built in under it. -/
theorem mem_builtIn_of_kind?_standard (hkind : (standard : Registry κ).kind? name = some kind) :
    (name, kind) ∈ builtIn := Dict.mem_of_get?_ofList hkind

/-- The number of children goes with the name of the type. -/
theorem type_of_mem_builtIn [Application κ] (hmem : (name, kind) ∈ builtIn) :
    kind.relays ∧ (kind.arity = .exactly 1 ↔ name ∈ decoratorNames) ∧
      (kind.arity = .exactly 0 ↔ name ∈ leafNames) := by
  have htypes : ∀ entry ∈ (builtIn : List (String × Kind κ)), entry.2.relays ∧
      (entry.2.arity = .exactly 1 ↔ entry.1 ∈ decoratorNames) ∧
        (entry.2.arity = .exactly 0 ↔ entry.1 ∈ leafNames) := by
    simp [builtIn, Kind.relays, Kind.arity, decoratorNames, leafNames]
  exact htypes (name, kind) hmem

end Registry

namespace Kind

variable {κ : Type} [Application κ] {kind : Kind κ}

/-- A built-in node that takes a limited number of children refuses those beyond it. -/
theorem admits_eq (hrelays : kind.relays) (count : Nat) :
    kind.admits count = match kind.arity with
      | .any => true
      | .exactly limit => count < limit := by
  cases kind with
  | custom node => cases hrelays
  | _ => rfl

/-- A built-in kind and another one that differ in their settings only. -/
structure HasTypeOf (kind other : Kind κ) : Prop where
  /-- The kind is not an application's. -/
  relays : kind.relays
  /-- Both take the same number of children. -/
  arity_eq : kind.arity = other.arity
  /-- Both have the same name. -/
  title_eq : kind.title = other.title
  /-- Both declare the same properties. -/
  properties_eq : kind.properties = other.properties

/-- A setting does not change the type of a built-in node. -/
theorem hasTypeOf_configure (hrelays : kind.relays) (key : String) (value : PropertyValue) :
    (kind.configure key value).HasTypeOf kind := by
  cases kind with
  | custom node => cases hrelays
  | sequence | selector | inverter | succeeder | alwaysSuccess | forceFailure =>
    exact ⟨rfl, rfl, rfl, rfl⟩
  | parallel settings | retry settings | retryUntilSuccess settings | timeout limit
  | repeating settings | wait delay | setValue settings =>
    unfold configure
    dsimp only
    split <;> exact ⟨rfl, rfl, rfl, rfl⟩

/-- The number of children that suits a node of the kind whose element has a number of them. -/
def Suits (elements children : Nat) : Kind κ → Prop
  | sequence | selector | parallel _ => children = elements
  | retry _ | retryUntilSuccess _ | timeout _ | repeating _ | inverter | succeeder =>
    children = 1 ∧ elements = 1
  | wait _ | setValue _ | alwaysSuccess | forceFailure => children = 0
  | custom _ => False

/-- A decorator has one child, and so does its element. -/
theorem Suits.eq_one {elements children : Nat} (hsuits : kind.Suits elements children)
    (harity : kind.arity = .exactly 1) : children = 1 ∧ elements = 1 := by
  cases kind with
  | retry _ | retryUntilSuccess _ | timeout _ | repeating _ | inverter | succeeder => exact hsuits
  | custom _ => exact hsuits.elim
  | _ => cases harity

/-- The numbers of children and of child elements suit a node if they are right for its arity,
whichever that is. -/
theorem suits_of_arity {elements children : Nat} (hrelays : kind.relays)
    (hleaf : kind.arity = .exactly 0 → children = 0)
    (hlimited : ∀ limit, kind.arity = .exactly limit → limit ≠ 0 →
      children = limit ∧ elements = limit)
    (hany : kind.arity = .any → children = elements) : kind.Suits elements children := by
  cases kind with
  | custom node => cases hrelays
  | sequence | selector | parallel settings => exact hany rfl
  | retry _ | retryUntilSuccess _ | timeout _ | repeating _ | inverter | succeeder =>
    exact hlimited 1 rfl Nat.one_ne_zero
  | wait _ | setValue _ | alwaysSuccess | forceFailure => exact hleaf rfl

end Kind

end BehaviorTree
