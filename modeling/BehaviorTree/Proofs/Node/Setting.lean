import BehaviorTree.Proofs.Node.BuiltIn

/-!
# The settings of the built-in nodes

The settings of a built-in node are one value for each property that its type declares, of the type
that the property has (`Kind.properties_eq`). To set a property is to change its value and no other
(`Kind.values_configure`), and all of that is undone by setting it back (`Kind.configure_back`).
-/

namespace BehaviorTree.Kind

variable {κ : Type} [Application κ] {kind : Kind κ}

/-- The settings of a built-in node, each under the key of its property. -/
def values : Kind κ → List (String × PropertyValue)
  | parallel settings =>
    [("SuccessThreshold", .int settings.successThreshold),
     ("FailureThreshold", .int settings.failureThreshold)]
  | retry settings =>
    [("MaxRetries", .int settings.maxRetries), ("BackoffMs", .int settings.backoff),
     ("ExponentialBackoff", .bool settings.exponential)]
  | retryUntilSuccess settings =>
    [("NumAttempts", .int settings.attempts), ("DelayMs", .int settings.delay)]
  | timeout limit => [("TimeoutMs", .int limit)]
  | repeating settings =>
    [("Count", .int settings.count), ("StopOnFailure", .bool settings.stopOnFailure)]
  | wait delay => [("DelayMs", .int delay)]
  | setValue settings =>
    [("Key", .string settings.key), ("Value", .string settings.value),
     ("ValueType", .string settings.valueType)]
  | sequence | selector | inverter | succeeder | alwaysSuccess | forceFailure | custom _ => []

omit [Application κ] in
/-- A kind that is not an application's relays abort, reset and binding. -/
theorem relays_of_ne_custom (hbuiltIn : ∀ node, kind ≠ custom node) : kind.relays := by
  cases kind with
  | custom node => exact absurd rfl (hbuiltIn node)
  | _ => rfl

/-- There is a value of the right type for every property, and for nothing else. -/
theorem properties_eq (hrelays : kind.relays) :
    kind.properties = kind.values.map fun entry => ⟨entry.1, entry.2.type⟩ := by
  cases kind with
  | custom node => cases hrelays
  | _ => rfl

/-- A key declares one property. -/
theorem eq_of_key_eq (hrelays : kind.relays) {property declared : Property}
    (hproperty : property ∈ kind.properties) (hdeclared : declared ∈ kind.properties)
    (hkey : declared.key = property.key) : declared = property := by
  have hdistinct : ∀ first ∈ kind.properties, ∀ second ∈ kind.properties,
      second.key = first.key → second = first := by
    cases kind with
    | custom node => cases hrelays
    | _ => simp [properties]
  exact hdistinct property hproperty declared hdeclared hkey

/-- A property that is set to a value of its type has that value from then on, and nothing else
changes. -/
theorem values_configure (hrelays : kind.relays) {property : Property}
    (hproperty : property ∈ kind.properties) {value : PropertyValue}
    (htype : value.type = property.type) :
    (kind.configure property.key value).values = kind.values.map fun entry =>
      if entry.1 = property.key then (entry.1, value) else entry := by
  cases kind with
  | custom node => cases hrelays
  | sequence | selector | inverter | succeeder | alwaysSuccess | forceFailure => cases hproperty
  | parallel settings | retry settings | retryUntilSuccess settings | timeout limit
  | repeating settings | wait delay | setValue settings =>
    simp only [properties, List.mem_cons, List.not_mem_nil, or_false] at hproperty
    rcases hproperty with rfl | rfl | rfl <;> cases value <;> cases htype <;>
      simp [configure, values]

/-- Nothing else is left of a setting once the property has its old value again. -/
theorem configure_back (hrelays : kind.relays) {property : Property}
    (hproperty : property ∈ kind.properties) {value old : PropertyValue}
    (htype : value.type = property.type) (hold : (property.key, old) ∈ kind.values) :
    (kind.configure property.key value).configure property.key old = kind := by
  cases kind with
  | custom node => cases hrelays
  | sequence | selector | inverter | succeeder | alwaysSuccess | forceFailure => cases hproperty
  | parallel settings | retry settings | retryUntilSuccess settings | timeout limit
  | repeating settings | wait delay | setValue settings =>
    simp only [properties, List.mem_cons, List.not_mem_nil, or_false] at hproperty
    rcases hproperty with rfl | rfl | rfl <;> cases value <;> cases htype <;>
      simp [values] at hold <;> subst hold <;> rfl

end BehaviorTree.Kind
