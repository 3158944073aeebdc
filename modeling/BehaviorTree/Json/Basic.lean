import BehaviorTree.Number.Decimal

/-!
# JSON values

Configuration is a JSON value. A number is an integer if it was written without fraction
and exponent and fits 64 bits, else a double; the members of an object are in key order.
-/

namespace BehaviorTree

/-- A value of a configuration. -/
inductive Json where
  | null
  | bool (value : Bool)
  | integer (value : Int)
  | double (value : Binary)
  | string (value : String)
  | array (items : List Json)
  | object (members : List (String × Json))

namespace Json

/-- Null stands in where no value is given. -/
instance : Inhabited Json := ⟨null⟩

/-- The member with exactly this key, if the value is an object that has one. -/
def member? (json : Json) (key : String) : Option Json :=
  match json with
  | object members => members.lookup key
  | _ => none

end Json

end BehaviorTree
