import BehaviorTree.Json.Writer
import BehaviorTree.Text.Blank

/-!
# Blackboard values

A blackboard holds values of many types. Most have a string form, and a value that is not
of the wanted type can be converted through it: the string form is read as a text of that
type. Reading never truncates, because a number outside the type does not read at all.
-/

namespace BehaviorTree

/-- The types of blackboard values. A literal is a text that is fixed in the program, a
symbol is a property name, and a foreign value is one the program knows nothing about. -/
inductive ValueType where
  | text | literal | symbol | bool
  | integer (type : IntegerType)
  | single | double
  | json
  | foreign
  deriving DecidableEq

/-- A blackboard value. -/
inductive Value where
  | text (value : String)
  | literal (value : String)
  | symbol (value : String)
  | bool (value : Bool)
  | integer (type : IntegerType) (value : Int)
  | single (value : Binary)
  | double (value : Binary)
  | json (value : Json)
  | foreign

namespace Value

/-- A value that nothing can read stands in where no value is given. -/
instance : Inhabited Value := ⟨foreign⟩

/-- The type that a value was stored with. -/
def type : Value → ValueType
  | text _ => .text
  | literal _ => .literal
  | symbol _ => .symbol
  | bool _ => .bool
  | integer type _ => .integer type
  | single _ => .single
  | double _ => .double
  | json _ => .json
  | foreign => .foreign

/-- The words for truth values in string forms. -/
def boolForm (value : Bool) : String := if value then "True" else "False"

/-- The string form of JSON: a string as it is, numbers verbatim, truth values as words,
containers as compact text. Null has none. -/
def jsonForm? : Json → Option String
  | .null => none
  | .string value => some value
  | .bool value => some (boolForm value)
  | value => some value.text

/-- The string form of a value. Bytes and foreign values have none. -/
def stringForm? : Value → Option String
  | text value | literal value | symbol value => some value
  | bool value => some (boolForm value)
  | integer .uint8 _ => none
  | integer _ value => some (Number.integerText value)
  | single value => some (Decimal.text .single value)
  | double value => some (Decimal.text .double value)
  | json value => jsonForm? value
  | foreign => none

/-- How a value is shown, in a form that every type but the foreign one has. -/
def shown? : Value → Option String
  | text value | literal value | symbol value => some value
  | bool value => some (if value then "true" else "false")
  | integer _ value => some (Number.integerText value)
  | single value => some (Decimal.text .single value)
  | double value => some (Decimal.text .double value)
  | json value => some value.text
  | foreign => none

end Value

namespace ValueType

/-- The value that stands for an absent or unreadable one. -/
def default : ValueType → Value
  | text => .text ""
  | literal => .literal ""
  | symbol => .symbol ""
  | bool => .bool false
  | integer type => .integer type 0
  | single => .single (Binary.zero .single false)
  | double => .double (Binary.zero .double false)
  | json => .json .null
  | foreign => .foreign

/-- Reads a whole text as a value of the type. Truth values are written `true` and `false`
only, and some types cannot be read. -/
def read? (type : ValueType) (form : String) : Option Value :=
  match type with
  | text => some (.text form)
  | bool =>
    if form = "true" then some (.bool true)
    else if form = "false" then some (.bool false)
    else none
  | integer type => (type.read? form).map (.integer type)
  | single => (Decimal.read? .single form).map .single
  | double => (Decimal.read? .double form).map .double
  | literal | symbol | json | foreign => none

/-- Reads a truth value generously: `true` or `false` in any case, else a number that is
compared with zero. -/
def readTruth? (form : String) : Option Bool :=
  let form := Text.trim form
  (Text.boolWord? form).or ((Decimal.read? .double form).map Binary.isNonzero)

/-- Converts a value of another type through its string form. -/
def convert? (type : ValueType) (value : Value) : Option Value :=
  match value.stringForm? with
  | none => none
  | some form =>
    match type with
    | text => some (.text form)
    | bool => (readTruth? form).map .bool
    | other => other.read? (Text.trim form)

end ValueType

end BehaviorTree
