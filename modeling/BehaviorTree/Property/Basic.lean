import BehaviorTree.Number.Decimal
import BehaviorTree.Text.Blank
import BehaviorTree.Text.Quoted

/-!
# Properties of nodes

A node type declares properties, each with a key and a type. The text of an attribute is
converted to the type before the node sees it; text that does not convert is an error that
names the property.
-/

namespace BehaviorTree

/-- The types of properties. A raw property takes the text as it is. -/
inductive PropertyType where
  | string | int | long | double | bool | raw
  deriving DecidableEq

/-- The name of a type in an error or a trace. -/
def PropertyType.text : PropertyType → String
  | string => "String"
  | int => "Int"
  | long => "Long"
  | double => "Double"
  | bool => "Bool"
  | raw => "Raw"

/-- A declared property. -/
structure Property where
  /-- The key under which the property is declared. -/
  key : String
  /-- The type that a text has to convert to. -/
  type : PropertyType
  deriving DecidableEq

/-- A converted property value. `int` has 32 bits and `long` has 64. -/
inductive PropertyValue where
  | string (value : String)
  | int (value : Int)
  | long (value : Int)
  | double (value : Binary)
  | bool (value : Bool)
  deriving DecidableEq

namespace PropertyValue

/-- The type of the value; a raw property holds a string. -/
def type : PropertyValue → PropertyType
  | string _ => .string
  | int _ => .int
  | long _ => .long
  | double _ => .double
  | bool _ => .bool

/-- A value as a text. -/
def text : PropertyValue → String
  | string value => value
  | int value | long value => Number.integerText value
  | double value => Decimal.text .double value
  | bool value => if value then "true" else "false"

end PropertyValue

/-- A text that does not convert to the type of its property. -/
structure PropertyError where
  /-- The key of the property. -/
  key : String
  /-- The type that was sought. -/
  type : PropertyType
  /-- The text that does not convert. -/
  value : String
  deriving DecidableEq

/-- What a value that does not convert says to the reader of the document. -/
def PropertyError.message (error : PropertyError) : String :=
  "cannot convert " ++ Text.quoted error.value ++ " to " ++ error.type.text ++
    " for property " ++ error.key

/-- The value that a text gives for a property type. Blanks around numbers and truth values
are ignored. -/
def PropertyType.read? (type : PropertyType) (text : String) : Option PropertyValue :=
  match type with
  | string | raw => some (.string text)
  | int => (IntegerType.int32.read? (Text.trim text)).map .int
  | long => (IntegerType.int64.read? (Text.trim text)).map .long
  | double => (Decimal.read? .double (Text.trim text)).map .double
  | bool => (Text.boolWord? (Text.trim text)).map .bool

/-- Converts a text to the type of a property. -/
def Property.parse (property : Property) (text : String) : Except PropertyError PropertyValue :=
  match property.type.read? text with
  | some value => .ok value
  | none => .error ⟨property.key, property.type, text⟩

end BehaviorTree
