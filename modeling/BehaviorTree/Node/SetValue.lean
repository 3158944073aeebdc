import BehaviorTree.Node.Move
import BehaviorTree.Context.Placeholder

/-!
# Writing to the blackboard

The node fills in the placeholders of its text, converts the text to the type it names, and
stores the value under its key. If there is no key, no such type or no conversion, it fails
and stores nothing.
-/

namespace BehaviorTree

/-- The key to write to, the text to write, and the name of the type that it is converted to. -/
structure SetValueSettings where
  /-- The key that is written to. -/
  key : String := ""
  /-- The text that is converted, with placeholders in it. -/
  value : String := ""
  /-- The name of the type that the text is converted to. -/
  valueType : String := "string"
  deriving DecidableEq

namespace SetValue

/-- The type that a name stands for, compared without regard to ASCII case. -/
def typeNamed? (name : String) : Option ValueType :=
  match Text.lowercase name with
  | "string" => some .text
  | "bool" => some .bool
  | "int" => some (.integer .int32)
  | "double" => some .double
  | _ => none

/-- The value that a text gives for a type. -/
def convert? (type : ValueType) (text : String) : Option Value :=
  match type with
  | .text => some (.text text)
  | .bool => (Text.boolWord? (Text.trim text)).map .bool
  | type => type.read? (Text.trim text)

/-- One execution of a setter, which either stores its value and succeeds, or says why it cannot and
fails. -/
def execute (settings : SetValueSettings) (moment : Moment) : Move Unit :=
  let text := moment.context.resolvePlaceholders settings.value
  if settings.key = "" then .report () (.keyMissing moment.name) .failure
  else
    match typeNamed? settings.valueType with
    | none =>
      .report () (.valueTypeUnknown moment.name (Text.lowercase settings.valueType)) .failure
    | some type =>
      match convert? type text with
      | some value => ⟨(), .finish .success, [], [(settings.key, value)]⟩
      | none =>
        .report () (.valueRejected moment.name settings.key settings.valueType text) .failure

/-- The machine of a setter. Its execution is a single move. -/
def respond (settings : SetValueSettings) (moment : Moment) : Signal → Move Unit
  | .started => execute settings moment
  | _ => .finish () .failure

end SetValue

end BehaviorTree
