import BehaviorTree.Text.Uppercase

/-!
# Spellings of property names

A property may be written in kebab, snake or Pascal case. The canonical spelling joins the
words, which hyphens and underscores separate, and puts the first character of each into
upper case.
-/

namespace BehaviorTree.Property

/-- The characters between the words of a name. -/
def isSeparator (c : Char) : Bool := c = '-' || c = '_'

/-- Joins the words of a name. The flag tells whether the next character begins a word. -/
def joinWords : Bool → List Char → List Char
  | _, [] => []
  | atStart, c :: rest =>
    if isSeparator c then joinWords true rest
    else if atStart then Text.uppercase c ++ joinWords false rest
    else c :: joinWords false rest

/-- The canonical spelling: `timeout-ms` and `timeout_ms` become `TimeoutMs`. -/
def pascalCase (name : String) : String := String.ofList (joinWords true name.toList)

end BehaviorTree.Property
