import BehaviorTree.Number.Integer

/-!
# Character references

In an attribute value a reference stands for one character: five names, or a code point in
decimal or hexadecimal. Whatever looks like a reference but is none stays as it is, and
decoded characters are not decoded again.
-/

namespace BehaviorTree.Entity

/-- The character with this code point, if there is one. -/
def charAt? (code : Nat) : Option Char :=
  if code.isValidChar then some (Char.ofNat code) else none

/-- The character that a reference names, given what stands between `&` and `;`. A code
point may carry a plus sign. -/
def denoted? (name : List Char) : Option Char :=
  match name with
  | ['l', 't'] => some '<'
  | ['g', 't'] => some '>'
  | ['a', 'm', 'p'] => some '&'
  | ['q', 'u', 'o', 't'] => some '"'
  | ['a', 'p', 'o', 's'] => some '\''
  | '#' :: 'x' :: digits => (Number.readUnsigned? 16 digits).bind charAt?
  | '#' :: 'X' :: digits => (Number.readUnsigned? 16 digits).bind charAt?
  | '#' :: digits => (Number.readUnsigned? 10 digits).bind charAt?
  | _ => none

/-- The characters for a complete reference: the one it denotes, or the reference itself. -/
def expand (name : List Char) : List Char :=
  match denoted? name with
  | some c => [c]
  | none => '&' :: name ++ [';']

/-- Decodes a list of characters. After an ampersand the name so far is carried along, last
character first. -/
def scan : Option (List Char) → List Char → List Char
  | none, [] => []
  | some name, [] => '&' :: name.reverse
  | none, c :: rest => if c = '&' then scan (some []) rest else c :: scan none rest
  | some name, c :: rest =>
    if c = ';' then expand name.reverse ++ scan none rest
    else if c = '&' then '&' :: name.reverse ++ scan (some []) rest
    else scan (some (c :: name)) rest

/-- Replaces the references in a raw attribute value. -/
def decode (raw : List Char) : List Char := scan none raw

end BehaviorTree.Entity
