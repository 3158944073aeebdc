import BehaviorTree.Json.Basic

/-!
# Compact JSON text

No blanks, members in key order, and only quotes, backslashes and control characters
escaped. A double keeps a fraction or an exponent, so that its text reads as a double.
-/

namespace BehaviorTree.Json

/-- A digit of a four digit code point escape. -/
def hexDigit (n : Nat) : Char := Nat.digitChar (n % 16)

/-- How a character stands inside a JSON string. -/
def escapeChar (c : Char) : List Char :=
  if c = '"' ∨ c = '\\' then ['\\', c]
  else if c = '\x08' then ['\\', 'b']
  else if c = '\x0c' then ['\\', 'f']
  else if c = '\n' then ['\\', 'n']
  else if c = '\r' then ['\\', 'r']
  else if c = '\t' then ['\\', 't']
  else if c.toNat < 0x20 then ['\\', 'u', '0', '0', hexDigit (c.toNat / 16), hexDigit c.toNat]
  else [c]

/-- A string in quotes. -/
def stringText (text : String) : List Char :=
  '"' :: text.toList.flatMap escapeChar ++ ['"']

/-- An exponent, which always has a sign. -/
def exponentText (exponent : Int) : List Char :=
  if exponent < 0 then Number.signedDigits exponent else '+' :: Number.signedDigits exponent

/-- The text of a positive double with the given shortest digits, where `point` digits stand
before the decimal point: positional if that needs few zeros, else with an exponent. -/
def layOut (digits : List Char) (point : Int) : List Char :=
  if digits.length ≤ point ∧ point ≤ 16 then Decimal.positional digits point ++ ['.', '0']
  else if -5 < point ∧ point ≤ 16 then Decimal.positional digits point
  else
    let fraction := if digits.length = 1 then [] else '.' :: digits.drop 1
    digits.take 1 ++ fraction ++ 'e' :: exponentText (point - 1)

/-- The text of a double. Values that are not finite have no JSON form and are `null`. -/
def doubleText : Binary → List Char
  | .finite negative significand exponent =>
    let magnitude :=
      if significand = 0 then ['0', '.', '0']
      else
        let decimal := Decimal.shortest .double .even significand exponent
        let digits := Number.digits decimal.digits
        layOut digits (digits.length + decimal.exponent)
    if negative then '-' :: magnitude else magnitude
  | _ => ['n', 'u', 'l', 'l']

/-- Texts with a comma between neighbours. -/
def commaSeparated : List (List Char) → List Char
  | [] => []
  | [text] => text
  | text :: rest => text ++ ',' :: commaSeparated rest

mutual

/-- The compact text of a value. -/
def chars : Json → List Char
  | null => ['n', 'u', 'l', 'l']
  | bool value => if value then ['t', 'r', 'u', 'e'] else ['f', 'a', 'l', 's', 'e']
  | integer value => Number.signedDigits value
  | double value => doubleText value
  | string value => stringText value
  | array items => '[' :: commaSeparated (itemChars items) ++ [']']
  | object members => '\x7b' :: commaSeparated (memberChars members) ++ ['\x7d']

/-- The texts of the items of an array. -/
def itemChars : List Json → List (List Char)
  | [] => []
  | item :: rest => chars item :: itemChars rest

/-- The texts of the members of an object. -/
def memberChars : List (String × Json) → List (List Char)
  | [] => []
  | (key, value) :: rest => (stringText key ++ ':' :: chars value) :: memberChars rest

end

/-- The compact text of a value as a string. -/
def text (json : Json) : String := String.ofList (chars json)

end BehaviorTree.Json
