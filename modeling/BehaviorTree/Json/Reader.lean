import BehaviorTree.Json.Number
import BehaviorTree.Dict

/-!
# Reading JSON text

One value is read from the characters, and then nothing but gaps may follow. Of members with
the same key the last one counts. Of two steps in a row at least one consumes a character, so
twice the length of the text bounds the recursion.
-/

namespace BehaviorTree.Json

/-- The four characters that may stand between the tokens of a text. -/
def isGap (c : Char) : Bool := c = ' ' || c = '\t' || c = '\n' || c = '\r'

/-- Leaves out a gap, if the text begins with one. -/
def skipGap (cs : List Char) : List Char := cs.dropWhile isGap

/-- Reads four hexadecimal digits. -/
def readHex4? : List Char → Option (Nat × List Char)
  | a :: b :: c :: d :: rest => (Number.readNat? 16 [a, b, c, d]).map fun n => (n, rest)
  | _ => none

/-- The character of a `\u` escape whose four digits gave `high`. A first surrogate needs
the escape of a second one right after it. -/
def readEscapedCode? (high : Nat) (rest : List Char) : Option (Char × List Char) :=
  if high < 0xD800 ∨ 0xDFFF < high then some (Char.ofNat high, rest)
  else if 0xDBFF < high then none
  else
    match rest with
    | '\\' :: 'u' :: rest =>
      match readHex4? rest with
      | some (low, rest) =>
        if 0xDC00 ≤ low ∧ low ≤ 0xDFFF then
          some (Char.ofNat (0x10000 + (high - 0xD800) * 0x400 + (low - 0xDC00)), rest)
        else none
      | none => none
    | _ => none

/-- Reads what follows a backslash. -/
def readEscape? : List Char → Option (Char × List Char)
  | '"' :: rest => some ('"', rest)
  | '\\' :: rest => some ('\\', rest)
  | '/' :: rest => some ('/', rest)
  | 'b' :: rest => some ('\x08', rest)
  | 'f' :: rest => some ('\x0c', rest)
  | 'n' :: rest => some ('\n', rest)
  | 'r' :: rest => some ('\r', rest)
  | 't' :: rest => some ('\t', rest)
  | 'u' :: rest =>
    match readHex4? rest with
    | some (code, rest) => readEscapedCode? code rest
    | none => none
  | _ => none

/-- Reads the characters of a string up to its closing quote. -/
def readString? : Nat → List Char → Option (List Char × List Char)
  | 0, _ => none
  | _ + 1, [] => none
  | fuel + 1, c :: rest =>
    if c = '"' then some ([], rest)
    else if c = '\\' then
      match readEscape? rest with
      | some (escaped, rest) =>
        (readString? fuel rest).map fun (text, rest) => (escaped :: text, rest)
      | none => none
    else if c.toNat < 0x20 then none
    else (readString? fuel rest).map fun (text, rest) => (c :: text, rest)

/-- Reads the exponent of a number, if one begins here. The outer result is absent for an
exponent without digits. -/
def readPower? : List Char → Option (Option Int × List Char)
  | c :: rest =>
    if c = 'e' ∨ c = 'E' then
      let (negative, rest) :=
        match rest with
        | '-' :: rest => (true, rest)
        | '+' :: rest => (false, rest)
        | rest => (false, rest)
      let (digits, rest) := Decimal.spanDigits rest
      (Number.readNat? 10 digits).map fun n => (some (if negative then -(n : Int) else n), rest)
    else some (none, c :: rest)
  | [] => some (none, [])

/-- Reads a number. Its whole part has no leading zero, and a point needs digits after it. -/
def readNumber? (negative : Bool) (cs : List Char) : Option (Json × List Char) :=
  let (whole, rest) := Decimal.spanDigits cs
  let (point, fraction, rest) :=
    match rest with
    | '.' :: rest => (true, Decimal.spanDigits rest)
    | rest => (false, [], rest)
  let badZero := whole.length ≠ 1 ∧ whole.head? = some '0'
  if whole = [] ∨ badZero ∨ (point ∧ fraction = []) then none
  else
    match readPower? rest with
    | some (exponent, rest) =>
      (numberOf? negative whole fraction exponent).map fun number => (number, rest)
    | none => none

/-- Reads one of the three words. -/
def readWord? (cs : List Char) : Option (Json × List Char) :=
  match cs with
  | 'n' :: 'u' :: 'l' :: 'l' :: rest => some (null, rest)
  | 't' :: 'r' :: 'u' :: 'e' :: rest => some (bool true, rest)
  | 'f' :: 'a' :: 'l' :: 's' :: 'e' :: rest => some (bool false, rest)
  | _ => none

mutual

/-- Reads one value, gaps before it allowed. -/
def readValue? : Nat → List Char → Option (Json × List Char)
  | 0, _ => none
  | fuel + 1, cs =>
    match skipGap cs with
    | '"' :: rest =>
      (readString? fuel rest).map fun (text, rest) => (string (String.ofList text), rest)
    | '[' :: rest =>
      match skipGap rest with
      | ']' :: rest => some (array [], rest)
      | rest => (readItems? fuel rest).map fun (items, rest) => (array items, rest)
    | '\x7b' :: rest =>
      match skipGap rest with
      | '\x7d' :: rest => some (object [], rest)
      | rest =>
        (readMembers? fuel rest .empty).map fun (members, rest) => (object members.entries, rest)
    | '-' :: rest => readNumber? true rest
    | c :: rest => if c.isDigit then readNumber? false (c :: rest) else readWord? (c :: rest)
    | [] => none

/-- Reads the items of an array up to its closing bracket. -/
def readItems? : Nat → List Char → Option (List Json × List Char)
  | 0, _ => none
  | fuel + 1, cs =>
    match readValue? fuel cs with
    | none => none
    | some (item, rest) =>
      match skipGap rest with
      | ',' :: rest => (readItems? fuel rest).map fun (items, rest) => (item :: items, rest)
      | ']' :: rest => some ([item], rest)
      | _ => none

/-- Reads the members of an object up to its closing brace, on top of those read before. -/
def readMembers? : Nat → List Char → Dict Json → Option (Dict Json × List Char)
  | 0, _, _ => none
  | fuel + 1, cs, before =>
    match skipGap cs with
    | '"' :: rest =>
      match readString? fuel rest with
      | none => none
      | some (key, rest) =>
        match skipGap rest with
        | ':' :: rest =>
          match readValue? fuel rest with
          | none => none
          | some (value, rest) =>
            let members := before.insert (String.ofList key) value
            match skipGap rest with
            | ',' :: rest => readMembers? fuel rest members
            | '\x7d' :: rest => some (members, rest)
            | _ => none
        | _ => none
    | _ => none

end

/-- Reads a text that holds one value and nothing else but gaps. -/
def parse? (text : String) : Option Json :=
  let cs := text.toList
  match readValue? (2 * cs.length + 2) cs with
  | some (json, rest) => if skipGap rest = [] then some json else none
  | none => none

end BehaviorTree.Json
