import BehaviorTree.Text.Printable

/-!
# Quoted text

Messages show a text in double quotes. The quote and the backslash are escaped by a
backslash, tab, carriage return, line feed and NUL have one-letter escapes, and every
other character that is not printable is given by its code point in hexadecimal.
-/

namespace BehaviorTree.Text

/-- The code point of a character as `\u` and lower case hexadecimal digits in braces. -/
def codePointEscape (c : Char) : List Char :=
  '\\' :: 'u' :: '\x7b' :: Nat.toDigits 16 c.toNat ++ ['\x7d']

/-- How one character is shown inside double quotes. -/
def quoteChar (c : Char) : List Char :=
  if c = '\x00' then ['\\', '0']
  else if c = '\t' then ['\\', 't']
  else if c = '\r' then ['\\', 'r']
  else if c = '\n' then ['\\', 'n']
  else if c = '"' ∨ c = '\\' then ['\\', c]
  else if isPrintable c then [c]
  else codePointEscape c

/-- The text between double quotes. -/
def quoted (text : String) : String :=
  String.ofList ('"' :: text.toList.flatMap quoteChar ++ ['"'])

end BehaviorTree.Text
