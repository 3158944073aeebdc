import BehaviorTree.Context.Config

/-!
# Placeholders

A placeholder is a token in braces. Substitution replaces every placeholder whose token can
be looked up and keeps the others as they stand. What has been put in is not scanned again,
and an opening brace that is never closed ends the scan.
-/

namespace BehaviorTree

namespace Placeholder

/-- What stands for a token: its replacement, or the token in its braces. -/
def expand (lookup : String → Option String) (token : List Char) : List Char :=
  match lookup (String.ofList token) with
  | some replacement => replacement.toList
  | none => '\x7b' :: token ++ ['\x7d']

/-- Substitutes in a list of characters. After an opening brace the token so far is carried
along, last character first, until its closing brace. -/
def scan (lookup : String → Option String) : Option (List Char) → List Char → List Char
  | none, [] => []
  | some token, [] => '\x7b' :: token.reverse
  | none, c :: rest =>
    if c = '\x7b' then scan lookup (some []) rest else c :: scan lookup none rest
  | some token, c :: rest =>
    if c = '\x7d' then expand lookup token.reverse ++ scan lookup none rest
    else scan lookup (some (c :: token)) rest

/-- Replaces every placeholder that the lookup knows. -/
def substitute (lookup : String → Option String) (text : String) : String :=
  String.ofList (scan lookup none text.toList)

end Placeholder

namespace Context

/-- The part of a token after `config.`, if it begins so. -/
def configPath? (token : String) : Option String :=
  let start := "config.".toList
  if start.isPrefixOf token.toList then some (String.ofList (token.toList.drop start.length))
  else none

/-- The text for a token: the value under this key, else the configuration leaf at the path
after `config.`. -/
def lookupToken? (context : Context) (token : String) : Option String :=
  (context.getString? token).or ((configPath? token).bind context.configValue?)

/-- Fills in placeholders from the blackboard and the configuration. -/
def resolvePlaceholders (context : Context) (text : String) : String :=
  Placeholder.substitute context.lookupToken? text

/-- Fills in placeholders from the blackboard alone. -/
def insertValues (context : Context) (text : String) : String :=
  Placeholder.substitute context.getString? text

end Context

end BehaviorTree
