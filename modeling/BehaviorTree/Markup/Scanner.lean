import BehaviorTree.Markup.Element
import BehaviorTree.Markup.Entity

/-!
# Lexical parts of a document

Names, gaps, quoted values, and the parts that carry no elements: comments, processing
instructions, character data, text and the document type. Each function takes the
characters from some position on and gives what follows the part that begins there.
-/

namespace BehaviorTree.Markup

/-- What was expected where reading failed. -/
inductive Expected where
  /-- A particular character. -/
  | character
  /-- The first character of a name. -/
  | nameStart
  /-- A closing tag, or one with the right name. -/
  | closingTag
  deriving DecidableEq

/-- The name of what was expected, as it stands in an error. -/
def Expected.text : Expected → String
  | character => "Char"
  | nameStart => "Satisfy"
  | closingTag => "Tag"

/-- A failure to read. A final one ends the whole document; another one only says that the
part sought does not begin here. `rest` is the text from the place of failure on. -/
structure Failure where
  /-- Whether no other part is tried after this failure. -/
  final : Bool
  /-- What would have been read if there had been no failure. -/
  expected : Expected
  /-- The text from the place of failure on. -/
  rest : List Char
  deriving DecidableEq

/-- The characters of a gap in markup. -/
def isSpace (c : Char) : Bool := c = ' ' || c = '\t' || c = '\r' || c = '\n'

/-- Leaves out a gap, if the text begins with one. -/
def skipSpace (cs : List Char) : List Char := cs.dropWhile isSpace

/-- The characters that may begin a name. -/
def isNameStart (c : Char) : Bool := c.isAlpha || c = '_' || c = ':'

/-- The characters that may stand in a name after the first one. -/
def isNameChar (c : Char) : Bool := c.isAlphanum || c = '_' || c = ':' || c = '.' || c = '-'

/-- Reads a longest name. -/
def name? : List Char → Option (List Char × List Char)
  | [] => none
  | c :: rest =>
    if isNameStart c then some (c :: rest.takeWhile isNameChar, rest.dropWhile isNameChar)
    else none

/-- What follows the given characters, if the text begins with them. -/
def after? : List Char → List Char → Option (List Char)
  | [], cs => some cs
  | _ :: _, [] => none
  | m :: mark, c :: cs => if m = c then after? mark cs else none

/-- What follows the first occurrence of a mark. -/
def afterFirst? (mark : List Char) : List Char → Option (List Char)
  | [] => after? mark []
  | c :: rest =>
    match after? mark (c :: rest) with
    | some rest => some rest
    | none => afterFirst? mark rest

/-- What follows a part that begins with one mark and ends with the first occurrence of
another after it. -/
def afterEnclosed? (opening closing : String) (cs : List Char) : Option (List Char) :=
  (after? opening.toList cs).bind (afterFirst? closing.toList)

/-- What follows a comment at the beginning of a text. -/
def afterComment? : List Char → Option (List Char) := afterEnclosed? "<!--" "-->"

/-- What follows a processing instruction at the beginning of a text. -/
def afterInstruction? : List Char → Option (List Char) := afterEnclosed? "<?" "?>"

/-- What follows a document type declaration at the beginning of a text. -/
def afterDoctype? : List Char → Option (List Char) := afterEnclosed? "<!DOCTYPE" ">"

/-- What follows a character data section at the beginning of a text. -/
def afterCharacterData? : List Char → Option (List Char) := afterEnclosed? "<![CDATA[" "]]>"

/-- What follows a nonempty run of text. -/
def afterText? : List Char → Option (List Char)
  | [] => none
  | c :: rest => if c = '<' then none else some (rest.dropWhile (· ≠ '<'))

/-- What follows a nonempty gap. -/
def afterSpace? : List Char → Option (List Char)
  | [] => none
  | c :: rest => if isSpace c then some (skipSpace rest) else none

/-- What follows a part of an element's content that holds no element. -/
def afterFiller? (cs : List Char) : Option (List Char) :=
  (afterComment? cs).or <| (afterCharacterData? cs).or <| (afterInstruction? cs).or <|
    afterText? cs

/-- What follows a part that may stand around the root element. -/
def afterMiscPart? (cs : List Char) : Option (List Char) :=
  (afterSpace? cs).or <| (afterComment? cs).or <| (afterInstruction? cs).or <| afterDoctype? cs

/-- Skips all that may stand around the root element. The fuel bounds the length. -/
def skipMisc : Nat → List Char → List Char
  | 0, cs => cs
  | fuel + 1, cs =>
    match afterMiscPart? cs with
    | some rest => skipMisc fuel rest
    | none => cs

/-- Reads a quoted value. An unclosed double quote fails where the value begins, an unclosed
single quote at the end of the text. -/
def quotedValue (cs : List Char) : Except Failure (List Char × List Char) :=
  match cs with
  | '"' :: rest =>
    match rest.dropWhile (· ≠ '"') with
    | _ :: behind => .ok (Entity.decode (rest.takeWhile (· ≠ '"')), behind)
    | [] => .error ⟨true, .character, cs⟩
  | '\'' :: rest =>
    match rest.dropWhile (· ≠ '\'') with
    | _ :: behind => .ok (Entity.decode (rest.takeWhile (· ≠ '\'')), behind)
    | [] => .error ⟨true, .character, []⟩
  | _ => .error ⟨true, .character, cs⟩

/-- The name of an attribute and what follows its equals sign, if an attribute begins with
the gap here. -/
def attributeName? (cs : List Char) : Option (List Char × List Char) :=
  match (afterSpace? cs).bind name? with
  | none => none
  | some (name, rest) =>
    match skipSpace rest with
    | '=' :: rest => some (name, skipSpace rest)
    | _ => none

/-- Reads attributes as long as one begins. Behind an equals sign a value must follow. The
fuel bounds the length. -/
def attributes : Nat → List Char → Except Failure (List Attribute × List Char)
  | 0, cs => .ok ([], cs)
  | fuel + 1, cs =>
    match attributeName? cs with
    | none => .ok ([], cs)
    | some (name, rest) =>
      match quotedValue rest with
      | .error failure => .error failure
      | .ok (value, rest) =>
        match attributes fuel rest with
        | .error failure => .error failure
        | .ok (others, rest) =>
          .ok (⟨String.ofList name, String.ofList value⟩ :: others, rest)

end BehaviorTree.Markup
