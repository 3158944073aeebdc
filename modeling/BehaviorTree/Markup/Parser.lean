import BehaviorTree.Markup.Scanner

/-!
# Reading a document

A document is one root element with comments, instructions and gaps around it. Once the
name of an element has been read its errors are final, so that a broken element is never
taken for other content. Reading a document may leave text behind the last part it knows.
-/

namespace BehaviorTree.Markup

/-- Reads the closing tag of an element with the given name. -/
def closingTag (name : List Char) (cs : List Char) : Except Failure (List Char) :=
  match after? "</".toList cs with
  | none => .error ⟨true, .closingTag, cs⟩
  | some rest =>
    match name? rest with
    | none => .error ⟨true, .nameStart, rest⟩
    | some (closed, rest) =>
      if closed ≠ name then .error ⟨true, .closingTag, cs⟩
      else
        match skipSpace rest with
        | '>' :: rest => .ok rest
        | rest => .error ⟨true, .character, rest⟩

mutual

/-- Reads an element. The fuel bounds the number of parts in it. -/
def element : Nat → List Char → Except Failure (Element × List Char)
  | 0, cs => .error ⟨false, .character, cs⟩
  | fuel + 1, cs =>
    match cs with
    | '<' :: rest =>
      match name? rest with
      | none => .error ⟨false, .nameStart, rest⟩
      | some (name, rest) =>
        match attributes rest.length rest with
        | .error failure => .error failure
        | .ok (attributes, rest) =>
          match skipSpace rest with
          | '/' :: '>' :: rest => .ok (⟨String.ofList name, attributes, []⟩, rest)
          | '>' :: rest =>
            match content fuel rest with
            | .error failure => .error failure
            | .ok (children, rest) =>
              match closingTag name rest with
              | .error failure => .error failure
              | .ok rest => .ok (⟨String.ofList name, attributes, children⟩, rest)
          | rest => .error ⟨true, .character, rest⟩
    | _ => .error ⟨false, .character, cs⟩

/-- Reads the content of an element up to where nothing that belongs to it begins. -/
def content : Nat → List Char → Except Failure (List Element × List Char)
  | 0, cs => .ok ([], cs)
  | fuel + 1, cs =>
    match element fuel cs with
    | .ok (child, rest) =>
      match content fuel rest with
      | .error failure => .error failure
      | .ok (others, rest) => .ok (child :: others, rest)
    | .error failure =>
      if failure.final then .error failure
      else
        match afterFiller? cs with
        | some rest => content fuel rest
        | none => .ok ([], cs)

end

/-- Reads the element that begins a text, and gives what is left over. An element has no more
parts than characters. -/
def readElement (cs : List Char) : Except Failure (Element × List Char) :=
  element (2 * cs.length + 2) cs

/-- Drops a byte order mark. -/
def skipMark : List Char → List Char
  | '\ufeff' :: rest => rest
  | cs => cs

/-- Reads a document and gives its root element and the text left over. -/
def parse (cs : List Char) : Except Failure (Element × List Char) :=
  let start := skipMark cs
  let start := skipMisc start.length start
  match readElement start with
  | .error failure => .error failure
  | .ok (root, rest) => .ok (root, skipMisc rest.length rest)

/-- The number of UTF-8 bytes that come before the rest of a text. -/
def byteOffset (source rest : List Char) : Nat :=
  (String.ofList source).utf8ByteSize - (String.ofList rest).utf8ByteSize

/-- The line that the rest of a text begins on, counted from one. -/
def lineOf (source rest : List Char) : Nat :=
  (source.take (source.length - rest.length)).count '\n' + 1

end BehaviorTree.Markup
