import BehaviorTree.Markup.Element
import BehaviorTree.Markup.Entity

/-!
# The grammar of documents

Which texts are names, gaps, comments, elements and documents, and which element a text stands
for. The grammar says nothing about reading: a gap or a run of text may be divided in any way,
and no alternative has precedence over another.
-/

namespace BehaviorTree.Markup

/-- The letters that names consist of. -/
def IsLetter (c : Char) : Prop := 'a' ≤ c ∧ c ≤ 'z' ∨ 'A' ≤ c ∧ c ≤ 'Z'

/-- The decimal digits. -/
def IsDigit (c : Char) : Prop := '0' ≤ c ∧ c ≤ '9'

/-- A name begins with a letter, an underscore or a colon; digits, dots and hyphens may
follow. -/
def IsName : List Char → Prop
  | [] => False
  | c :: rest =>
    (IsLetter c ∨ c ∈ ['_', ':']) ∧ ∀ d ∈ rest, IsLetter d ∨ IsDigit d ∨ d ∈ ['_', ':', '.', '-']

/-- A gap consists of spaces, tabs and line ends, and may be empty. -/
def IsGap (text : List Char) : Prop := ∀ c ∈ text, c ∈ [' ', '\t', '\r', '\n']

/-- A text that ends where a mark first occurs in it. -/
def EndsFirst (mark text : List Char) : Prop :=
  mark <:+ text ∧ ∀ before after, text = before ++ mark ++ after → after = []

/-- A text that begins with one mark and ends where another first occurs behind it. -/
def IsEnclosed (opening closing : String) (text : List Char) : Prop :=
  ∃ rest, text = opening.toList ++ rest ∧ EndsFirst closing.toList rest

/-- A comment. It ends at the first mark that closes it. -/
def IsComment : List Char → Prop := IsEnclosed "<!--" "-->"

/-- A processing instruction. -/
def IsInstruction : List Char → Prop := IsEnclosed "<?" "?>"

/-- A character data section. -/
def IsCharacterData : List Char → Prop := IsEnclosed "<![CDATA[" "]]>"

/-- A document type declaration. It ends at the first closing bracket, even within an inner
subset. -/
def IsDoctype : List Char → Prop := IsEnclosed "<!DOCTYPE" ">"

/-- A part of an element's content that holds no element. -/
inductive IsFiller : List Char → Prop
  | comment {text : List Char} : IsComment text → IsFiller text
  | characterData {text : List Char} : IsCharacterData text → IsFiller text
  | instruction {text : List Char} : IsInstruction text → IsFiller text
  | run {text : List Char} : text ≠ [] → '<' ∉ text → IsFiller text

/-- A quoted text stands for the value that it holds, its references decoded. -/
inductive DerivesValue : List Char → List Char → Prop
  | double {raw : List Char} : '"' ∉ raw → DerivesValue ('"' :: (raw ++ ['"'])) (Entity.decode raw)
  | single {raw : List Char} :
      '\'' ∉ raw → DerivesValue ('\'' :: (raw ++ ['\''])) (Entity.decode raw)

/-- An attribute stands behind a gap, and there may be gaps around its equals sign. -/
inductive DerivesAttribute : List Char → Attribute → Prop
  | mk {gap name before behind quoted value : List Char} :
      gap ≠ [] → IsGap gap → IsName name → IsGap before → IsGap behind →
      DerivesValue quoted value →
      DerivesAttribute (gap ++ (name ++ (before ++ '=' :: (behind ++ quoted))))
        ⟨String.ofList name, String.ofList value⟩

/-- Attributes one after the other. -/
inductive DerivesAttributes : List Char → List Attribute → Prop
  | nil : DerivesAttributes [] []
  | cons {text rest : List Char} {first : Attribute} {others : List Attribute} :
      DerivesAttribute text first → DerivesAttributes rest others →
      DerivesAttributes (text ++ rest) (first :: others)

/-- What an opening tag begins with: its name, its attributes and a gap. -/
inductive DerivesHead : List Char → List Char → List Attribute → Prop
  | mk {name items gap : List Char} {attributes : List Attribute} :
      IsName name → DerivesAttributes items attributes → IsGap gap →
      DerivesHead (name ++ (items ++ gap)) name attributes

mutual

/-- A text stands for an element. -/
inductive DerivesElement : List Char → Element → Prop
  | empty {head name : List Char} {attributes : List Attribute} :
      DerivesHead head name attributes →
      DerivesElement ('<' :: (head ++ ['/', '>'])) ⟨String.ofList name, attributes, []⟩
  | full {head name inner gap : List Char} {attributes : List Attribute}
      {children : List Element} :
      DerivesHead head name attributes → DerivesContent inner children → IsGap gap →
      DerivesElement ('<' :: (head ++ '>' :: (inner ++ '<' :: '/' :: (name ++ (gap ++ ['>'])))))
        ⟨String.ofList name, attributes, children⟩

/-- A text stands for the elements that it holds, in order. -/
inductive DerivesContent : List Char → List Element → Prop
  | nil : DerivesContent [] []
  | element {text rest : List Char} {child : Element} {others : List Element} :
      DerivesElement text child → DerivesContent rest others →
      DerivesContent (text ++ rest) (child :: others)
  | filler {text rest : List Char} {children : List Element} :
      IsFiller text → DerivesContent rest children → DerivesContent (text ++ rest) children

end

/-- A part that may stand around the root element. -/
inductive IsMiscPart : List Char → Prop
  | gap {text : List Char} : text ≠ [] → IsGap text → IsMiscPart text
  | comment {text : List Char} : IsComment text → IsMiscPart text
  | instruction {text : List Char} : IsInstruction text → IsMiscPart text
  | doctype {text : List Char} : IsDoctype text → IsMiscPart text

/-- What may stand around the root element, in any number of parts. -/
inductive IsMisc : List Char → Prop
  | nil : IsMisc []
  | cons {text rest : List Char} : IsMiscPart text → IsMisc rest → IsMisc (text ++ rest)

/-- A text stands for a document with the given root element. A byte order mark may come
first. -/
inductive DerivesDocument : List Char → Element → Prop
  | mk {mark before text after : List Char} {root : Element} :
      mark = [] ∨ mark = ['\ufeff'] → IsMisc before → DerivesElement text root → IsMisc after →
      DerivesDocument (mark ++ (before ++ (text ++ after))) root

end BehaviorTree.Markup
