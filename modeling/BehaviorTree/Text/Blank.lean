/-!
# Blank characters

Attribute values, numbers and identifiers may be surrounded by blanks. A character is
blank when Unicode gives it the `White_Space` property, and trimming removes a longest
run of blanks from each end.
-/

namespace BehaviorTree.Text

/-- The code point ranges with the `White_Space` property, first and last included. -/
def blankRanges : List (Nat × Nat) :=
  [(0x9, 0xD), (0x20, 0x20), (0x85, 0x85), (0xA0, 0xA0), (0x1680, 0x1680), (0x2000, 0x200A),
   (0x2028, 0x2029), (0x202F, 0x202F), (0x205F, 0x205F), (0x3000, 0x3000)]

/-- Whether a code point lies in one of the given inclusive ranges. -/
def inRanges (ranges : List (Nat × Nat)) (code : Nat) : Bool :=
  ranges.any fun range => range.1 ≤ code && code ≤ range.2

/-- Whether a character is white space. -/
def isBlank (c : Char) : Bool := inRanges blankRanges c.toNat

/-- Drops the blanks at both ends. -/
def trimBlanks (cs : List Char) : List Char :=
  ((cs.dropWhile isBlank).reverse.dropWhile isBlank).reverse

/-- A text without the blanks at its two ends. -/
def trim (text : String) : String := String.ofList (trimBlanks text.toList)

/-- Whether nothing is left after trimming. -/
def isBlankText (text : String) : Bool := text.toList.all isBlank

end BehaviorTree.Text
