/-!
# Integers of fixed range

Every integer the program stores has one of seven types, each a range of integers. Text is
read as an optional sign and decimal digits, and a number outside the range is no number of
that type. A type without negative numbers takes no minus sign at all, not even before zero.
-/

namespace BehaviorTree

/-- The types of stored integers; `usize` and `isize` have 64 bits. -/
inductive IntegerType where
  | int32 | int64 | uint8 | uint32 | uint64 | usize | isize
  deriving DecidableEq

namespace IntegerType

/-- Whether the type has negative numbers. -/
def isSigned : IntegerType → Bool
  | int32 | int64 | isize => true
  | uint8 | uint32 | uint64 | usize => false

/-- The least number of the type. -/
def least : IntegerType → Int
  | int32 => -Int.pow 2 31
  | int64 | isize => -Int.pow 2 63
  | uint8 | uint32 | uint64 | usize => 0

/-- The greatest number of the type. -/
def greatest : IntegerType → Int
  | int32 => Int.pow 2 31 - 1
  | int64 | isize => Int.pow 2 63 - 1
  | uint8 => Int.pow 2 8 - 1
  | uint32 => Int.pow 2 32 - 1
  | uint64 | usize => Int.pow 2 64 - 1

/-- Whether the number belongs to the type. -/
def holds (type : IntegerType) (n : Int) : Bool := type.least ≤ n && n ≤ type.greatest

end IntegerType

namespace Number

/-- The value of a digit in a base up to sixteen, letters in either case. -/
def digitValue? (base : Nat) (c : Char) : Option Nat :=
  let value :=
    if '0' ≤ c ∧ c ≤ '9' then c.toNat - '0'.toNat
    else if 'a' ≤ c ∧ c ≤ 'f' then c.toNat - 'a'.toNat + 10
    else if 'A' ≤ c ∧ c ≤ 'F' then c.toNat - 'A'.toNat + 10
    else base
  if value < base then some value else none

/-- Reads further digits after the number read so far. -/
def readDigits (base : Nat) : Nat → List Char → Option Nat
  | soFar, [] => some soFar
  | soFar, c :: rest =>
    match digitValue? base c with
    | some value => readDigits base (soFar * base + value) rest
    | none => none

/-- Reads one or more digits and nothing else. -/
def readNat? (base : Nat) : List Char → Option Nat
  | [] => none
  | digits => readDigits base 0 digits

/-- Reads digits that a plus sign may precede. -/
def readUnsigned? (base : Nat) : List Char → Option Nat
  | '+' :: digits => readNat? base digits
  | digits => readNat? base digits

/-- Reads decimal digits after an optional sign. -/
def readSigned? : List Char → Option Int
  | '-' :: digits => (readNat? 10 digits).map fun n => -(n : Int)
  | digits => (readUnsigned? 10 digits).map fun n => (n : Int)

/-- Decimal digits of a natural number. -/
def digits (n : Nat) : List Char := Nat.toDigits 10 n

/-- Decimal digits after a minus sign where one is needed. -/
def signedDigits (n : Int) : List Char :=
  if n < 0 then '-' :: digits n.natAbs else digits n.natAbs

/-- The decimal text of an integer. -/
def integerText (n : Int) : String := String.ofList (signedDigits n)

end Number

/-- Reads the whole text as a number of the type. -/
def IntegerType.read? (type : IntegerType) (text : String) : Option Int :=
  let number :=
    if type.isSigned then Number.readSigned? text.toList
    else (Number.readUnsigned? 10 text.toList).map fun n => (n : Int)
  number.filter type.holds

end BehaviorTree
