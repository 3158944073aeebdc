import BehaviorTree.Number.Integer
import BehaviorTree.Number.Binary
import BehaviorTree.Text.Ascii

/-!
# Decimal text of floating point numbers

Reading takes digits with an optional point and exponent, or one of the words `inf`,
`infinity` and `nan`, and gives the nearest number of the format. Writing uses the fewest
digits that read back to the same number and, of those, the digits nearest to it.
-/

namespace BehaviorTree.Decimal

/-- A decimal: the digits as one number, and the power of ten that scales it. -/
structure Scaled where
  /-- The digits as one number. -/
  digits : Nat
  /-- The power of ten that scales them. -/
  exponent : Int

/-- How many decimal digits a number has. -/
def width (n : Nat) : Nat := (Number.digits n).length

/-- The nearest number of the format. Magnitudes far outside every format are settled
first, so that no power of ten of an unbounded exponent is formed. -/
def toBinary (format : Binary.Format) (negative : Bool) (value : Scaled) : Binary :=
  let magnitude := (width value.digits : Int) + value.exponent
  if value.digits = 0 ∨ magnitude < -400 then Binary.zero format negative
  else if 400 < magnitude then .infinite negative
  else if value.exponent < 0 then
    Binary.ofFraction format negative value.digits (Nat.pow 10 value.exponent.natAbs)
  else Binary.ofFraction format negative (value.digits * Nat.pow 10 value.exponent.natAbs) 1

/-- Splits off the longest run of decimal digits. -/
def spanDigits (cs : List Char) : List Char × List Char := cs.span Char.isDigit

/-- Reads the exponent part, which may be absent. -/
def readExponent? : List Char → Option Int
  | [] => some 0
  | c :: rest =>
    if c = 'e' ∨ c = 'E' then
      match rest with
      | '-' :: digits => (Number.readNat? 10 digits).map fun n => -(n : Int)
      | '+' :: digits => (Number.readNat? 10 digits).map fun n => (n : Int)
      | digits => (Number.readNat? 10 digits).map fun n => (n : Int)
    else none

/-- Reads an unsigned decimal: digits, an optional point with more digits, an optional
exponent. At least one digit must stand before the exponent. -/
def readScaled? (cs : List Char) : Option Scaled :=
  let (whole, rest) := spanDigits cs
  let (fraction, rest) :=
    match rest with
    | '.' :: rest => spanDigits rest
    | rest => ([], rest)
  match Number.readNat? 10 (whole ++ fraction), readExponent? rest with
  | some digits, some exponent => some ⟨digits, exponent - (fraction.length : Int)⟩
  | _, _ => none

/-- Reads an unsigned number or one of the words for infinity and not-a-number. -/
def readMagnitude? (format : Binary.Format) (negative : Bool) (cs : List Char) : Option Binary :=
  let word := String.ofList cs
  if Text.sameName word "inf" || Text.sameName word "infinity" then some (.infinite negative)
  else if Text.sameName word "nan" then some .nan
  else (readScaled? cs).map (toBinary format negative)

/-- Reads the whole text as a number of the format, after an optional sign. -/
def read? (format : Binary.Format) (text : String) : Option Binary :=
  match text.toList with
  | '-' :: cs => readMagnitude? format true cs
  | '+' :: cs => readMagnitude? format false cs
  | cs => readMagnitude? format false cs

/-- The fraction of natural numbers that equals `digits * 10 ^ exponent`. -/
def Scaled.fraction (value : Scaled) : Nat × Nat :=
  if value.exponent < 0 then (value.digits, Nat.pow 10 value.exponent.natAbs)
  else (value.digits * Nat.pow 10 value.exponent.natAbs, 1)

/-- The numbers that round to one binary number, as a closed or open interval of fractions
over one denominator, with the number itself between the ends. -/
structure Basin where
  /-- The lower end of the interval, as a numerator. -/
  low : Nat
  /-- The number itself, as a numerator. -/
  value : Nat
  /-- The upper end of the interval, as a numerator. -/
  high : Nat
  /-- The common denominator. -/
  denominator : Nat
  /-- Whether the ends round to the number as well. -/
  closed : Bool

/-- The interval of numbers whose nearest number in the format is the given one. Below a
power of two the neighbours are twice as dense, and the ends belong to the interval
exactly if the significand is even. -/
def basin (format : Binary.Format) (significand : Nat) (exponent : Int) : Basin :=
  let atPower := significand = Nat.pow 2 (format.precision - 1) ∧ format.minExponent < exponent
  let low := if atPower then 4 * significand - 1 else 4 * significand - 2
  let unit := Binary.scaled 1 1 (exponent - 2)
  ⟨low * unit.1, 4 * significand * unit.1, (4 * significand + 2) * unit.1, unit.2,
    significand % 2 = 0⟩

/-- Whether a decimal lies in the interval. -/
def Basin.has (region : Basin) (decimal : Scaled) : Bool :=
  let (num, den) := decimal.fraction
  let point := num * region.denominator
  if region.closed then region.low * den ≤ point && point ≤ region.high * den
  else region.low * den < point && point < region.high * den

/-- The distance of a decimal from the number, over a denominator that depends on the
decimal's exponent only. -/
def Basin.distance (region : Basin) (decimal : Scaled) : Nat :=
  let (num, den) := decimal.fraction
  let point := num * region.denominator
  let value := region.value * den
  if value ≤ point then point - value else value - point

/-- Which of two equally near decimals is written. -/
inductive Tie where
  | upper
  | even
  deriving DecidableEq

/-- Which of two decimals that are equally near is taken. -/
def Tie.pick (tie : Tie) (lower upper : Scaled) : Scaled :=
  match tie with
  | .upper => upper
  | .even => if lower.digits % 2 = 0 then lower else upper

/-- The nearest point to the number on the grid of multiples of `10 ^ exponent`, provided
it reads back. -/
def Basin.onGrid? (region : Basin) (tie : Tie) (exponent : Int) : Option Scaled :=
  let step : Scaled := ⟨1, exponent⟩
  let (num, den) := step.fraction
  let floor := region.value * den / (region.denominator * num)
  let lower : Scaled := ⟨floor, exponent⟩
  let upper : Scaled := ⟨floor + 1, exponent⟩
  match region.has lower, region.has upper with
  | true, true =>
    if region.distance lower < region.distance upper then some lower
    else if region.distance upper < region.distance lower then some upper
    else some (tie.pick lower upper)
  | true, false => some lower
  | false, true => some upper
  | false, false => none

/-- Tries finer and finer grids. -/
def Basin.firstGrid (region : Basin) (tie : Tie) : Nat → Int → Scaled
  | 0, exponent =>
    ⟨region.value / region.denominator, exponent⟩
  | fuel + 1, exponent =>
    match region.onGrid? tie exponent with
    | some decimal => decimal
    | none => region.firstGrid tie fuel (exponent - 1)

/-- The fewest digits that read back as the given positive number, nearest to it. The
search starts at a power of ten above the number; seventeen digits always suffice. -/
def shortest (format : Binary.Format) (tie : Tie) (significand : Nat) (exponent : Int) : Scaled :=
  let region := basin format significand exponent
  let start := (width region.value : Int) - (width region.denominator : Int) + 1
  region.firstGrid tie 22 start

/-- Digits with the point after the given number of them, zeros filled in at either end. -/
def positional (digits : List Char) (point : Int) : List Char :=
  if point ≤ 0 then '0' :: '.' :: List.replicate point.natAbs '0' ++ digits
  else if point < digits.length then
    digits.take point.toNat ++ '.' :: digits.drop point.toNat
  else digits ++ List.replicate (point.toNat - digits.length) '0'

/-- The text of a finite magnitude in positional notation: no exponent, and no point where
no fraction follows. -/
def magnitudeText (format : Binary.Format) (significand : Nat) (exponent : Int) : List Char :=
  if significand = 0 then ['0']
  else
    let decimal := shortest format .upper significand exponent
    let digits := Number.digits decimal.digits
    positional digits (digits.length + decimal.exponent)

/-- The text of a number: positional digits, or a word. -/
def text (format : Binary.Format) : Binary → String
  | .nan => "NaN"
  | .infinite negative => if negative then "-inf" else "inf"
  | .finite negative significand exponent =>
    let digits := magnitudeText format significand exponent
    String.ofList (if negative then '-' :: digits else digits)

end BehaviorTree.Decimal
