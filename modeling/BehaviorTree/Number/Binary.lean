/-!
# Binary floating point numbers

A finite number is a significand times a power of two, with a sign that zero keeps too. A
format bounds both parts, and the result of an operation is the nearest number of the
format, the one with an even significand if two are equally near. Everything is computed
with exact natural numbers.
-/

namespace BehaviorTree

/-- A binary floating point number. All values that are not numbers are one. -/
inductive Binary where
  | nan
  | infinite (negative : Bool)
  | finite (negative : Bool) (significand : Nat) (exponent : Int)
  deriving DecidableEq

namespace Binary

/-- How many bits a significand has, and which exponents may go with it. -/
structure Format where
  /-- The number of bits in a significand. -/
  precision : Nat
  /-- The least exponent of a significand taken as an integer. -/
  minExponent : Int
  /-- The greatest exponent of a significand taken as an integer. -/
  maxExponent : Int
  deriving DecidableEq

/-- Single precision. -/
def Format.single : Format := ⟨24, -149, 104⟩

/-- Double precision. -/
def Format.double : Format := ⟨53, -1074, 971⟩

/-- Zero, with a sign. -/
def zero (format : Format) (negative : Bool) : Binary := finite negative 0 format.minExponent

/-- The fraction `num * 2 ^ shift / den`, with both parts natural. -/
def scaled (num den : Nat) (shift : Int) : Nat × Nat :=
  if shift < 0 then (num, den * Nat.pow 2 shift.natAbs) else (num * Nat.pow 2 shift.natAbs, den)

/-- The natural number nearest to a fraction, the even one of two. -/
def nearestEven (num den : Nat) : Nat :=
  let low := num / den
  let twice := 2 * (num % den)
  if twice < den then low
  else if den < twice then low + 1
  else if low % 2 = 0 then low else low + 1

/-- The exponent at which the fraction has a significand of full precision, or the least
exponent of the format if it is too small for one. -/
def exponentFor (format : Format) (num den : Nat) : Int :=
  let guess := (num.log2 : Int) - (den.log2 : Int) - (format.precision : Int)
  let (scaledNum, scaledDen) := scaled num den (-guess)
  let fitting := if Nat.pow 2 format.precision * scaledDen ≤ scaledNum then guess + 1 else guess
  max fitting format.minExponent

/-- The number of the format nearest to the fraction `num / den`. -/
def ofFraction (format : Format) (negative : Bool) (num den : Nat) : Binary :=
  if num = 0 then zero format negative
  else
    let exponent := exponentFor format num den
    let (scaledNum, scaledDen) := scaled num den (-exponent)
    let rounded := nearestEven scaledNum scaledDen
    let (significand, exponent) :=
      if rounded = Nat.pow 2 format.precision then
        (Nat.pow 2 (format.precision - 1), exponent + 1)
      else (rounded, exponent)
    if format.maxExponent < exponent then infinite negative
    else finite negative significand exponent

/-- The number of the format that is nearest to a natural number. -/
def ofNat (format : Format) (n : Nat) : Binary := ofFraction format false n 1

/-- The same number with the other sign. -/
def negate : Binary → Binary
  | nan => nan
  | infinite negative => infinite !negative
  | finite negative significand exponent => finite (!negative) significand exponent

/-- Whether the number compares unequal to zero, which `nan` does. -/
def isNonzero : Binary → Bool
  | finite _ significand _ => significand != 0
  | _ => true

/-- The product with a finite nonnegative number. -/
def scaleUp (format : Format) : Binary → Nat → Int → Binary
  | finite negative m e, n, f =>
    let (num, den) := scaled (m * n) 1 (e + f)
    ofFraction format negative num den
  | x, _, _ => x

/-- The quotient by a finite positive number. -/
def scaleDown (format : Format) : Binary → Nat → Int → Binary
  | finite negative m e, n, f =>
    let (num, den) := scaled m n (e - f)
    ofFraction format negative num den
  | x, _, _ => x

end Binary

end BehaviorTree
