import BehaviorTree.Json.Basic

/-!
# Reading JSON numbers

An integer that fits 64 bits is kept exactly. Any other number becomes a double in two
rounded steps: its leading digits, as many as fit an unsigned 64-bit integer, are rounded
to a double, and that is multiplied or divided by a rounded power of ten.
-/

namespace BehaviorTree.Json

/-- The digits of a number that fit 64 bits, and the power of ten that scales them. -/
structure Leading where
  /-- The digits that fit, as one number. -/
  significand : Nat
  /-- The power of ten that they are scaled by. -/
  exponent : Int

/-- Reads digits while the significand fits 64 bits. Of the digits after that, each adds
`overflowStep` to the exponent; each digit before it adds `step`. -/
def Leading.read (step overflowStep : Int) : Leading → List Char → Leading
  | leading, [] => leading
  | leading, c :: rest =>
    let significand := leading.significand * 10 + (c.toNat - '0'.toNat)
    if significand < Nat.pow 2 64 then
      Leading.read step overflowStep ⟨significand, leading.exponent + step⟩ rest
    else
      ⟨leading.significand, leading.exponent + overflowStep * (rest.length + 1)⟩

/-- The digits before and after the point. Digits of the fraction that do not fit are
dropped. -/
def Leading.ofDigits (whole fraction : List Char) : Leading :=
  Leading.read (-1) 0 (Leading.read 0 1 ⟨0, 0⟩ whole) fraction

/-- A power of ten as a double. -/
def powerOfTen (n : Nat) : Nat × Int :=
  match Binary.ofNat .double (Nat.pow 10 n) with
  | .finite _ significand exponent => (significand, exponent)
  | _ => (0, 0)

/-- Scales a double by powers of ten that are doubles themselves. Magnitudes that are too
large are refused; magnitudes that are too small become zero after a few divisions by the
greatest such power, which the fuel allows for. -/
def scaleByTen? : Nat → Binary → Int → Option Binary
  | 0, x, _ => some x
  | fuel + 1, x, exponent =>
    let factor := powerOfTen (min exponent.natAbs 308)
    if !x.isNonzero then some x
    else if exponent < -308 then
      scaleByTen? fuel (x.scaleDown .double factor.1 factor.2) (exponent + 308)
    else if exponent < 0 then some (x.scaleDown .double factor.1 factor.2)
    else if 308 < exponent then none
    else
      match x.scaleUp .double factor.1 factor.2 with
      | .infinite _ => none
      | product => some product

/-- The double that a decimal with a fraction or an exponent denotes. -/
def doubleOf? (negative : Bool) (leading : Leading) (exponent : Int) : Option Json :=
  let significand := Binary.ofNat .double leading.significand
  (scaleByTen? 4 significand (leading.exponent + exponent)).map fun x =>
    double (if negative then x.negate else x)

/-- The value of a number given by its parts. A number without fraction and exponent is an
integer if its type can hold it; minus zero is a double. -/
def numberOf? (negative : Bool) (whole fraction : List Char) (exponent : Option Int) :
    Option Json :=
  match fraction, exponent, Number.readNat? 10 whole with
  | [], none, some n =>
    if negative then
      if n = 0 then doubleOf? true ⟨0, 0⟩ 0
      else if n ≤ Nat.pow 2 63 then some (integer (-n))
      else doubleOf? true (Leading.ofDigits whole []) 0
    else if n < Nat.pow 2 64 then some (integer n)
    else doubleOf? false (Leading.ofDigits whole []) 0
  | _, _, _ => doubleOf? negative (Leading.ofDigits whole fraction) (exponent.getD 0)

end BehaviorTree.Json
