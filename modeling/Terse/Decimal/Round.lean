import Terse.Decimal.Basic

/-!
# Rounding and the exponent range

`keepDigits` cuts a coefficient down to a number of digits.  A positive number goes up when the
first digit cut off is five or more, and a negative number is cut toward zero.  `round` does so
at a precision and normalizes.

Results of arithmetic have magnitudes between `-maxExponent` and `maxExponent`: `bounded` turns
smaller ones into zero and refuses larger ones.
-/

namespace Terse.Decimal

/-- Why an arithmetic operation has no result. -/
inductive Fault where
  | tooLarge
  | divisionByZero
  | moduloByZero
  | noRealPower
  | negativeRoot
deriving DecidableEq

/-- The wording of a fault. -/
def Fault.message : Fault → String
  | tooLarge => "Number is too large"
  | divisionByZero => "Division by zero"
  | moduloByZero => "Modulo by zero"
  | noRealPower => "Power has no real result"
  | negativeRoot => "Square root of a negative number"

/-- Keeps the leading `digits` digits of the coefficient.  A first digit of five or more behind
them raises the result if the number is positive. -/
def keepDigits (digits : Nat) (d : Decimal) : Decimal :=
  let count := d.digitCount
  if digits < count then
    let dropped := count - digits
    let unit : Int := Digits.weight 10 dropped
    let rest := d.coefficient.tmod unit
    let carry := if unit ≤ 2 * rest then 1 else 0
    ⟨d.coefficient.tdiv unit + carry, d.scale - dropped⟩
  else d

/-- Rounds to `precision` significant digits, at least one, without trailing zeros. -/
def round (d : Decimal) (precision : Nat) : Decimal :=
  if d.isZero then zero else (d.keepDigits (max precision 1)).normalize

/-- The largest magnitude a number may have, and the negation of the smallest. -/
def maxExponent : Int := 100000

/-- Whether the magnitude of a number lies in the exponent range. -/
def inRange (d : Decimal) : Bool :=
  d.magnitude.natAbs ≤ maxExponent.natAbs

/-- A result of arithmetic within the exponent range: zero where it is too small. -/
def bounded (d : Decimal) : Except Fault Decimal :=
  if maxExponent < d.magnitude then .error .tooLarge
  else if d.magnitude < -maxExponent then .ok zero
  else .ok d

end Terse.Decimal
