import Terse.Decimal.Basic

/-!
# Numbers and double precision

Powers with a fractional exponent have no exact decimal result and are taken in double
precision.  `toDouble` goes to a neighbouring double and `ofDouble?` comes back exactly.
-/

namespace Terse.Decimal

/-- Multiplies `result` by the powers `factor ^ 2 ^ i` that the binary digits of an exponent
select, least significant digit first. -/
def doublePower : List Nat → Float → Float → Float
  | [], result, _ => result
  | bit :: bits, result, factor =>
    let product := if bit = 1 then result * factor else result
    doublePower bits product (factor * factor)

/-- A power of ten in double precision, by repeated squaring. -/
def tenPower (exponent : Nat) : Float :=
  doublePower (Digits.ofNat 2 exponent).reverse 1 10

/-- The number of last digits that a number with a decimal exponent loses on its way to double
precision.  They go nineteen at a time, and twenty-five or more digits stay: the estimate of how
many there are is exact or one too small. -/
def excessDigits (size : Nat) : Nat :=
  let estimate := Digits.decimalLength (Digits.weight 2 (size.log2 + 2)) - 1
  (estimate - 25) / 19 * 19

/-- The distance from zero in double precision: the nearest double where digits stand behind the
decimal point, else the nearest double of the coefficient times a power of ten. -/
def doubleOfSize (size : Nat) (scale : Int) : Float :=
  if 0 ≤ scale then Float.ofScientific size true scale.toNat
  else Float.ofScientific size false 0 * tenPower (-scale).toNat

/-- The number in double precision.  A whole coefficient keeps all its digits, any other only the
first ones. -/
def toDouble (d : Decimal) : Float :=
  let size := d.coefficient.natAbs
  let excess := if d.scale = 0 then 0 else excessDigits size
  let distance :=
    if d.isZero then 0
    else doubleOfSize (size / Digits.weight 10 excess) (d.scale - excess)
  if d.isNegative then -distance else distance

/-- The number `sign * size * 2 ^ exponent`. -/
def ofBinary (negative : Bool) (size : Nat) (exponent : Int) : Decimal :=
  let signed : Int := if negative then -size else size
  if 0 ≤ exponent then ofInt (signed * Digits.weight 2 exponent.toNat)
  else ⟨signed * Digits.weight 5 (-exponent).toNat, -exponent⟩

/-- The exact value of a finite double. -/
def ofDouble? (x : Float) : Option Decimal :=
  let bits : Nat := x.toBits.toNat
  let negative := bits / Digits.weight 2 63 == 1
  let exponent : Nat := bits / Digits.weight 2 52 % Digits.weight 2 11
  let fraction := bits % Digits.weight 2 52
  if exponent = 2047 then none
  else if exponent = 0 then some (ofBinary negative fraction (-1074))
  else some (ofBinary negative (Digits.weight 2 52 + fraction) ((exponent : Int) - 1075))

end Terse.Decimal
