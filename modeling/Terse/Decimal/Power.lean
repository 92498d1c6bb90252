import Terse.Decimal.Division
import Terse.Decimal.Double
import Terse.Word

/-!
# Powers

Whole exponents that are words with a sign are worked off bit by bit, squaring the factor and
keeping a few digits more than the precision.  The loop ends early when the factor leaves the
exponent range.  All other exponents go through double precision.
-/

namespace Terse.Decimal

/-- The digits that repeated multiplication keeps beyond the precision. -/
def guardDigits : Nat := 5

/-- The digits that repeated multiplication keeps.  Their number is a word, so it is small again for
the last few precisions. -/
def workingDigits (precision : Nat) : Nat := Word.wrap (precision + guardDigits)

/-- The outcome of repeated squaring: a product, or a factor outside the exponent range. -/
inductive Squaring where
  | product (result : Decimal)
  | aboveRange
  | belowRange
deriving DecidableEq

/-- Multiplies `result` by the powers `factor ^ 2 ^ i` that the binary digits of an exponent
select, least significant digit first, keeping `digits` digits. -/
def squaring (digits : Nat) : List Nat → Decimal → Decimal → Squaring
  | [], result, _ => .product result
  | bit :: bits, result, factor =>
    let product := if bit = 1 then (result * factor).keepDigits digits else result
    if bits.isEmpty then .product product
    else
      let square := (factor * factor).keepDigits digits
      if maxExponent < square.magnitude then .aboveRange
      else if square.magnitude < -maxExponent then .belowRange
      else squaring digits bits product square

/-- The integer that a number is, if it is whole and a word with a sign. -/
def word? (d : Decimal) : Option Int :=
  if d.isWhole then
    let whole := d.wholePart
    if Word.holdsSigned whole then some whole else none
  else none

/-- A power with a whole exponent.  The size of the exponent stops at the largest word with a
sign. -/
def wholePower (base : Decimal) (exponent : Int) (precision : Nat) : Except Fault Decimal :=
  let size := min exponent.natAbs Word.greatestSigned
  match squaring (workingDigits precision) (Digits.ofNat 2 size).reverse one base with
  | .product result => if exponent < 0 then one.divide result else .ok result
  | .aboveRange => if exponent < 0 then .ok zero else .error .tooLarge
  | .belowRange => if exponent < 0 then .error .tooLarge else .ok zero

/-- A power in double precision. -/
def doublePrecisionPower (base exponent : Decimal) : Except Fault Decimal :=
  match ofDouble? (Float.pow base.toDouble exponent.toDouble) with
  | some result => .ok result
  | none => .error .noRealPower

/-- The power of a number, before rounding to the precision. -/
def power (base exponent : Decimal) (precision : Nat) : Except Fault Decimal :=
  match exponent.word? with
  | some n => wholePower base n precision
  | none => doublePrecisionPower base exponent

end Terse.Decimal
