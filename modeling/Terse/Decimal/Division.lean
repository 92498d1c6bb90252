import Terse.Decimal.Round

/-!
# Division and remainders

A quotient has `quotientDigits` significant digits, or as many as its whole part has if those are
more; the next digit rounds it, away from zero from five on.  A number divided by one stays as it
is.  The modulo has the sign of the divisor.
-/

namespace Terse.Decimal

/-- The number of significant digits of a quotient. -/
def quotientDigits : Nat := 100

/-- The number of zeros to write behind `n` so that it is not below `m`, both positive. -/
def leadingShift (n m : Nat) : Nat :=
  let shift := Digits.decimalLength m - Digits.decimalLength n
  if m ≤ n * Digits.weight 10 shift then shift else shift + 1

/-- The quotient of two numbers, the second of them not zero.  By one, however it is written, a
number keeps all its digits. -/
def quotient (a b : Decimal) : Decimal :=
  if a.isZero then zero
  else if b.equal one then a
  else
    let n := a.coefficient.natAbs
    let m := b.coefficient.natAbs
    let lead := leadingShift n m
    let first := n * Digits.weight 10 lead / m
    let shift := lead + (quotientDigits - Digits.decimalLength first)
    let shifted := n * Digits.weight 10 shift
    let carry := if m ≤ 2 * (shifted % m) then 1 else 0
    let size : Nat := shifted / m + carry
    ⟨a.coefficient.sign * b.coefficient.sign * size, a.scale - b.scale + shift⟩

def divide (a b : Decimal) : Except Fault Decimal :=
  if b.isZero then .error .divisionByZero else .ok (a.quotient b)

/-- The remainder that is zero or has the sign of the divisor. -/
def modulo (a b : Decimal) : Except Fault Decimal :=
  if b.isZero then .error .moduloByZero
  else
    let rest := a.truncatedRemainder b
    if !rest.isZero && rest.isNegative != b.isNegative then .ok (rest + b) else .ok rest

end Terse.Decimal
