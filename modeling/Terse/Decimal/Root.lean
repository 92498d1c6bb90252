import Terse.Decimal.Round

/-!
# Square roots

`natRoot` is the whole square root of a natural number by Newton's method from above.  The root
of a decimal number has `rootDigits` significant digits: it is the whole root of the coefficient
with zeros behind it, rounded to the nearest, a tie to the even neighbour.
-/

namespace Terse.Decimal

/-- Newton's method for the square root of `n`, from a guess that is not below the root. -/
def natRootFrom (n guess : Nat) : Nat :=
  let next := (guess + n / guess) / 2
  if next < guess then natRootFrom n next else guess
termination_by guess

/-- The largest number whose square is not above `n`. -/
def natRoot (n : Nat) : Nat :=
  if n ≤ 1 then n else natRootFrom n (Digits.weight 2 (n.log2 / 2 + 1))

/-- The number of significant digits of a root. -/
def rootDigits : Nat := 100

/-- The number of digits beyond `rootDigits` that a root is computed with before rounding. -/
def rootGuard : Nat := 5

/-- Rounds `n / 10 ^ dropped` to a whole number, a tie to the even one. -/
def roundHalfEven (n dropped : Nat) : Nat :=
  let unit := Digits.weight 10 dropped
  let whole := n / unit
  let rest := n % unit
  if 2 * rest < unit then whole
  else if unit < 2 * rest then whole + 1
  else if whole % 2 = 0 then whole
  else whole + 1

/-- The square root of a positive number. -/
def positiveRoot (d : Decimal) : Decimal :=
  let wanted := 2 * (rootDigits + rootGuard) - d.digitCount
  let zeros := if (d.scale + wanted) % 2 = 0 then wanted else wanted + 1
  let root := natRoot (d.coefficient.natAbs * Digits.weight 10 zeros)
  let dropped := Digits.decimalLength root - rootDigits
  ⟨roundHalfEven root dropped, (d.scale + zeros) / 2 - dropped⟩

/-- The square root; zero and one are their own roots, whatever their scale. -/
def sqrt (d : Decimal) : Except Fault Decimal :=
  if d.isZero || d.equal one then .ok d
  else if d.isNegative then .error .negativeRoot
  else .ok d.positiveRoot

/-- Whether a number is the square of a whole number. -/
def isPerfectSquare (d : Decimal) : Bool :=
  d.isWhole && !d.isNegative &&
    let whole := d.wholePart.toNat
    let root := natRoot whole
    root * root == whole

end Terse.Decimal
