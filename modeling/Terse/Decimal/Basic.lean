import Terse.Digits

/-!
# Decimal numbers

A decimal number is an integer coefficient together with a scale, the number of digits behind
the decimal point: `⟨c, s⟩` is `c / 10 ^ s`, where `s` may be negative.  One value has many
representations; `compare` and `Decimal.equal` look at values only, and `normalize` picks the
representation without trailing zeros.

Addition, subtraction, multiplication and the remainder are exact.
-/

namespace Terse

/-- The number `coefficient / 10 ^ scale`. -/
structure Decimal where
  coefficient : Int
  scale : Int
deriving DecidableEq, Inhabited

namespace Decimal

/-- A whole number. -/
def ofInt (n : Int) : Decimal := ⟨n, 0⟩

def zero : Decimal := ofInt 0

def one : Decimal := ofInt 1

/-- Truth values are numbers. -/
def ofBool (b : Bool) : Decimal := if b then one else zero

def isZero (d : Decimal) : Bool := d.coefficient == 0

def isNegative (d : Decimal) : Bool := decide (d.coefficient < 0)

/-- The number of decimal digits of the coefficient. -/
def digitCount (d : Decimal) : Nat := Digits.decimalLength d.coefficient.natAbs

/-- The decimal exponent just above the leading digit: `1` has magnitude 1, `0.05` has magnitude
-1, and zero has magnitude 0. -/
def magnitude (d : Decimal) : Int :=
  if d.isZero then 0 else (d.digitCount : Int) - d.scale

/-- The coefficient of the same number at a scale that is at least its own. -/
def coefficientAt (d : Decimal) (scale : Int) : Int :=
  d.coefficient * Digits.weight 10 (scale - d.scale).toNat

protected def neg (d : Decimal) : Decimal := ⟨-d.coefficient, d.scale⟩

/-- The distance from zero. -/
def abs (d : Decimal) : Decimal := ⟨d.coefficient.natAbs, d.scale⟩

/-- Combines two coefficients at the larger of the two scales. -/
def combine (f : Int → Int → Int) (a b : Decimal) : Decimal :=
  let scale := max a.scale b.scale
  ⟨f (a.coefficientAt scale) (b.coefficientAt scale), scale⟩

protected def add (a b : Decimal) : Decimal := combine (· + ·) a b

protected def sub (a b : Decimal) : Decimal := combine (· - ·) a b

protected def mul (a b : Decimal) : Decimal := ⟨a.coefficient * b.coefficient, a.scale + b.scale⟩

instance : Neg Decimal := ⟨Decimal.neg⟩
instance : Add Decimal := ⟨Decimal.add⟩
instance : Sub Decimal := ⟨Decimal.sub⟩
instance : Mul Decimal := ⟨Decimal.mul⟩

/-- The remainder of a division that cuts the quotient toward zero; it has the sign of the
dividend. -/
def truncatedRemainder (a b : Decimal) : Decimal := combine Int.tmod a b

/-- Orders two numbers by value.  Numbers of one scale are ordered as their coefficients are.  For
others signs and magnitudes decide first, so that only numbers of one magnitude are brought to a
common scale. -/
protected def compare (a b : Decimal) : Ordering :=
  if a.scale = b.scale then Ord.compare a.coefficient b.coefficient
  else if a.coefficient.sign ≠ b.coefficient.sign then
    Ord.compare a.coefficient.sign b.coefficient.sign
  else if a.magnitude ≠ b.magnitude then
    if a.isNegative then Ord.compare b.magnitude a.magnitude
    else Ord.compare a.magnitude b.magnitude
  else
    let scale := max a.scale b.scale
    Ord.compare (a.coefficientAt scale) (b.coefficientAt scale)

instance : Ord Decimal := ⟨Decimal.compare⟩

/-- Whether two representations have one value. -/
def equal (a b : Decimal) : Bool := (a.compare b).isEq

/-- The representation of a value without trailing zeros in the coefficient; zero has scale
zero. -/
def normalize (d : Decimal) : Decimal :=
  if d.isZero then zero
  else
    let size := d.coefficient.natAbs
    let (stripped, zeros) := Digits.stripZeros (Digits.decimalLength size).log2 size
    ⟨d.coefficient.sign * stripped, d.scale - zeros⟩

/-- Whether a number is whole. -/
def isWhole (d : Decimal) : Bool :=
  d.scale ≤ 0 || d.coefficient % Digits.weight 10 d.scale.toNat == 0

/-- The whole part, cut toward zero. -/
def wholePart (d : Decimal) : Int :=
  if d.scale ≤ 0 then d.coefficientAt 0
  else d.coefficient.tdiv (Digits.weight 10 d.scale.toNat)

/-- The largest whole number that is not above `d`. -/
def floor (d : Decimal) : Decimal :=
  if d.scale ≤ 0 then d
  else ofInt (d.coefficient.fdiv (Digits.weight 10 d.scale.toNat))

/-- The smallest whole number that is not below `d`. -/
def ceil (d : Decimal) : Decimal := -(-d).floor

end Decimal

end Terse
