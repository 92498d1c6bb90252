/-!
# Digits of natural numbers

Positional notation, most significant digit first.  `ofNat` halves the number of digits at each
step, so that numbers with many thousand digits stay cheap; `decimalLength` counts the decimal
digits without writing them down, and `stripZeros` removes all trailing decimal zeros by trying
runs of zeros whose lengths are the powers of two.
-/

namespace Terse.Digits

/-- The number that a list of digits denotes. -/
def value (radix : Nat) (digits : List Nat) : Nat :=
  digits.foldl (fun n digit => n * radix + digit) 0

/-- The weight of the digit with `place` digits behind it: `radix` to the power `place`. -/
def weight (radix place : Nat) : Nat := Nat.pow radix place

/-- The last `2 ^ level` digits of a number, with leading zeros. -/
def padded (radix : Nat) : Nat → Nat → List Nat
  | 0, n => [n % radix]
  | level + 1, n =>
    let half := weight radix (weight 2 level)
    padded radix level (n / half) ++ padded radix level (n % half)

/-- The first of the levels from `level` on whose digits suffice for `n`, tried at most `tries`
times. -/
def levelFrom (radix n : Nat) : Nat → Nat → Nat
  | 0, level => level
  | tries + 1, level =>
    if n < weight radix (weight 2 level) then level else levelFrom radix n tries (level + 1)

/-- The digits of a number without leading zeros; zero has none. -/
def ofNat (radix n : Nat) : List Nat :=
  (padded radix (levelFrom radix n (n.log2 + 1) 0) n).dropWhile (· == 0)

/-- The character of a digit: `0` to `9`, then `a` to `z`. -/
def toChar (digit : Nat) : Char :=
  if digit < 10 then Char.ofNat ('0'.toNat + digit) else Char.ofNat ('a'.toNat + (digit - 10))

/-- The digit that a character denotes, letters in either case. -/
def ofChar? (c : Char) : Option Nat :=
  if '0' ≤ c ∧ c ≤ '9' then some (c.toNat - '0'.toNat)
  else if 'a' ≤ c ∧ c ≤ 'z' then some (c.toNat - 'a'.toNat + 10)
  else if 'A' ≤ c ∧ c ≤ 'Z' then some (c.toNat - 'A'.toNat + 10)
  else none

/-- A number in a radix up to 36, as characters; zero is the one digit `0`. -/
def chars (radix n : Nat) : List Char :=
  match ofNat radix n with
  | [] => ['0']
  | digits => digits.map toChar

/-- Raises an estimate of the number of decimal digits until it suffices, at most `tries`
times. -/
def lengthFrom (n : Nat) : Nat → Nat → Nat
  | 0, estimate => estimate
  | tries + 1, estimate =>
    if n < weight 10 estimate then estimate else lengthFrom n tries (estimate + 1)

/-- The number of decimal digits; zero has one.  The estimate that the search starts from is
too small: `10 ^ 59 ≤ 2 ^ 196`. -/
def decimalLength (n : Nat) : Nat :=
  lengthFrom n (n.log2 + 1) (max 1 (n.log2 * 59 / 196))

/-- Removes trailing decimal zeros from a positive number, fewer than `2 ^ (level + 1)` of them,
and counts them. -/
def stripZeros : Nat → Nat → Nat × Nat
  | 0, n => if n % 10 = 0 then (n / 10, 1) else (n, 0)
  | level + 1, n =>
    let run := weight 2 (level + 1)
    if n % weight 10 run = 0 then
      let (stripped, zeros) := stripZeros level (n / weight 10 run)
      (stripped, zeros + run)
    else
      stripZeros level n

end Terse.Digits
