import Terse.Decimal.Power
import Terse.Decimal.Written

/-!
# Whole numbers: indices, counts and other radices

Indices are words with a sign, counts are words without one.  A whole number is written in a radix
with an optional sign and leading zeros up to a width, and read back from there.
-/

namespace Terse.Decimal

/-- Why a number cannot serve as an index or a count, or cannot be written or read in a
radix. -/
inductive Misfit where
  | notWhole (d : Decimal)
  | tooLarge (d : Decimal)
  | tooLargeCount (d : Decimal)
  | notWritable (d : Decimal) (radix : Nat)
  | notReadable (text : String) (radix : Nat)
deriving DecidableEq

/-- The wording of a misfit. -/
def Misfit.message : Misfit → String
  | notWhole d => s!"expected a whole number, found {d.shown}"
  | tooLarge d => s!"{d.shown} is too large"
  | tooLargeCount d => s!"{d.shown} is too large to count with"
  | notWritable d radix => s!"cannot write {d.plain} in base {radix}"
  | notReadable text radix => s!"'{text}' is not a base {radix} number"

/-- A number as an index. -/
def toIndex (d : Decimal) : Except Misfit Int :=
  if d.isWhole then
    match d.word? with
    | some n => .ok n
    | none => .error (.tooLarge d)
  else .error (.notWhole d)

/-- A number as a count: the whole part, and zero for negative numbers. -/
def toCount (d : Decimal) : Except Misfit Nat :=
  let whole := d.wholePart
  if whole < Word.count then .ok whole.toNat else .error (.tooLargeCount d)

/-- A whole number in a radix, with leading zeros up to a width.  The width is any word
here; that a formatter may refuse widths above 65535 is left out. -/
def toRadix (d : Decimal) (radix width : Nat) : Except Misfit String :=
  if d.isWhole then
    let whole := d.wholePart
    let sign := if whole < 0 then ['-'] else []
    .ok (String.ofList (sign ++ padLeft width (Digits.chars radix whole.natAbs)))
  else .error (.notWritable d radix)

/-- Reads a whole number in a radix, blanks around it aside. -/
def ofRadix (text : String) (radix : Nat) : Except Misfit Decimal :=
  match readInt? radix (Text.trim text).toList with
  | some n => .ok (ofInt n)
  | none => .error (.notReadable text radix)

end Terse.Decimal
