import Terse.Decimal.Round
import Terse.Text.Blank
import Terse.Word

/-!
# Numbers in writing

* `plain` writes a number in positional notation without an exponent and without trailing zeros.
* `shown` writes it with the digits of its coefficient, trailing zeros included, and with an
  exponent where many zeros would be needed.  Messages use it.
* `parse?` reads an optional fraction and an optional exponent, keeping the digits as they stand.
* `numeral?` reads a number as programs spell it, with `_` for the minus sign and a bare exponent
  for a power of ten.
* `ofText?` reads a text by either spelling.
-/

namespace Terse.Decimal

/-- The sign in front of a written number. -/
def signChars (d : Decimal) : List Char := if d.isNegative then ['-'] else []

/-- The digits of the coefficient. -/
def digitChars (d : Decimal) : List Char := Digits.chars 10 d.coefficient.natAbs

/-- Writes zeros in front of some digits up to a length. -/
def padLeft (length : Nat) (digits : List Char) : List Char :=
  List.replicate (length - digits.length) '0' ++ digits

/-- Digits with the decimal point in front of the last `places` of them, or, where `places` is
not positive, with that many zeros behind them. -/
def pointed (digits : List Char) (places : Int) : List Char :=
  if places ≤ 0 then digits ++ List.replicate (-places).toNat '0'
  else
    let full := padLeft (places.toNat + 1) digits
    let whole := full.length - places.toNat
    full.take whole ++ '.' :: full.drop whole

/-- Positional notation without an exponent and without trailing zeros. -/
def plain (d : Decimal) : String :=
  let n := d.normalize
  String.ofList (n.signChars ++ pointed n.digitChars n.scale)

/-- One digit, the others behind a decimal point. -/
def leadingPoint : List Char → List Char
  | [] => []
  | [digit] => [digit]
  | digit :: rest => digit :: '.' :: rest

/-- All digits of the coefficient, with a negative exponent where more than five zeros would
follow the decimal point and a positive one where more than fifteen would follow the digits. -/
def shown (d : Decimal) : String :=
  if d.isZero then "0"
  else
    let digits := d.digitChars
    let body :=
      if 5 < d.scale - digits.length then
        leadingPoint digits ++ ['E', '-'] ++
          Digits.chars 10 (d.scale - digits.length + 1).toNat
      else if d.scale < -15 then
        digits ++ ['e', '+'] ++ Digits.chars 10 (-d.scale).toNat
      else pointed digits d.scale
    String.ofList (d.signChars ++ body)

/-! ## Reading -/

/-- Reads digits of a radix; underscores between and behind them do not count. -/
def readDigits? (radix : Nat) : List Char → Option (List Nat)
  | [] => some []
  | c :: cs =>
    if c = '_' then readDigits? radix cs
    else match Digits.ofChar? c with
      | some digit => if digit < radix then (readDigits? radix cs).map (digit :: ·) else none
      | none => none

/-- Reads at least one character of digits and underscores that does not start with an
underscore. -/
def readUnsigned? (radix : Nat) (cs : List Char) : Option Nat :=
  if cs = [] ∨ cs.head? = some '_' then none
  else (readDigits? radix cs).map (Digits.value radix)

/-- Reads a natural number with an optional plus sign. -/
def readNat? (radix : Nat) : List Char → Option Nat
  | '+' :: cs => readUnsigned? radix cs
  | cs => readUnsigned? radix cs

/-- Reads an integer with an optional sign; a minus sign is not followed by a plus sign. -/
def readInt? (radix : Nat) : List Char → Option Int
  | '-' :: cs => (readUnsigned? radix cs).map fun n => -(n : Int)
  | cs => (readNat? radix cs).map Int.ofNat

/-- Reads one or more decimal digits and nothing else. -/
def readPlainDigits? (cs : List Char) : Option Nat :=
  if cs.isEmpty || !cs.all Char.isDigit then none else readUnsigned? 10 cs

/-- Reads an exponent: an optional sign and digits. -/
def readExponent? : List Char → Option Int
  | '+' :: digits => (readPlainDigits? digits).map Int.ofNat
  | '-' :: digits => (readPlainDigits? digits).map fun n => -(n : Int)
  | digits => (readPlainDigits? digits).map Int.ofNat

/-- Whether a character starts an exponent. -/
def isExponentMark (c : Char) : Bool := c == 'e' || c == 'E'

/-- Reads a number: an integer with a decimal point anywhere in it or none, then an optional
exponent.  The scale is the number of digits behind the point less the exponent, and must be a
word with a sign. -/
def parseChars? (cs : List Char) : Option Decimal := do
  let base := cs.takeWhile (!isExponentMark ·)
  let exponent ← match cs.dropWhile (!isExponentMark ·) with
    | [] => some 0
    | _ :: digits => readExponent? digits
  let lead := base.takeWhile (· != '.')
  let trail := (base.dropWhile (· != '.')).drop 1
  let coefficient ← readInt? 10 (lead ++ trail)
  let scale := ((trail.filter (· != '_')).length : Int) - exponent
  if Word.holdsSigned scale then some ⟨coefficient, scale⟩ else none

/-- Reads a number from a text. -/
def parse? (text : String) : Option Decimal := parseChars? text.toList

/-- Turns the minus sign of an exponent as programs spell it into the usual one. -/
def spellExponent : List Char → List Char
  | [] => []
  | 'e' :: '_' :: cs => 'e' :: '-' :: spellExponent cs
  | c :: cs => c :: spellExponent cs

/-- Writes out the one in front of a bare exponent. -/
def spellBare (cs : List Char) : List Char :=
  if cs.head? = some 'e' then '1' :: cs else cs

/-- Reads a number as programs spell it: `_` is the minus sign of the number and of its exponent,
and `e3` stands for `1e3`. -/
def numeral? (text : String) : Option Decimal :=
  match text.toList with
  | '_' :: cs => parseChars? ('-' :: spellExponent (spellBare cs))
  | cs => parseChars? (spellExponent (spellBare cs))

/-- Reads a text as a number within the exponent range, blanks around it aside.  A text of
blanks is zero. -/
def ofText? (text : String) : Option Decimal :=
  let trimmed := Text.trim text
  if trimmed = "" then some zero
  else ((parse? trimmed).or (numeral? trimmed)).filter inRange

end Terse.Decimal
