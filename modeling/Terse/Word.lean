/-!
# Words of 64 bits

Counts, widths and precisions are natural numbers below `count`; indices, exponents of powers and
scales of decimal numbers are integers that fit into a word with a sign.  A sum of words that is too
large for a word starts again at zero.
-/

namespace Terse.Word

/-- The number of words of 64 bits. -/
def count : Nat := 0x10000000000000000

/-- The largest natural number that is a word. -/
def greatest : Nat := 0xFFFFFFFFFFFFFFFF

/-- The largest integer that is a word with a sign. -/
def greatestSigned : Nat := 0x7FFFFFFFFFFFFFFF

/-- A natural number as a word: what is beyond the bits of a word is lost. -/
def wrap (n : Nat) : Nat := n % count

/-- Whether a natural number is a word. -/
def holds (n : Nat) : Bool := decide (n < count)

/-- Whether an integer is a word with a sign; there is one more word below zero than above. -/
def holdsSigned (n : Int) : Bool := decide (-greatestSigned - 1 ≤ n ∧ n ≤ greatestSigned)

end Terse.Word
