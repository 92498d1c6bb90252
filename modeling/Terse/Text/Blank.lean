/-!
# Blank characters

The characters with the Unicode property `White_Space`, and trimming them off both ends of a
text.
-/

namespace Terse.Text

/-- Whether a character is blank, that is, has the Unicode property `White_Space`. -/
def isBlank (c : Char) : Bool :=
  let n := c.toNat
  (9 ≤ n && n ≤ 13) || n == 0x20 || n == 0x85 || n == 0xA0 || n == 0x1680 ||
    (0x2000 ≤ n && n ≤ 0x200A) || n == 0x2028 || n == 0x2029 || n == 0x202F || n == 0x205F ||
    n == 0x3000

/-- Drops blanks from both ends. -/
def trimChars (cs : List Char) : List Char :=
  ((cs.dropWhile isBlank).reverse.dropWhile isBlank).reverse

/-- Drops blanks from both ends of a text. -/
def trim (text : String) : String :=
  String.ofList (trimChars text.toList)

end Terse.Text
