import Terse.Digits

/-!
# Packed programs

A program of printable characters is a number in radix 95, least significant digit first.
Packing writes that number in radix 252 with the symbols of the code page.  The most significant
digits that are zero vanish, so trailing spaces of a program and trailing `!` of a packed text
are lost.
-/

namespace Terse.Packing

/-- The symbols of packed programs, in the order of the digits they stand for. -/
def codePage : List Char :=
  ("!\"#$%&'()*+,-./0123456789:;<=>?@ABCDEFGHIJKLMNOPQRSTUVWXYZ[\\]^_`abcdefghijklmnopqrstuvwxyz" ++
   "\x7b|\x7d~¡¢£¤¥¦§¨©ª«¬®¯°○■↑↓→←║═╔╗╚╝░▒►◄│─┌┐└┘├┤┴┬♦┼█▄▀▬±²³´µ¶·¸¹º»¼½¾¿" ++
   "ÀÁÂÃÄÅÆÇÈÉÊËÌÍÎÏÐÑÒÓÔÕÖ×ØÙÚÛÜÝÞßàáâãäåæçèéêëìíîïðñòóôõö÷øùúûüýþÿ" ++
   "ŒœŠšŸŽžƒƥʠˆ˜–—‘’‚“”„†‡•…‰‹›€™⁺⁻⁼").toList

/-- The number of symbols of the code page. -/
def packedRadix : Nat := 252

/-- The number of printable characters. -/
def printableRadix : Nat := 95

/-- The code point of the first printable character, the space. -/
def firstPrintable : Nat := 32

/-- Writes a number given by its digits in radix `source` in radix `target`, both with the least
significant digit first. -/
def convert (source target : Nat) (digits : List Nat) : List Nat :=
  (Digits.ofNat target (Digits.value source digits.reverse)).reverse

/-- The digit of a printable character. -/
def printableDigit? (c : Char) : Option Nat :=
  if firstPrintable ≤ c.toNat ∧ c.toNat < firstPrintable + printableRadix then
    some (c.toNat - firstPrintable)
  else none

/-- The printable character of a digit. -/
def printableChar (digit : Nat) : Char :=
  Char.ofNat (digit + firstPrintable)

/-- The digit of a symbol of the code page. -/
def symbolDigit? (c : Char) : Option Nat :=
  codePage.idxOf? c

/-- Packs a program; only programs of printable characters can be packed. -/
def pack (code : String) : Option String := do
  let digits ← code.toList.mapM printableDigit?
  let symbols ← (convert printableRadix packedRadix digits).mapM (codePage[·]?)
  some (String.ofList symbols)

/-- Unpacks a program, passing over characters that are not in the code page. -/
def unpack (packed : String) : String :=
  let digits := packed.toList.filterMap symbolDigit?
  String.ofList ((convert packedRadix printableRadix digits).map printableChar)

/-- Whether a text is a packed program: all its characters are in the code page, and one of them
lies outside of ASCII. -/
def isPacked (code : String) : Bool :=
  code.toList.all (fun c => (symbolDigit? c).isSome) && code.toList.any (fun c => 128 ≤ c.toNat)

end Terse.Packing
