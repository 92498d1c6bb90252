import Terse.Source
import Terse.Text.Blank
import Terse.Text.Capital

/-!
# Dictionaries and dictionary texts

A dictionary text spells words by pairs of selector characters.  `decodeFrom` walks over the text
once, by one or two characters at a time, and writes the words behind what it has written already.
Either all words get a capital, or only one that starts the text.
-/

namespace Terse

/-- A list of words, none of them empty. -/
structure Dictionary where
  words : List String
  ne_empty : ∀ word ∈ words, word ≠ ""

namespace Dictionary

/-- The dictionary without words. -/
def empty : Dictionary := ⟨[], by simp⟩

instance : Inhabited Dictionary := ⟨empty⟩

/-- The dictionary of a text with one word a line; blank lines do not count. -/
def ofText (text : String) : Dictionary :=
  ⟨((Source.lines text).map Text.trim).filter (· ≠ ""), by simp⟩

def isEmpty (dictionary : Dictionary) : Bool := dictionary.words.isEmpty

/-- The characters that select words, in the order of their numbers. -/
def selectors : List Char :=
  ("abcdefghijklmnopqrstuvwxyzABCDEFGHIJKLMNOPQRSTUVWXYZ`1234567890-=[]\\;'/~@#$%^&*()_+" ++
   "\x7b\x7d|\"<>").toList

/-- The number of a selector. -/
def selector? (c : Char) : Option Nat := selectors.idxOf? c

/-- The number of the word that a character and the one behind it select.  A selector behind it
gives the last two places of the number; without one these are zero. -/
def number? (c : Char) (next : Option Char) : Option Nat :=
  (selector? c).map fun high => 100 * high + (next.bind selector?).getD 0

/-- The word that a character and the one behind it select, if the dictionary has it. -/
def selected? (dictionary : Dictionary) (c : Char) (next : Option Char) : Option String :=
  (number? c next).bind (dictionary.words[·]?)

/-- Writes a word behind an output, last character first.  The word gets a capital if all words do,
or if there is nothing in front of it. -/
def writeWord (capitals : Bool) (output : List Char) (word : String) : List Char :=
  (if capitals || output.isEmpty then Text.capitalize word else word).toList.reverse ++ output

/-- Decodes the rest of a dictionary text.  `output` holds what is decoded already, last character
first.  A character that selects no word is copied, and so is one behind a selector that is no
selector itself. -/
def decodeFrom (dictionary : Dictionary) (capitals : Bool) (output : List Char) :
    List Char → List Char
  | [] => output.reverse
  | [c] =>
    match dictionary.selected? c none with
    | none => (c :: output).reverse
    | some word => (writeWord capitals output word).reverse
  | c :: next :: rest =>
    match dictionary.selected? c (some next) with
    | none => decodeFrom dictionary capitals (c :: output) (next :: rest)
    | some word =>
      let output := writeWord capitals output word
      let output := if (selector? next).isSome then output else next :: output
      decodeFrom dictionary capitals output rest

/-- Decodes a dictionary text, blanks around it aside, with a capital for each word, or only for
a word that starts the text. -/
def decode (dictionary : Dictionary) (text : String) (capitals : Bool) : String :=
  String.ofList (dictionary.decodeFrom capitals [] (Text.trimChars text.toList))

end Dictionary

end Terse
