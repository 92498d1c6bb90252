/-!
# Cutting texts at a separator

`cut` walks over a text once and cuts it at the leftmost occurrences of a separator that do not
overlap.  The part that is being read travels along in reverse.
-/

namespace Terse.Text

/-- Cuts at the occurrences of `separator`.  `skip` characters of an occurrence are still to be
passed over, and `part` holds the characters of the current part, last one first. -/
def cutFrom (separator : List Char) : Nat → List Char → List Char → List (List Char)
  | _, part, [] => [part.reverse]
  | skip + 1, part, _ :: cs => cutFrom separator skip part cs
  | 0, part, c :: cs =>
    if separator.isPrefixOf (c :: cs) then
      part.reverse :: cutFrom separator (separator.length - 1) [] cs
    else
      cutFrom separator 0 (c :: part) cs

/-- The parts of a text between the occurrences of a separator that is not empty. -/
def cut (separator text : String) : List String :=
  (cutFrom separator.toList 0 [] text.toList).map String.ofList

/-- The characters of a text, each as a text of its own. -/
def characters (text : String) : List String :=
  text.toList.map fun c => String.ofList [c]

/-- The parts of a text at a separator; the empty separator cuts between all characters. -/
def split (separator text : String) : List String :=
  if separator = "" then characters text else cut separator text

/-- The text written backwards. -/
def backwards (text : String) : String :=
  String.ofList text.toList.reverse

/-- The text written `count` times in a row. -/
def repeated (count : Nat) (text : String) : String :=
  if text = "" then "" else String.join (List.replicate count text)

end Terse.Text
