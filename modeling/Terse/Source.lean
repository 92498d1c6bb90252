/-!
# Source texts and positions in them

A position counts lines and columns from one, columns in characters.  `excerpt` shows the line of a
position with a caret under its column.
-/

namespace Terse

/-- A place in a source text, line and column counted from one. -/
structure Position where
  line : Nat
  column : Nat
deriving DecidableEq, Inhabited

namespace Position

/-- The place of the first character of a text. -/
def start : Position := ⟨1, 1⟩

/-- The place that stands for no place in any text. -/
def nowhere : Position := ⟨0, 0⟩

/-- The wording of a place in messages. -/
def describe (pos : Position) : String :=
  s!"line {pos.line}, column {pos.column}"

end Position

namespace Source

/-- Cuts a text at every line feed; a text without one is a single piece. -/
def pieces : List Char → List (List Char)
  | [] => [[]]
  | c :: cs =>
    if c = '\n' then [] :: pieces cs
    else match pieces cs with
      | [] => [[c]]
      | piece :: rest => (c :: piece) :: rest

/-- Drops one carriage return from the end of a line. -/
def dropReturn (line : List Char) : List Char :=
  if line.getLast? = some '\r' then line.dropLast else line

/-- The lines of a cut text: a line feed ends a line, together with a carriage return in front
of it, and characters behind the last line feed form a line of their own. -/
def endLines : List (List Char) → List (List Char)
  | [] => []
  | [last] => if last = [] then [] else [last]
  | line :: rest => dropReturn line :: endLines rest

/-- The lines of a text, without their line ends. -/
def lines (text : String) : List String :=
  (endLines (pieces text.toList)).map String.ofList

/-- The line that holds a position, and below it a caret under the position's column.  Tabs in
front of the column are kept, so that the caret lines up. -/
def excerpt (text : String) (pos : Position) : String :=
  let line := (lines text).getD (pos.line - 1) ""
  let pad := (line.toList.take (pos.column - 1)).map fun c => if c = '\t' then '\t' else ' '
  line ++ "\n" ++ String.ofList pad ++ "^"

end Source

end Terse
