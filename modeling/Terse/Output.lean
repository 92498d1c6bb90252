/-!
# Output

What a program writes is collected in a text.  An output may accept a limited number of lines; it
then refuses what follows the last of them.
-/

namespace Terse

/-- The text written so far, and how many more lines are accepted, if there is a limit. -/
structure Output where
  written : String
  room : Option Nat

namespace Output

/-- The output that accepts any text, still empty. -/
def unlimited : Output := ⟨"", none⟩

/-- The output that accepts a number of lines, still empty. -/
def limited (lines : Nat) : Output := ⟨"", some lines⟩

/-- Cuts a text behind its line feed number `room`, and counts the line feeds that are left to
accept. -/
def cutLines : Nat → List Char → List Char × List Char × Nat
  | 0, cs => ([], cs, 0)
  | room + 1, [] => ([], [], room + 1)
  | room + 1, c :: cs =>
    let (accepted, refused, left) := cutLines (if c = '\n' then room else room + 1) cs
    (c :: accepted, refused, left)

/-- Writes a text as far as it is accepted, and tells whether all of it was. -/
def write (output : Output) (text : String) : Output × Bool :=
  match output.room with
  | none => ({ output with written := output.written ++ text }, true)
  | some room =>
    let (accepted, refused, left) := cutLines room text.toList
    (⟨output.written ++ String.ofList accepted, some left⟩, refused.isEmpty)

/-- The reason that an output gives for refusing a text. -/
def refusal : String := "full"

end Output

end Terse
