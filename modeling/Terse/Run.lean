import Terse.Packing
import Terse.Session
import Terse.Tree.Outline

/-!
# Running a program

A run unpacks and wraps its source as asked, lists tokens and tree as asked, evaluates the program
and prints its value.  What was written stays written when the run fails later.
-/

namespace Terse

/-- How a program is run. -/
structure Options where
  precision : Nat := Session.defaultPrecision
  /-- The lines of input, or why they cannot be read. -/
  input : Except String (List String) := .ok []
  /-- Whether the program is mapped over the input. -/
  wrap : Bool := false
  /-- Whether the tokens are listed first. -/
  listTokens : Bool := false
  /-- Whether the tree is listed before the evaluation. -/
  listTree : Bool := false
  dictionary : Dictionary := .empty

/-- A step of a run, which writes to the output and may fail. -/
abbrev Run := EStateM Failure Output

namespace Run

/-- Writes a line of a listing. -/
def writeLine (text : String) : Run Unit := do
  let (output, complete) := (← get).write (text ++ "\n")
  set output
  if complete then return () else throw (.stream Output.refusal)

def ofExcept {α : Type} (result : Except Failure α) : Run α :=
  match result with
  | .ok value => return value
  | .error failure => throw failure

/-- Runs a step of evaluation on the output of the run. -/
def perform {α : Type} (session : Session) (step : Eval α) : Run (α × Session) := do
  let session := { session with machine := { session.machine with output := ← get } }
  let (result, session) := session.perform step
  set session.machine.output
  return (← ofExcept result, session)

/-- The program text that a source stands for: unpacked if it is packed, and as a block that is
mapped over the input if it is to be wrapped. -/
def programText (source : String) (wrap : Bool) : String :=
  let code := if Packing.isPacked source then Packing.unpack source else source
  if wrap then "\x7b" ++ code ++ "\x7d\\" else code

/-- The last step of a run: prints the value if asked to, and makes an array of a sequence with a
length. -/
def finish (run : Evaluator) (value : Value) (position : Position) (print : Bool) :
    Eval Value := do
  if print then
    Eval.writeLine (← Eval.serialize run value position)
  Eval.settle run value position

/-- Evaluates a program and takes the last step of its run. -/
def evaluation (run : Evaluator) (program : Program) (print : Bool) : Eval Value := do
  let value ← Eval.program run program
  finish run value program.position print

/-- Runs a source text and gives the value of the program, with the session it was evaluated
in. -/
def source (options : Options) (source : String) (print : Bool) : Run (Value × Session) := do
  let tokens ← ofExcept ((tokenize (programText source options.wrap)).mapError .lex)
  if options.listTokens then tokens.forM fun token => writeLine token.listing
  let lines ← ofExcept (options.input.mapError .stream)
  let session ← ofExcept
    (Session.start options.precision (inputValue lines) options.dictionary .unlimited)
  let (result, calls) := parse tokens session.calls
  let program ← ofExcept (result.mapError .ofStop)
  if options.listTree then writeLine program.listing
  perform { session with calls := calls } (evaluation session.evaluator program print)

end Run

end Terse
