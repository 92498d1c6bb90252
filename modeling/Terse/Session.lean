import Terse.Builtin
import Terse.Evaluation.Node

/-!
# Sessions

A session runs programs one after another in one scope, with one table of known functions.  A
program that fails leaves the changes it made before.
-/

namespace Terse

/-- The value of some lines of input: no line is the empty text, one line a text, and more lines an
array of texts. -/
def inputValue : List String → Value
  | [] => .empty
  | [line] => .text line
  | lines => .array (lines.map .text)

/-- What a session keeps from one program to the next. -/
structure Session where
  settings : Settings
  calls : CallTable
  machine : Machine

namespace Session

/-- How deep evaluation may nest. -/
def defaultDepth : Nat := 0x100000000

/-- How many significant digits arithmetic keeps unless told otherwise. -/
def defaultPrecision : Nat := 25

/-- A session that has run no program yet. -/
def start (precision : Nat) (input : Value) (dictionary : Dictionary) (output : Output) :
    Except Failure Session := do
  let scope ← Builtin.startScope input
  return {
    settings := ⟨precision, input, dictionary, defaultDepth⟩
    calls := Builtin.calls
    machine := ⟨scope, [], .empty, .root, output⟩ }

/-- What evaluates nodes in a session: evaluation within the allowed depth. -/
def evaluator (session : Session) : Evaluator := Eval.nested session.settings.depth

/-- Runs a step of evaluation. -/
def perform {α : Type} (session : Session) (step : Eval α) : Except Failure α × Session :=
  match step session.settings session.machine with
  | .ok value machine => (.ok value, { session with machine := machine })
  | .error halt machine => (.error (.ofHalt halt), { session with machine := machine })

/-- Reads a program, with the functions known so far. -/
def read (session : Session) (source : String) : Except Failure Program × Session :=
  let (result, calls) := Builtin.readSource source session.calls
  (result, { session with calls := calls })

/-- Evaluates a program. -/
def evaluate (session : Session) (program : Program) : Except Failure Value × Session :=
  session.perform (Eval.program session.evaluator program)

/-- Reads and evaluates a program. -/
def step (session : Session) (source : String) : Except Failure Value × Session :=
  match session.read source with
  | (.ok program, session) => session.evaluate program
  | (.error failure, session) => (.error failure, session)

/-- The value of a variable. -/
def lookup (session : Session) (name : String) : Option Value :=
  session.machine.scope.lookup name

/-- What the programs have written. -/
def written (session : Session) : String := session.machine.output.written

/-- Forgets what was written. -/
def clearOutput (session : Session) : Session :=
  { session with machine := { session.machine with output := .unlimited } }

/-- A value in one line. -/
def inline (session : Session) (value : Value) : String :=
  match (session.perform (Eval.inline value)).1 with
  | .ok text => text
  | .error _ => ""

end Session

end Terse
