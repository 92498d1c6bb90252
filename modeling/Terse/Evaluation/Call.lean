import Terse.Evaluation.Collection

/-!
# Calls and hooks

Arguments are evaluated in the scope of the caller; the body runs in a copy of that scope with the
parameters bound.
-/

namespace Terse.Eval

variable (run : Evaluator)

/-- Calls a function with the arguments of a call, behind a receiver if there is one. -/
def call (name : String) (args : List Node) (receiver : Option Value) (position : Position) :
    Eval Value := do
  invoke run name (receiver.toList ++ (← args.mapM run)) position

/-- Does what a builtin function is for. -/
def hook (hook : Hook) (position : Position) : Eval Value := do
  match hook with
  | .print =>
    let value ← current implicitName
    writeLine (← serialize run value position)
    return value
  | .input => return (← read).input
  | .take =>
    let collection ← current implicitName
    let count ← toNumber run (← current "n") position
    return .array (← take run collection (← ofConversion count.toCount position) position)

end Terse.Eval
