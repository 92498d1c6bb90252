import Terse.Decimal.Whole
import Terse.Dictionary
import Terse.Output
import Terse.Store

/-!
# Evaluation: errors, state and basic steps

Evaluation reads settings, changes a machine and ends in a value, in an error, or, when the
allowed depth does not suffice, in neither.  The machine is kept in all three cases, because what
a failing program did before it failed can still be seen.

The machine holds the current scope, the store of sequences, the history that the running
generator reads back, the place at which sequences are made, and the output.
-/

namespace Terse

/-- What a name was looked up as. -/
inductive NameKind where
  | var
  | function
deriving DecidableEq

def NameKind.describe : NameKind → String
  | var => "variable"
  | function => "function"

/-- What needs all elements of a sequence, or their number. -/
inductive WholeAction where
  | materialize
  | map
  | filter
  | join
  | zip
  | indexFromEnd
  | measure
  | print
deriving DecidableEq

def WholeAction.describe : WholeAction → String
  | materialize => "materialize"
  | map => "map"
  | filter => "filter"
  | join => "join"
  | zip => "zip"
  | indexFromEnd => "index from the end of"
  | measure => "measure"
  | print => "print"

/-- Why a value is not what an operation needs. -/
inductive Mismatch where
  | notNumber (text : String)
  | emptyArray
  | emptySequence
  | misfit (cause : Decimal.Misfit)
  | noBlock
  | unevaluated (op : BinaryOp)
deriving DecidableEq

def Mismatch.message : Mismatch → String
  | notNumber text => s!"'{text}' is not a number"
  | emptyArray => "an empty array is not a number"
  | emptySequence => "an empty sequence is not a number"
  | misfit cause => cause.message
  | noBlock => "a filter needs a block"
  | unevaluated op => s!"'{op.spelling}' needs unevaluated operands"

/-- Why an evaluation fails. -/
inductive EvalError where
  /-- A name is not bound. -/
  | unbound (kind : NameKind) (name : String) (position : Position)
  /-- A call has the wrong number of arguments. -/
  | arity (name : String) (expected found : Nat) (position : Position)
  /-- Something other than a variable should be changed. -/
  | immutable (op : BinaryOp) (position : Position)
  /-- A sequence without a length is needed as a whole. -/
  | unbounded (action : WholeAction) (position : Position)
  /-- A value is not what an operation needs. -/
  | mismatch (cause : Mismatch) (position : Position)
  /-- An arithmetic operation has no result. -/
  | arithmetic (cause : Decimal.Fault) (position : Position)
  /-- The output refuses a text. -/
  | output (reason : String)
deriving DecidableEq

namespace EvalError

/-- The place of the error, if it has one. -/
def position? : EvalError → Option Position
  | unbound _ _ position | arity _ _ _ position | immutable _ position | unbounded _ position
  | mismatch _ position | arithmetic _ position => some position
  | output _ => none

/-- The wording of the cause. -/
def details : EvalError → String
  | unbound kind name _ => s!"Unknown {kind.describe} '{name}'."
  | arity name expected found _ =>
    s!"Function '{name}' takes {expected} argument(s), but {found} were supplied."
  | immutable op _ => s!"'{op.spelling}' can only modify a variable."
  | unbounded action _ => s!"Cannot {action.describe} a sequence without a declared length."
  | mismatch cause _ => s!"Type error: {cause.message}."
  | arithmetic cause _ => s!"{cause.message}."
  | output reason => s!"Failed to write output: {reason}"

end EvalError

/-- Why an evaluation ends without a value: an error, or nesting beyond the allowed depth. -/
inductive Halt where
  | fault (error : EvalError)
  | exhausted
deriving DecidableEq

/-- What is fixed during an evaluation. -/
structure Settings where
  /-- The number of significant digits that arithmetic keeps. -/
  precision : Nat
  /-- The value of the program's input. -/
  input : Value
  dictionary : Dictionary
  /-- How deep evaluation may nest, and how deep values may be nested where they are walked
  through. -/
  depth : Nat

/-- What changes during an evaluation. -/
structure Machine where
  scope : Scope
  store : Store
  lookback : Lookback
  site : Site
  output : Output

abbrev Eval := ReaderT Settings (EStateM Halt Machine)

/-- What evaluates the nodes below the one at hand. -/
abbrev Evaluator := Node → Eval Value

namespace Eval

/-- Ends with an error. -/
def fail {α : Type} (error : EvalError) : Eval α := throw (.fault error)

/-- Ends because the allowed depth does not suffice. -/
def exhaust {α : Type} : Eval α := throw .exhausted

/-- Ends with a mismatch at a place. -/
def mismatch {α : Type} (cause : Mismatch) (position : Position) : Eval α :=
  fail (.mismatch cause position)

/-- The result of arithmetic at a place. -/
def ofArithmetic {α : Type} (result : Except Decimal.Fault α) (position : Position) : Eval α :=
  match result with
  | .ok value => return value
  | .error cause => fail (.arithmetic cause position)

/-- The result of a conversion at a place. -/
def ofConversion {α : Type} (result : Except Decimal.Misfit α) (position : Position) : Eval α :=
  match result with
  | .ok value => return value
  | .error cause => mismatch (.misfit cause) position

/-- A result of arithmetic as a value, rounded and within the exponent range. -/
def number (d : Decimal) (position : Position) : Eval Value := do
  return .number (← ofArithmetic (d.round (← read).precision).bounded position)

/-! ## Scopes -/

def getScope : Eval Scope := return (← get).scope

def setScope (scope : Scope) : Eval Unit := modify fun machine => { machine with scope := scope }

/-- Reads a variable at a place. -/
def readVariable (name : String) (position : Position) : Eval Value := do
  let machine ← get
  match machine.scope.get? machine.lookback name with
  | some (value, lookback) =>
    modify fun machine => { machine with lookback := lookback }
    return value
  | none => fail (.unbound .var name position)

/-- The value that is bound to a variable, or the empty text.  Nothing is read back. -/
def current (name : String) : Eval Value := do
  return ((← getScope).lookup name).getD .empty

/-- Binds a variable in the current scope. -/
def assign (name : String) (value : Value) : Eval Unit := do
  setScope ((← getScope).set name value)

/-- Binds a function in the current scope. -/
def define (name : String) (function : Function) : Eval Unit := do
  setScope ((← getScope).define name function)

/-- Runs a step in an inner scope.  If it succeeds, the outer scope takes over what it changed,
except for some names; if it fails, the outer scope stays as it was. -/
def inChild {α : Type} (inner : Scope) (excluded : List String) (step : Eval α) : Eval α :=
  fun settings machine =>
    let outer := machine.scope
    match step settings { machine with scope := inner } with
    | .ok value machine => .ok value { machine with scope := outer.merge machine.scope excluded }
    | .error halt machine => .error halt { machine with scope := outer }

/-! ## Programs, blocks, combinators and calls -/

variable (run : Evaluator)

/-- Evaluates items in order; the value is that of the last one, or `last` without items. -/
def items : List Node → Value → Eval Value
  | [], last => return last
  | node :: rest, _ => do items rest (← run node)

/-- Evaluates a program; the value of a program without items is the empty text. -/
def program (body : Program) : Eval Value := items run body.items .empty

/-- Evaluates a block with its parameter bound to a value. -/
def applyBlock (block : Block) (value : Value) : Eval Value := do
  let scope ← getScope
  inChild (scope.set block.param value) [block.param] (program run block.body)

/-- Evaluates a combinator on two operands. -/
def applyCombinator (combinator : Combinator) (left right : Value) : Eval Value := do
  let scope ← getScope
  inChild ((scope.set leftName left).set rightName right) [leftName, rightName]
    (run combinator.expr)

/-- Calls a function with the values of its arguments. -/
def invoke (name : String) (values : List Value) (position : Position) : Eval Value := do
  let scope ← getScope
  match scope.function? name with
  | none => fail (.unbound .function name position)
  | some function =>
    if function.params.length = values.length then
      inChild (scope.setAll (function.params.zip values)) function.params (run function.body)
    else
      fail (.arity name function.params.length values.length position)

/-! ## Output -/

/-- Writes a line. -/
def writeLine (text : String) : Eval Unit := do
  let machine ← get
  let (output, complete) := machine.output.write (text ++ "\n")
  set { machine with output := output }
  if complete then return () else fail (.output Output.refusal)

end Eval

end Terse
