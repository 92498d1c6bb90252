import Terse.Failure
import Terse.Grammar.Items

/-!
# Builtin functions and constants

Most builtin functions are programs of the language itself; the others are hooks.  `startScope`
binds them together with the constants and the input.
-/

namespace Terse

/-- What a builtin function consists of. -/
inductive Builtin.Body where
  | hook (hook : Hook)
  | source (source : String)

/-- A function that every program knows. -/
structure Builtin where
  name : String
  params : List String
  body : Builtin.Body

namespace Builtin

def all : List Builtin :=
  [⟨"out", ["_"], .hook .print⟩,
    ⟨"in", [], .hook .input⟩,
    ⟨"take", ["_", "n"], .hook .take⟩,
    ⟨"outl", ["_"], .source "out(_|\"\\n\")"⟩,
    ⟨"max", ["_"], .source "(:<_)?0"⟩,
    ⟨"min", ["_"], .source "(:>_)?0"⟩,
    ⟨"fact", ["_"], .source "*\\1=>"⟩,
    ⟨"mean", ["_"], .source "(+\\)/(#)"⟩,
    ⟨"mode", ["_"], .source "(:<(:@)):\x7b:\x7b"⟩,
    ⟨"intr", ["_", "sep"], .source "|\x7b|sep\x7d\\"⟩]

/-- The numbers of arguments of the builtin functions. -/
def calls : CallTable :=
  all.map fun builtin => (builtin.name, builtin.params.length)

/-- The constants that are numbers, as numerals. -/
def constants : List (String × String) :=
  [("t", "1"), ("f", "0"), ("pi", "3.14159265358979323846"), ("e", "2.71828182845904523536")]

/-- Reads a source text as a program, given the known functions. -/
def readSource (source : String) (calls : CallTable) : Except Failure Program × CallTable :=
  match tokenize source with
  | .error error => (.error (.lex error), calls)
  | .ok tokens =>
    let (result, calls) := parse tokens calls
    (result.mapError Failure.ofStop, calls)

/-- The body of a builtin function as a node. -/
def node (builtin : Builtin) : Except Failure Node :=
  match builtin.body with
  | .hook hook => .ok (.hook hook .nowhere)
  | .source source => (readSource source calls).1.map fun program => .group program program.position

/-- The value of a constant. -/
def constantValue (numeral : String) : Value :=
  match Decimal.numeral? numeral with
  | some n => .number n
  | none => .text numeral

/-- The variables that a program starts with: the constants, the empty text `c`, and the input as
`_`. -/
def startValues (input : Value) : List (String × Value) :=
  constants.map (fun (name, numeral) => (name, constantValue numeral)) ++
    [("c", .empty), (implicitName, input)]

/-- The scope that a program starts in. -/
def startScope (input : Value) : Except Failure Scope := do
  let functions ← all.mapM fun builtin => do
    return (builtin.name, Function.mk builtin.params (← builtin.node))
  return ⟨startValues input, functions, none⟩

end Builtin

end Terse
