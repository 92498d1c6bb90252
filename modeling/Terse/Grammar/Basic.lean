import Terse.Bindings
import Terse.Tree

/-!
# Reading tokens

A parser reads a list of tokens from the front.  Besides the tokens that are still to be read it
keeps the table of known functions with their numbers of arguments, which grows as definitions
are met.  A failing parser keeps its table.

The rules of the grammar call each other through `Grammar`, a record of the rules one level
down; the number of levels is bounded, and `Stop.exhausted` tells that the bound was reached.
`Stop.overrun` tells that a rule went beyond the last token.  Neither happens to the whole grammar.
-/

namespace Terse

/-- What is wrong with the tokens of a program. -/
inductive SyntaxError where
  /-- A token that cannot stand where it does. -/
  | unexpectedToken (text : String) (position : Position)
  /-- The head of a definition lists something that is not a name. -/
  | invalidDefinition (name : String) (position : Position)
  /-- A filter has no block behind it. -/
  | missingBlock (op : String) (position : Position)
  /-- A zip with a combinator has no right operand. -/
  | incompleteZip (position : Position)
  /-- A combinator is not one expression. -/
  | malformedCombinator (text : String) (position : Position)
  /-- A base conversion has no codes or unknown ones. -/
  | invalidBase (directive : String) (position : Position)
  /-- An array has more than one block. -/
  | multipleGenerators (position : Position)
  /-- What follows a dot is not a function with an argument. -/
  | invalidCallTarget (position : Position)
deriving DecidableEq

namespace SyntaxError

/-- The place of the error. -/
def position : SyntaxError → Position
  | unexpectedToken _ position | invalidDefinition _ position | missingBlock _ position
  | incompleteZip position | malformedCombinator _ position | invalidBase _ position
  | multipleGenerators position | invalidCallTarget position => position

/-- The wording of the cause. -/
def details : SyntaxError → String
  | unexpectedToken text _ => s!"Didn't recognize token '{text}'."
  | invalidDefinition name _ => s!"Function '{name}' has a parameter that is not a variable."
  | missingBlock op _ => s!"'{op}' must be followed by a block."
  | incompleteZip _ => "Zip is missing its right operand."
  | malformedCombinator text _ => s!"Combinator '{text}' is not a single expression."
  | invalidBase directive _ => s!"Invalid base conversion '{directive}'."
  | multipleGenerators _ => "A sequence may only have one generator block."
  | invalidCallTarget _ => "'.' must be followed by a function that takes an argument."

end SyntaxError

/-- The number of arguments of each known function. -/
abbrev CallTable := Bindings Nat

namespace Grammar

/-- Why a parser stops without a result. -/
inductive Stop where
  | fault (error : SyntaxError)
  /-- The bound on the number of levels is reached. -/
  | exhausted
  /-- A token is passed over where there is none. -/
  | overrun
deriving DecidableEq

/-- The state of a parser: the tokens to be read, the place that stands for the end of them, and
the known functions. -/
structure Cursor where
  rest : List Token
  finish : Position
  calls : CallTable

abbrev Parse := EStateM Stop Cursor

/-- Stops with a syntax error. -/
def fail {α : Type} (error : SyntaxError) : Parse α := throw (.fault error)

/-- The next token. -/
def peek : Parse (Option Token) := return (← get).rest.head?

/-- Passes over one token. -/
def skip : Parse Unit := do
  let cursor ← get
  match cursor.rest with
  | [] => throw .overrun
  | _ :: rest => set { cursor with rest := rest }

/-- The place of the next token, or of the last one at the end. -/
def here : Parse Position := do
  let cursor ← get
  return match cursor.rest with
    | token :: _ => token.position
    | [] => cursor.finish

/-- Whether the next token is the symbol with the given spelling. -/
def nextIs (spelling : String) : Parse Bool := do
  return (← get).rest.head?.any (·.isSymbol spelling)

/-- Whether a token closes a bracket. -/
def isCloser (token : Token) : Bool :=
  token.isSymbol ")" || token.isSymbol "]" || token.isSymbol "\x7d"

/-- Whether a binary operator is spelled by a token. -/
def isBinary (token : Token) : Bool :=
  token.kind == .symbol && (BinaryOp.ofSpelling? token.text).isSome

/-- Whether the next token closes a bracket or there is none. -/
def atBoundary : Parse Bool := do
  return (← get).rest.head?.all isCloser

/-- Where an operand stands. -/
inductive Place where
  /-- At the start of an item. -/
  | item
  /-- Behind a leading operator, or as the body of a definition. -/
  | operand
  /-- Behind a binary operator. -/
  | right
  /-- As an argument of a call. -/
  | argument
deriving DecidableEq

/-- How tightly an operator has to bind in order to be taken. -/
inductive Bound where
  /-- Every operator is taken. -/
  | lowest
  /-- Operators above a precedence are taken, and those of that precedence that chain. -/
  | level (precedence : Nat)
  /-- No operator is taken. -/
  | highest
deriving DecidableEq

/-- Whether an operator is taken. -/
def Bound.admits (bound : Bound) (precedence : Nat) (chains : Bool) : Bool :=
  match bound with
  | lowest => true
  | level least => least < precedence || (precedence == least && chains)
  | highest => false

/-- An item that was read, with the tokens from its first one on and those behind it. -/
structure Sibling where
  node : Node
  start : List Token
  stop : List Token

/-- The tokens of an item. -/
def Sibling.tokens (sibling : Sibling) : List Token :=
  sibling.start.take (sibling.start.length - sibling.stop.length)

end Grammar

/-- The rules of the grammar that call each other: an operand with the operators behind it, the
operators behind a left operand, and the items up to a closing bracket. -/
structure Grammar where
  expression : Grammar.Bound → Grammar.Place → Grammar.Parse Node
  operators : Node → Grammar.Bound → Bool → Grammar.Parse Node
  items : Option String → List Grammar.Sibling → Grammar.Parse (List Node)

namespace Grammar

/-- Lets a parser read tokens of its own.  It takes the known functions along and hands back those
that it knows at its end, whether it has a result or not; the tokens around stay as they are. -/
def apart {α : Type} (tokens : List Token) (finish : Position) (parser : Parse α) : Parse α :=
  fun outer =>
    match parser ⟨tokens, finish, outer.calls⟩ with
    | .ok result inner => .ok result { outer with calls := inner.calls }
    | .error stop inner => .error stop { outer with calls := inner.calls }

/-- Reads tokens as an expression in two operands, which stand in front of them and behind
them. -/
def combinator (grammar : Grammar) (tokens : List Token) (position : Position) :
    Parse Combinator := do
  let left : Token := ⟨.name, leftName, position⟩
  let right : Token := ⟨.name, rightName, position⟩
  let items ← apart (left :: tokens ++ [right]) position (grammar.items none [])
  match items with
  | [expr] => return ⟨expr, position⟩
  | _ =>
    fail (.malformedCombinator (String.intercalate " " (tokens.map (·.text))) position)

/-- Reads the body of a block behind its opening brace. -/
def blockBody (grammar : Grammar) (param : String) (position : Position) : Parse Block := do
  let start ← here
  let items ← grammar.items (some "\x7d") []
  return ⟨param, ⟨items, start⟩, position⟩

/-- Reads an argument of a call.  One that is missing in front of a closing bracket or at the end
is the variable `_`. -/
def argument (grammar : Grammar) : Parse Node := do
  if ← atBoundary then return Node.implicit (← here)
  else grammar.expression .highest .argument

/-- Reads the arguments of a call. -/
def arguments (grammar : Grammar) : Nat → Parse (List Node)
  | 0 => return []
  | count + 1 => do
    let first ← argument grammar
    return first :: (← arguments grammar count)

end Grammar

end Terse
