import Terse.Grammar.Basic

/-!
# Operands

An operand is a literal, a name, a call, a definition, a group, an array, a block or a leading
operator with its operand.  Where none is written, the variable `_` stands in.
-/

namespace Terse.Grammar

/-- How an operand starts, which decides what may follow it. -/
inductive Start where
  /-- An operand that operators may follow. -/
  | primary (node : Node)
  /-- A block or a definition, which nothing follows within the item. -/
  | closed (node : Node)
  /-- No operand; an operator that follows applies to `_` whatever its precedence. -/
  | implicit (node : Node)

/-! ## Definitions -/

/-- Whether the bracket that is open `depth` levels deep closes in front of `:=`.  There is no
answer if a bracket closes while none is open. -/
def closesIntoDefinition : Nat → List Token → Option Bool
  | _, [] => some false
  | depth, token :: rest =>
    if token.isSymbol "(" then closesIntoDefinition (depth + 1) rest
    else if token.isSymbol ")" then
      match depth with
      | 0 => none
      | 1 => some (rest.head?.any (·.isSymbol ":="))
      | depth + 2 => closesIntoDefinition (depth + 1) rest
    else closesIntoDefinition depth rest

/-- Whether the tokens behind a name make it the head of a definition: `:=`, possibly behind a
list of parameters. -/
def startsDefinition : List Token → Bool
  | [] => false
  | token :: rest =>
    token.isSymbol ":=" ||
      (token.isSymbol "(" && closesIntoDefinition 0 (token :: rest) == some true)

/-- Reads parameters up to the closing bracket, and gives the tokens behind it.  Commas do not
count. -/
def readParams (error : SyntaxError) : List Token → Except SyntaxError (List Param × List Token)
  | [] => .ok ([], [])
  | token :: rest =>
    if token.isSymbol ")" then .ok ([], rest)
    else if token.isSymbol "," then readParams error rest
    else if token.kind = .name then
      match readParams error rest with
      | .ok (params, behind) => .ok (⟨token.text, token.position⟩ :: params, behind)
      | .error error => .error error
    else .error error

/-- Reads an optional list of parameters. -/
def optionalParams (name : Token) : Parse (List Param) := do
  if ← nextIs "(" then
    skip
    match readParams (.invalidDefinition name.text name.position) (← get).rest with
    | .ok (params, behind) =>
      modify fun cursor => { cursor with rest := behind }
      return params
    | .error error => fail error
  else return []

/-- Reads a definition behind its name.  The function is known in its own body. -/
def definition (grammar : Grammar) (name : Token) : Parse Node := do
  let params ← optionalParams name
  skip
  modify fun cursor =>
    { cursor with calls := cursor.calls.insert name.text params.length }
  let body ← grammar.expression .lowest .operand
  return .define name.text params body name.position

/-! ## Names -/

/-- Reads what a name starts: a block with a named parameter, a definition, a call or a
variable, in this order of preference. -/
def named (grammar : Grammar) (name : Token) (place : Place) : Parse Start := do
  skip
  if place ≠ .right && (← nextIs "\x7b") then
    skip
    return .closed (.block (← blockBody grammar name.text name.position))
  else if startsDefinition (← get).rest then
    return .closed (← definition grammar name)
  else
    match (← get).calls.find? name.text with
    | some count =>
      return .primary (.call name.text (← arguments grammar count) name.position)
    | none => return .primary (.var name.text name.position)

/-! ## Symbols -/

/-- Passes over the start of a block, an opening brace with an optional name in front of it, and
gives the block's parameter and the place of the brace. -/
def blockStart? : Parse (Option (String × Position)) := do
  match (← get).rest with
  | first :: rest =>
    if first.isSymbol "\x7b" then
      skip
      return some (implicitName, first.position)
    else match rest with
      | second :: _ =>
        if first.kind = .name && second.isSymbol "\x7b" then
          skip
          skip
          return some (first.text, second.position)
        else return none
      | [] => return none
  | [] => return none

/-- Reads the block and the operand of a filter. -/
def filter (grammar : Grammar) (op : LeadingOp) (token : Token) : Parse Start := do
  match ← blockStart? with
  | none => fail (.missingBlock token.text token.position)
  | some (param, position) =>
    let block ← blockBody grammar param position
    let arg ← grammar.expression (.level op.precedence) .operand
    return .primary (.leading op arg (.filter block) token.position)

/-- Reads a group behind its opening bracket. -/
def group (grammar : Grammar) (position : Position) : Parse Node := do
  let start ← here
  let items ← grammar.items (some ")") []
  return .group ⟨items, start⟩ position

/-- Reads an array behind its opening bracket; it has one block at most. -/
def array (grammar : Grammar) (position : Position) : Parse Node := do
  let start ← here
  let items ← grammar.items (some "]") []
  if 1 < items.countP Node.isBlock then fail (.multipleGenerators position)
  else return .array ⟨items, start⟩ position

/-- Reads what a leading operator starts. -/
def leading (grammar : Grammar) (op : LeadingOp) (token : Token) : Parse Start := do
  skip
  if op = .filter ∨ op = .any then filter grammar op token
  else
    let arg ← grammar.expression (.level op.precedence) .operand
    return .primary (.leading op arg .none token.position)

/-- Reads what a symbol starts.  A block does not start behind a binary operator, and a fold
starts an item of its own. -/
def symbol (grammar : Grammar) (token : Token) (place : Place) : Parse Start := do
  let implicit := Start.implicit (Node.implicit token.position)
  if token.text = "(" then
    skip
    return .primary (← group grammar token.position)
  else if token.text = "[" then
    skip
    return .primary (← array grammar token.position)
  else if token.text = "\x7b" then
    if place = .right then return implicit
    else
      skip
      return .closed (.block (← blockBody grammar implicitName token.position))
  else if token.text = "\\" then return implicit
  else match LeadingOp.ofSpelling? token.text with
    | some op => leading grammar op token
    | none =>
      if (BinaryOp.ofSpelling? token.text).isSome || (TrailingOp.ofSpelling? token.text).isSome then
        return implicit
      else if place ≠ .item && (isCloser token || token.text == ",") then return implicit
      else fail (.unexpectedToken token.text token.position)

/-- Reads an operand, or stands in for it. -/
def operand (grammar : Grammar) (place : Place) : Parse Start := do
  match ← peek with
  | none => return .implicit (Node.implicit (← here))
  | some token =>
    match token.kind with
    | .text quote =>
      skip
      return .primary (.text token.text quote token.position)
    | .numeral =>
      skip
      return .primary (.numeral token.text token.position)
    | .name => named grammar token place
    | .symbol => symbol grammar token place

end Terse.Grammar
