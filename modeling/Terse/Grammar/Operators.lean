import Terse.Decimal.Written
import Terse.Grammar.Basic

/-!
# Operators behind a left operand

`readOperators` takes binary and trailing operators one after another while they bind tightly
enough.  The right operand of a binary operator is an expression bounded by the operator's
precedence.
-/

namespace Terse.Grammar

/-- Reads a function behind a dot, whose first argument is the left operand. -/
def callTarget (grammar : Grammar) (left : Node) (dot : Token) : Parse Node := do
  let cursor ← get
  match cursor.rest with
  | name :: _ =>
    match if name.kind = .name then cursor.calls.find? name.text else none with
    | some (count + 1) =>
      skip
      let args ← arguments grammar count
      let call := Node.call name.text args name.position
      return .binary .call left call .none dot.position
    | _ => fail (.invalidCallTarget dot.position)
  | [] => fail (.invalidCallTarget dot.position)

/-- Reads the combinator of a zip, a single binary operator, if there is one. -/
def zipCombinator (grammar : Grammar) (zip : Token) : Parse Extra := do
  match ← peek with
  | some token =>
    if isBinary token then
      skip
      let combined ← combinator grammar [token] zip.position
      if ← atBoundary then fail (.incompleteZip zip.position)
      else return .zip combined
    else return .none
  | none => return .none

/-- Reads the rest of a binary application behind its operator. -/
def binary (grammar : Grammar) (left : Node) (op : BinaryOp) (token : Token) : Parse Node := do
  if op = .call then callTarget grammar left token
  else
    let extra ← if op = .zip then zipCombinator grammar token else pure .none
    let right ← grammar.expression (.level op.precedence) .right
    return .binary op left right extra token.position

/-- Reads a width: decimal digits of a number that is a word, with an optional plus sign. -/
def readWidth? (text : String) : Option Nat :=
  let digits := match text.toList with
    | '+' :: digits => digits
    | digits => digits
  (Decimal.readPlainDigits? digits).filter Word.holds

/-- Reads the optional width of a base conversion. -/
def baseWidth (token : Token) : Parse Nat := do
  match ← peek with
  | some numeral =>
    if numeral.kind = .numeral then
      match readWidth? numeral.text with
      | some width =>
        skip
        return width
      | none => fail (.invalidBase numeral.text token.position)
    else return 0
  | none => return 0

/-- Reads the codes of a base conversion. -/
def baseCodes (token : Token) : Parse (List BaseCode) := do
  match ← peek with
  | some word =>
    if word.kind = .name then
      skip
      match word.text.toList.mapM BaseCode.ofChar? with
      | some codes => return codes
      | none => fail (.invalidBase word.text token.position)
    else fail (.invalidBase word.text token.position)
  | none => fail (.invalidBase "" token.position)

/-- Reads the rest of a trailing application behind its operator. -/
def trailing (left : Node) (op : TrailingOp) (token : Token) : Parse Node := do
  if op = .base then
    let width ← baseWidth token
    let codes ← baseCodes token
    return .trailing op left (.base width codes) token.position
  else return .trailing op left .none token.position

/-- Applies the operators that follow to a left operand while the bound admits them.  With
`force` the first one applies whatever its precedence. -/
def readOperators (grammar : Grammar) (left : Node) (bound : Bound) (force : Bool) :
    Parse Node := do
  match ← peek with
  | none => return left
  | some token =>
    if token.kind = .symbol then
      match BinaryOp.ofSpelling? token.text with
      | some op =>
        if force || bound.admits op.precedence op.chains then
          skip
          grammar.operators (← binary grammar left op token) bound false
        else return left
      | none =>
        match TrailingOp.ofSpelling? token.text with
        | some op =>
          if force || bound.admits op.precedence true then
            skip
            grammar.operators (← trailing left op token) bound false
          else return left
        | none => return left
    else return left

end Terse.Grammar
