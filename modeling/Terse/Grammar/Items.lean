import Terse.Grammar.Operand
import Terse.Grammar.Operators

/-!
# Items, and the whole grammar

Items follow one another up to a closing bracket or the end of the tokens; commas between them do
not count.  An operator at the start of an item may take the item before it as its left operand.
A fold takes a block before it as its map, and the item before that as its combinator if that
item starts with a binary operator.

`parse` ties the rules together, with a bound on the number of levels that grows with the number
of tokens.
-/

namespace Terse.Grammar

/-- Reads an operand and the operators behind it that the bound admits. -/
def readExpression (grammar : Grammar) (bound : Bound) (place : Place) : Parse Node := do
  match ← operand grammar place with
  | .closed node => return node
  | .primary node => grammar.operators node bound false
  | .implicit node => grammar.operators node bound true

/-- The precedence of an operator that needs a left operand, if a token spells one that is not
also a leading operator. -/
def adoptingPrecedence? (token : Token) : Option Nat :=
  if token.kind = .symbol && (LeadingOp.ofSpelling? token.text).isNone then
    ((BinaryOp.ofSpelling? token.text).map BinaryOp.precedence).or
      ((TrailingOp.ofSpelling? token.text).map TrailingOp.precedence)
  else none

/-- Whether an item may be the left operand of an operator that starts the next item. -/
def adoptable (precedence : Nat) (node : Node) : Bool :=
  node.canBeLeft && !node.endsLooser precedence

/-- Splits off the block before a fold: the map, where the fold then starts, and the other
items. -/
def takeMap (start : List Token) : List Sibling → Option Block × List Token × List Sibling
  | ⟨.block block, first, _⟩ :: others => (some block, first, others)
  | siblings => (none, start, siblings)

/-- Splits off the combinator before a fold: its tokens, where the fold then starts, and the
other items. -/
def takeCombinator (start : List Token) :
    List Sibling → Option (List Token) × List Token × List Sibling
  | [] => (none, start, [])
  | sibling :: others =>
    if sibling.start.head?.any isBinary then (some sibling.tokens, sibling.start, others)
    else (none, start, sibling :: others)

/-- Reads a fold, taking what belongs to it from the items before it. -/
def fold (grammar : Grammar) (token : Token) (siblings : List Sibling) :
    Parse (List Sibling) := do
  let (map, start, siblings) := takeMap (← get).rest siblings
  let (tokens, start, siblings) := takeCombinator start siblings
  skip
  let combined ← match tokens with
    | some tokens => some <$> combinator grammar tokens token.position
    | none => pure none
  let arg ← grammar.expression (.level 0) .operand
  let node := Node.leading .fold arg (.fold map combined) token.position
  let node ← grammar.operators node .lowest false
  return ⟨node, start, (← get).rest⟩ :: siblings

/-- Reads an item that does not look at the items before it. -/
def freshItem (grammar : Grammar) (token : Token) (siblings : List Sibling) :
    Parse (List Sibling) := do
  let start := (← get).rest
  let node ← grammar.expression .lowest .item
  let stop := (← get).rest
  if stop.length = start.length then fail (.unexpectedToken token.text token.position)
  else return ⟨node, start, stop⟩ :: siblings

/-- Reads an item, given its first token and the items before it, the last one first. -/
def item (grammar : Grammar) (token : Token) (siblings : List Sibling) :
    Parse (List Sibling) := do
  if token.isSymbol "\\" then fold grammar token siblings
  else
    match adoptingPrecedence? token, siblings with
    | some precedence, previous :: others =>
      if adoptable precedence previous.node then
        let node ← grammar.operators previous.node .lowest true
        return ⟨node, previous.start, (← get).rest⟩ :: others
      else freshItem grammar token siblings
    | _, _ => freshItem grammar token siblings

/-- Reads the items up to a closing bracket, which is passed over, or up to the end. -/
def readItems (grammar : Grammar) (closer : Option String) (siblings : List Sibling) :
    Parse (List Node) := do
  match ← peek with
  | none => return (siblings.map (·.node)).reverse
  | some token =>
    if closer.any token.isSymbol then
      skip
      return (siblings.map (·.node)).reverse
    else if token.isSymbol "," then
      skip
      grammar.items closer siblings
    else
      grammar.items closer (← item grammar token siblings)

/-- The grammar with a bounded number of levels. -/
def ofDepth : Nat → Grammar
  | 0 =>
    { expression := fun _ _ => throw .exhausted
      operators := fun _ _ _ => throw .exhausted
      items := fun _ _ => throw .exhausted }
  | depth + 1 =>
    { expression := fun bound place => readExpression (ofDepth depth) bound place
      operators := fun left bound force => readOperators (ofDepth depth) left bound force
      items := fun closer siblings => readItems (ofDepth depth) closer siblings }

/-- A number of levels that suffices for a number of tokens.  A level either reads a token or goes
on to a rule of lower rank, of which there are three; a combinator is read again with two tokens
more but without the fold that it belongs to. -/
def sufficientDepth (count : Nat) : Nat := 6 * ((count + 2) * (count + 2))

end Terse.Grammar

namespace Terse

open Grammar in
/-- The syntax tree of a list of tokens, given the known functions; also the functions that are
known afterwards. -/
def parse (tokens : List Token) (calls : CallTable) : Except Stop Program × CallTable :=
  let finish := (tokens.getLast?.map (·.position)).getD .start
  let start := (tokens.head?.map (·.position)).getD .start
  match (ofDepth (sufficientDepth tokens.length)).items none [] ⟨tokens, finish, calls⟩ with
  | .ok items cursor => (.ok ⟨items, start⟩, cursor.calls)
  | .error stop cursor => (.error stop, cursor.calls)

end Terse
