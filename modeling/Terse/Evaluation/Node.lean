import Terse.Evaluation.Binary
import Terse.Evaluation.Trailing

/-!
# Evaluation of nodes

`node` evaluates one node, given what evaluates the nodes below it.  `nested` closes this up to a
depth.
-/

namespace Terse.Eval

variable (run : Evaluator)

/-- The value of a text literal; those in other than double quotes are decoded. -/
def text (text : String) (quote : Quote) : Eval Value := do
  let dictionary := (← read).dictionary
  return .text <| match quote with
    | .double => text
    | .single => dictionary.decode text true
    | .backtick => dictionary.decode text false

/-- The value of a numeral. -/
def numeral (text : String) (position : Position) : Eval Value :=
  match Decimal.numeral? text with
  | some n => number n position
  | none => mismatch (.notNumber text) position

/-- Evaluates a block on its own: its parameter is the current `_`. -/
def block (block : Block) : Eval Value := do
  applyBlock run block (← current implicitName)

/-- The number of elements that a range in a sequence declares: its right operand, and one more if
the range is closed.  It is a word. -/
def declaredLength (stop : Node) (closed : Bool) : Eval Nat := do
  let declared ← toNumber run (← run stop) stop.position
  let count ← ofConversion declared.toCount stop.position
  return if closed then Word.wrap (count + 1) else count

/-- The right operand of a range whose left operand is left out, and whether it is closed. -/
def declaration? : Node → Option (Node × Bool)
  | .binary .range left right _ _ => if left.isImplicit then some (right, false) else none
  | .binary .closedRange left right _ _ => if left.isImplicit then some (right, true) else none
  | _ => none

/-- Evaluates the items of a sequence: the first declaration gives its length, and all other items
except blocks are its first elements. -/
def seeds : List Node → List Value → Option Nat → Eval (List Value × Option Nat)
  | [], made, length => return (made.reverse, length)
  | item :: rest, made, length => do
    if item.isBlock then seeds rest made length
    else match length, declaration? item with
      | none, some (stop, closed) => seeds rest made (some (← declaredLength run stop closed))
      | _, _ => seeds rest ((← run item) :: made) length

/-- Evaluates an array.  With a block among its items it is a sequence. -/
def array (body : Program) : Eval Value := do
  match body.block? with
  | none => return .array (← body.items.mapM run)
  | some generator =>
    let (elements, length) ← seeds run body.items [] none
    makeSequence elements generator length

/-- Evaluates a node, given what evaluates the nodes below it. -/
def node : Node → Eval Value
  | .text text quote _ => Eval.text text quote
  | .numeral text position => numeral text position
  | .var name position => readVariable name position
  | .call name args position => call run name args none position
  | .define name params body _ => do
    define name ⟨params.map (·.name), body⟩
    return .empty
  | .group body _ => program run body
  | .block block => Eval.block run block
  | .array body _ => array run body
  | .leading op arg extra position => leading run op arg extra position
  | .binary op left right extra position => binary run op left right extra position
  | .trailing op arg extra position => trailing run op arg extra position
  | .hook hook position => Eval.hook run hook position

/-- Evaluates a node, nesting at most `depth` nodes. -/
def nested : Nat → Evaluator
  | 0 => fun _ => exhaust
  | depth + 1 => node (nested depth)

end Terse.Eval
