import Terse.Decimal.Root
import Terse.Evaluation.Collection

/-!
# Leading operators

Arithmetic on one number, text and logic, ranges and sorting.  Stepping a variable up or down
stores the result in it.
-/

namespace Terse

/-- What elements are sorted by: numbers come before texts. -/
inductive SortKey where
  | number (n : Decimal)
  | text (s : String)

/-- Orders numbers by value, texts by their characters, and numbers before texts. -/
def SortKey.compare : SortKey → SortKey → Ordering
  | number a, number b => a.compare b
  | number _, text _ => .lt
  | text _, number _ => .gt
  | text a, text b => Ord.compare a b

/-- The key of a value: a number or the number that a text spells, the length of a collection, or
the text.  A sequence without a length counts as longer than any other. -/
def SortKey.ofValue : Value → SortKey
  | .array items => .number (.ofInt items.length)
  | .sequence sequence => .number (.ofInt (sequence.length.getD Word.greatest))
  | .number n => .number n
  | .text s =>
    if Text.trim s = "" then .text s
    else match Decimal.ofText? s with
      | some n => .number n
      | none => .text s

/-- Sorts values by their keys, upwards or downwards; values with equal keys keep their order. -/
def sortValues (descending : Bool) (values : List Value) : List Value :=
  let keyed := values.map fun value => (SortKey.ofValue value, value)
  let before (a b : SortKey × Value) : Bool :=
    if descending then (b.1.compare a.1).isLE else (a.1.compare b.1).isLE
  (keyed.mergeSort before).map (·.2)

namespace Eval

variable (run : Evaluator)

/-- Sorts the elements of a value. -/
def sort (value : Value) (descending : Bool) (position : Position) : Eval Value := do
  return .array (sortValues descending (← toList run value position))

/-- The numbers from `current` on in steps of one, up to `stop`, at most `count` of them, behind
those in `made`, the last one first. -/
def rangeFrom (stop : Decimal) (closed : Bool) (position : Position) :
    Nat → Decimal → List Value → Eval (List Value)
  | 0, _, made => return made.reverse
  | count + 1, current, made => do
    let order := current.compare stop
    if order.isLT || (order.isEq && closed) then
      let value ← number current position
      rangeFrom stop closed position count (current + .one) (value :: made)
    else return made.reverse

/-- A number of steps of one that leads beyond `stop`. -/
def stepsBeyond (start stop : Decimal) : Nat :=
  ((stop - start).floor.wholePart + 2).toNat

/-- The numbers from `start` in steps of one, up to `stop` and including it if `closed`. -/
def range (start stop : Decimal) (closed : Bool) (position : Position) : Eval Value := do
  return .array (← rangeFrom stop closed position (stepsBeyond start stop) start [])

/-- The result of a leading operator on a number, before rounding. -/
def leadingNumber (op : LeadingOp) (n : Decimal) : Except Decimal.Fault Decimal :=
  match op with
  | .negate => .ok (-n)
  | .floor => .ok n.floor
  | .ceil => .ok n.ceil
  | .square => .ok (n * n)
  | .sqrt => n.sqrt
  | .double => .ok (n * .ofInt 2)
  | .halve => .ok (n.quotient (.ofInt 2))
  | _ => .ok n

/-- Applies a leading operator that needs only the value of its operand. -/
def applyLeading (op : LeadingOp) (value : Value) (position : Position) : Eval Value := do
  match op with
  | .not => return .ofBool !value.isTruthy
  | .reverse => return .text (Text.backwards (← toText run value))
  | .palindrome =>
    let text ← toText run value
    return .array [.text text, .text (Text.backwards text)]
  | .sortAscending => sort run value false position
  | .sortDescending => sort run value true position
  | .oneRange => range .one (← toNumber run value position) true position
  | op =>
    let n ← toNumber run value position
    number (← ofArithmetic (leadingNumber op n) position) position

/-- A value with a number added to it, or to each element of an array. -/
def stepBy (delta : Decimal) (value : Value) (position : Position) : Eval Value := do
  let step (value : Value) : Eval Value := do
    number ((← toNumber run value position) + delta) position
  match value with
  | .array items => return .array (← items.mapM step)
  | other => step other

/-- Steps the value of a node up or down; a variable keeps the result. -/
def step (delta : Decimal) (arg : Node) (position : Position) : Eval Value := do
  let stepped ← stepBy run delta (← run arg) position
  match arg with
  | .var name _ =>
    assign name stepped
    return stepped
  | _ => return stepped

/-- Evaluates a leading operator on its operand. -/
def leading (op : LeadingOp) (arg : Node) (extra : Extra) (position : Position) :
    Eval Value := do
  match op, extra with
  | .fold, .fold map combinator => fold run (← run arg) map combinator position
  | .fold, _ => fold run (← run arg) none none position
  | .filter, .filter block => filter run block (← run arg) position
  | .any, .filter block => any run block (← run arg) position
  | .filter, _ | .any, _ => mismatch .noBlock position
  | .increment, _ => step run .one arg position
  | .decrement, _ => step run (-.one) arg position
  | op, _ => applyLeading run op (← run arg) position

end Eval

end Terse
