import Terse.Evaluation.Call
import Terse.Evaluation.Leading

/-!
# Binary operators

Most operators evaluate their operands from left to right and need only the values.  Assignment
and removal need a variable on the left, `&&` and `||` evaluate the right operand only where it
decides, and a call hands its left operand to the function on the right.
-/

namespace Terse.Eval

variable (run : Evaluator)

/-- The result of an arithmetic operator on two numbers, before rounding. -/
def arithmetic (op : BinaryOp) (a b : Decimal) (precision : Nat) :
    Except Decimal.Fault Decimal :=
  match op with
  | .power => a.power b precision
  | .multiply => .ok (a * b)
  | .divide => a.divide b
  | .modulo => a.modulo b
  | .add => .ok (a + b)
  | _ => .ok (a - b)

/-- Whether an ordering operator holds of two numbers in an order. -/
def ordered (op : BinaryOp) (order : Ordering) : Bool :=
  match op with
  | .less => order.isLT
  | .lessEqual => order.isLE
  | .greater => order.isGT
  | _ => order.isGE

/-- The place that an index denotes in a collection of a length; negative ones count from the
end. -/
def resolveIndex (index : Int) (length : Nat) : Option Nat :=
  if index < 0 then
    if index.natAbs ≤ length then some (length - index.natAbs) else none
  else some index.toNat

/-- The place that an index denotes in a sequence; counting from the end needs a length. -/
def sequencePlace (sequence : Sequence) (index : Int) (position : Position) :
    Eval (Option Nat) := do
  if index < 0 then return resolveIndex index (← requireLength sequence .indexFromEnd position)
  else return some index.toNat

/-- The element at an index; the empty text outside of the collection. -/
def index (collection : Value) (index : Value) (position : Position) : Eval Value := do
  let n ← toNumber run index position
  let i ← ofConversion n.toIndex position
  match collection with
  | .sequence sequence =>
    match ← sequencePlace sequence i position with
    | some place => return (← elementAt run sequence place).getD .empty
    | none => return .empty
  | other =>
    let items ← toList run other position
    return ((resolveIndex i items.length).bind (items[·]?)).getD .empty

/-- The texts of the elements of a value with a separator between them. -/
def join (value : Value) (separator : String) (position : Position) : Eval Value := do
  match value with
  | .sequence sequence =>
    return .text (← joinElements run sequence separator position (toText run))
  | other =>
    let texts ← (← toList run other position).mapM (toText run)
    return .text (String.intercalate separator texts)

/-- Applies an operator that needs only the values of its operands. -/
def applyBinary (op : BinaryOp) (left right : Value) (position : Position) : Eval Value := do
  match op, left with
  | .power, .text text =>
    let times ← toNumber run right position
    return .text (Text.repeated (← ofConversion times.toCount position) text)
  | .power, _ | .multiply, _ | .divide, _ | .modulo, _ | .add, _ | .subtract, _ =>
    let a ← toNumber run left position
    let b ← toNumber run right position
    number (← ofArithmetic (arithmetic op a b (← read).precision) position) position
  | .join, _ => join run left (← toText run right) position
  | .split, _ =>
    let text ← toText run left
    let separator ← toText run right
    return .array ((Text.split separator text).map .text)
  | .concat, _ =>
    let first ← toText run left
    return .text (first ++ (← toText run right))
  | .range, _ | .closedRange, _ =>
    let start ← toNumber run left position
    let stop ← toNumber run right position
    range start stop (op == .closedRange) position
  | .index, _ => index run left right position
  | .indexOf, _ =>
    let items ← toList run left position
    return match items.findIdx? (·.looseEq right) with
      | some place => .ofNat place
      | none => .number (.ofInt (-1))
  | .contains, _ =>
    let items ← toList run left position
    return .ofBool (items.any (·.looseEq right))
  | .equal, _ | .notEqual, _ =>
    let a ← settle run left position
    let b ← settle run right position
    return .ofBool (a.looseEq b == (op == .equal))
  | .less, _ | .lessEqual, _ | .greater, _ | .greaterEqual, _ =>
    let a ← toNumber run left position
    let b ← toNumber run right position
    return .ofBool (ordered op (a.compare b))
  | .assign, _ | .remove, _ | .and, _ | .or, _ | .call, _ | .zip, _ =>
    mismatch (.unevaluated op) position

/-- Stores a value in a variable. -/
def store (target value : Node) : Eval Value := do
  match target with
  | .var name _ =>
    let value ← run value
    assign name value
    return value
  | other => fail (.immutable .assign other.position)

/-- Removes the first element that equals a value from the collection in a variable. -/
def remove (target value : Node) (position : Position) : Eval Value := do
  match target with
  | .var name namePosition =>
    let current ← readVariable name namePosition
    let unwanted ← run value
    let items ← toList run current position
    let updated := Value.array (items.eraseP (·.looseEq unwanted))
    assign name updated
    return updated
  | _ => fail (.immutable .remove position)

/-- Evaluates a binary operator on its operands. -/
def binary (op : BinaryOp) (left right : Node) (extra : Extra) (position : Position) :
    Eval Value := do
  match op with
  | .assign => store run left right
  | .remove => remove run left right position
  | .and | .or =>
    let first ← run left
    if first.isTruthy == (op == .and) then run right else return first
  | .call =>
    let receiver ← run left
    match right with
    | .call name args callPosition => call run name args (some receiver) callPosition
    | other => run other
  | .zip =>
    let first ← run left
    let second ← run right
    let combinator := match extra with
      | .zip combinator => some combinator
      | _ => none
    zip run first second combinator position
  | op =>
    let first ← run left
    let second ← run right
    applyBinary run op first second position

end Terse.Eval
