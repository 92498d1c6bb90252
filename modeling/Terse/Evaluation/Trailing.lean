import Terse.Decimal.Root
import Terse.Evaluation.Coercion

/-!
# Trailing operators

Lengths, parts of collections, grouping, flattening and base conversion.
-/

namespace Terse

/-- Adds a value to the first group whose first element equals it, or as a group of its own. -/
def addToGroups (value : Value) : List (List Value) → List (List Value)
  | [] => [[value]]
  | group :: rest =>
    if group.head?.any (·.looseEq value) then (group ++ [value]) :: rest
    else group :: addToGroups value rest

/-- Equal values in groups, in the order of their first appearance. -/
def groupValues (values : List Value) : List (List Value) :=
  values.foldl (fun groups value => addToGroups value groups) []

namespace Eval

variable (run : Evaluator)

/-- The number of elements of a value; of a sequence, its length. -/
def length (value : Value) (position : Position) : Eval Value := do
  match value with
  | .sequence sequence => return .ofNat (← requireLength sequence .measure position)
  | other => return .ofNat (← toList run other position).length

/-- One step of a base conversion. -/
def convertBy (width : Nat) (position : Position) (value : Value) (code : BaseCode) :
    Eval Value := do
  match code with
  | .format radix =>
    let n ← toNumber run value position
    return .text (← ofConversion (n.toRadix radix width) position)
  | .parse radix =>
    let text ← toText run value
    return .number (← ofConversion (Decimal.ofRadix text radix) position)
  | .decimal => number (← toNumber run value position) position

/-- The elements of a collection and of the collections in it, through at most `depth` levels. -/
def flattenWithin (position : Position) : Nat → Value → Eval (List Value)
  | _, .text s => return [.text s]
  | _, .number n => return [.number n]
  | 0, .array _ => exhaust
  | depth + 1, .array items =>
    return (← items.mapM (flattenWithin position depth ·)).flatten
  | 0, .sequence _ => exhaust
  | depth + 1, .sequence sequence => do
    let items ← allElements run sequence position
    return (← items.mapM (flattenWithin position depth ·)).flatten

/-- The first element of a value. -/
def head (value : Value) (position : Position) : Eval Value := do
  match value with
  | .sequence sequence => return (← elementAt run sequence 0).getD .empty
  | other => return (← toList run other position).head?.getD .empty

/-- Applies a trailing operator to a value. -/
def applyTrailing (op : TrailingOp) (extra : Extra) (value : Value) (position : Position) :
    Eval Value := do
  match op, extra with
  | .length, _ => length run value position
  | .base, .base width codes => codes.foldlM (convertBy run width position) value
  | .base, _ => return value
  | .abs, _ =>
    let n ← toNumber run value position
    number n.abs position
  | .lines, _ => return .array ((Text.cut "\n" (← toText run value)).map .text)
  | .words, _ => return .array ((Text.cut " " (← toText run value)).map .text)
  | .head, _ => head run value position
  | .last, _ => return (← toList run value position).getLast?.getD .empty
  | .tail, _ => return .array ((← toList run value position).drop 1)
  | .init, _ => return .array (← toList run value position).dropLast
  | .group, _ =>
    return .array ((groupValues (← toList run value position)).map .array)
  | .isSquare, _ =>
    let n ← toNumber run value position
    return .ofBool n.isPerfectSquare
  | .flatten, _ => return .array (← flattenWithin run position (← read).depth value)

/-- Evaluates a trailing operator on its operand. -/
def trailing (op : TrailingOp) (arg : Node) (extra : Extra) (position : Position) :
    Eval Value := do
  applyTrailing run op extra (← run arg) position

end Eval

end Terse
