import Terse.Evaluation.Sequence

/-!
# From one kind of value to another

Every operator accepts every kind of value and converts it to the kind it needs.  Arrays and
sequences stand for their first element where a number or a text is needed.
-/

namespace Terse.Eval

variable (run : Evaluator)

/-- The number of a value, through at most `depth` levels of first elements.  The empty text is
zero. -/
def numberWithin (position : Position) : Nat → Value → Eval Decimal
  | _, .number n => return n
  | _, .text s =>
    match Decimal.ofText? s with
    | some n => return n
    | none => mismatch (.notNumber s) position
  | _, .array [] => mismatch .emptyArray position
  | 0, .array (_ :: _) => exhaust
  | depth + 1, .array (first :: _) => numberWithin position depth first
  | 0, .sequence _ => exhaust
  | depth + 1, .sequence sequence => do
    match ← elementAt run sequence 0 with
    | some first => numberWithin position depth first
    | none => mismatch .emptySequence position

/-- The number of a value. -/
def toNumber (value : Value) (position : Position) : Eval Decimal := do
  numberWithin run position (← read).depth value

/-- The text of a value, through at most `depth` levels of first elements. -/
def textWithin : Nat → Value → Eval String
  | _, .text s => return s
  | _, .number n => return n.plain
  | _, .array [] => return ""
  | 0, .array (_ :: _) => exhaust
  | depth + 1, .array (first :: _) => textWithin depth first
  | 0, .sequence _ => exhaust
  | depth + 1, .sequence sequence => do
    match ← elementAt run sequence 0 with
    | some first => textWithin depth first
    | none => return ""

/-- The text of a value. -/
def toText (value : Value) : Eval String := do
  textWithin run (← read).depth value

/-- The elements of a value: a number has those of its text, and a sequence needs a length. -/
def toList (value : Value) (position : Position) : Eval (List Value) :=
  match value with
  | .array items => return items
  | .text s => return Value.elementsOfText s
  | .number n => return Value.elementsOfText n.plain
  | .sequence sequence => allElements run sequence position

/-- A sequence with a length becomes the array of its elements. -/
def settle (value : Value) (position : Position) : Eval Value := do
  match value with
  | .sequence sequence =>
    if sequence.length.isSome then return .array (← allElements run sequence position)
    else return value
  | other => return other

/-- All sequences in a value, through at most `depth` levels, become arrays. -/
def settleWithin (position : Position) : Nat → Value → Eval Value
  | _, .text s => return .text s
  | _, .number n => return .number n
  | 0, .array _ => exhaust
  | depth + 1, .array items => return .array (← items.mapM (settleWithin position depth ·))
  | 0, .sequence _ => exhaust
  | depth + 1, .sequence sequence => do
    if sequence.length.isSome then
      let items ← allElements run sequence position
      return .array (← items.mapM (settleWithin position depth ·))
    else fail (.unbounded .print position)

/-! ## Texts of whole values -/

/-- Whether a value is shown in brackets inside another one. -/
def isCollection : Value → Bool
  | .array _ | .sequence _ => true
  | .text _ | .number _ => false

/-- A value in one line, through at most `depth` levels: elements with spaces between them,
collections among them in brackets, and of a sequence the elements produced so far. -/
def inlineWithin : Nat → Value → Eval String
  | _, .text s => return s
  | _, .number n => return n.plain
  | 0, .array _ => exhaust
  | depth + 1, .array items => do
    return String.intercalate " " (← items.mapM (entry depth ·))
  | 0, .sequence _ => exhaust
  | depth + 1, .sequence sequence => do
    let shown ← (← progress sequence).computed.mapM (entry depth ·)
    return String.intercalate " " shown ++ " ..."
where
  /-- An element of a collection. -/
  entry (depth : Nat) (item : Value) : Eval String := do
    let shown ← inlineWithin depth item
    return if isCollection item then "[" ++ shown ++ "]" else shown

/-- A value in one line. -/
def inline (value : Value) : Eval String := do
  inlineWithin (← read).depth value

/-- The text that is printed for a value: an array or a sequence has one line for each
element. -/
def serialize (value : Value) (position : Position) : Eval String := do
  match ← settleWithin run position (← read).depth value with
  | .array items => return String.intercalate "\n" (← items.mapM inline)
  | scalar => inline scalar

end Terse.Eval
