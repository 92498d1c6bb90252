import Terse.Evaluation.Coercion

/-!
# Folds, filters and zips

A fold passes each element through its map and combines the results from left to right.  A
sequence is walked through element by element, so that the map runs between the runs of the
generator.
-/

namespace Terse.Eval

variable (run : Evaluator)

/-- The elements that a fold combines: those of the operand, each passed through the map if there
is one. -/
def foldElements (operand : Value) (map : Option Block) (position : Position) :
    Eval (List Value) :=
  match operand, map with
  | .sequence sequence, some block => mapElements run sequence position (applyBlock run block)
  | .sequence sequence, none => allElements run sequence position
  | other, some block => do (← toList run other position).mapM (applyBlock run block)
  | other, none => toList run other position

/-- Combines values from left to right. -/
def combine (combinator : Combinator) : Value → List Value → Eval Value
  | accumulated, [] => return accumulated
  | accumulated, next :: rest => do
    combine combinator (← applyCombinator run combinator accumulated next) rest

/-- Evaluates a fold on its operand.  Without a combinator the result is an array, or the sequence
itself if there is no map either; a fold of no elements is the empty text. -/
def fold (operand : Value) (map : Option Block) (combinator : Option Combinator)
    (position : Position) : Eval Value :=
  match operand, map, combinator with
  | .sequence sequence, none, none => return .sequence sequence
  | operand, map, none => return .array (← foldElements run operand map position)
  | operand, map, some combinator => do
    match ← foldElements run operand map position with
    | [] => return .empty
    | first :: rest => combine run combinator first rest

/-- Whether a block gives a true value for an element. -/
def holds (block : Block) (element : Value) : Eval Bool :=
  return (← applyBlock run block element).isTruthy

/-- The elements of a list that a test keeps. -/
def filterList (keep : Value → Eval Bool) : List Value → Eval (List Value)
  | [] => return []
  | value :: rest => do
    if ← keep value then return value :: (← filterList keep rest)
    else filterList keep rest

/-- Whether a test holds of some element; the elements behind it are not visited. -/
def anyOfList (test : Value → Eval Bool) : List Value → Eval Bool
  | [] => return false
  | value :: rest => do
    if ← test value then return true else anyOfList test rest

/-- Keeps the elements for which a block gives a true value. -/
def filter (block : Block) (operand : Value) (position : Position) : Eval Value :=
  match operand with
  | .sequence sequence =>
    return .array (← filterElements run sequence position (holds run block))
  | other => do
    return .array (← filterList (holds run block) (← toList run other position))

/-- Whether a block gives a true value for some element. -/
def any (block : Block) (operand : Value) (position : Position) : Eval Value :=
  match operand with
  | .sequence sequence =>
    return .ofBool (← anyElement run sequence position (holds run block))
  | other => do
    return .ofBool (← anyOfList (holds run block) (← toList run other position))

/-- The first elements of a collection. -/
def take (collection : Value) (count : Nat) (position : Position) : Eval (List Value) :=
  match collection with
  | .sequence sequence => takeElements run sequence count
  | other => return (← toList run other position).take count

/-- The elements of both operands of a zip.  A sequence without a length is only produced as far
as the other operand reaches. -/
def zipOperands (left right : Value) (position : Position) :
    Eval (List Value × List Value) :=
  match left.isUnbounded, right.isUnbounded with
  | true, true => fail (.unbounded .zip position)
  | true, false => do
    let rights ← toList run right position
    return (← take run left rights.length position, rights)
  | false, true => do
    let lefts ← toList run left position
    return (lefts, ← take run right lefts.length position)
  | false, false => do
    let lefts ← toList run left position
    return (lefts, ← toList run right position)

/-- Pairs elements at equal places, or combines them if there is a combinator. -/
def zip (left right : Value) (combinator : Option Combinator) (position : Position) :
    Eval Value := do
  let (lefts, rights) ← zipOperands run left right position
  let pair (pair : Value × Value) : Eval Value :=
    match combinator with
    | some combinator => applyCombinator run combinator pair.1 pair.2
    | none => return .array [pair.1, pair.2]
  return .array (← (lefts.zip rights).mapM pair)

end Terse.Eval
