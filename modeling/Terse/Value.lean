import Terse.Bindings
import Terse.Decimal.Written
import Terse.Text.Split
import Terse.Tree
import Terse.Word

/-!
# Values

A value is a text, a number, an array of values, or a sequence, which produces its elements on
demand.  Truth values are the numbers 1 and 0.

A sequence consists of what it was made from: its first elements, its generator, its length and a
copy of the scope around it.  What it has produced since then is kept in a store, under its label.
The label tells where the sequence was made, so that two values are one sequence exactly if they
have one label.
-/

namespace Terse

/-- A function: the names of its parameters and its body. -/
structure Function where
  params : List String
  body : Node

/-- Where a sequence was made.  The sequences that the program itself makes are `[0]`, `[1]` and so
on; those made while element `i` of the sequence `label` is produced are `label ++ [i, 0]`,
`label ++ [i, 1]` and so on. -/
abbrev Label := List Nat

mutual

inductive Value where
  | text (text : String)
  | number (number : Decimal)
  | array (items : List Value)
  | sequence (sequence : Sequence)

/-- A list that produces its elements on demand.  The first elements are given; each further one
is the value of the generator in a copy of the scope that the sequence was made in.  Without a
length the sequence does not end. -/
structure Sequence where
  label : Label
  seeds : List Value
  generator : Block
  length : Option Nat
  scope : Scope

/-- Bindings of variables and functions, and the parameter that is read back from the history of
a sequence. -/
structure Scope where
  values : List (String × Value)
  functions : List (String × Function)
  recurrence : Option String

end

namespace Value

/-- The empty text, which stands for results that are absent. -/
def empty : Value := .text ""

instance : Inhabited Value := ⟨empty⟩

def ofBool (b : Bool) : Value := .number (.ofBool b)

/-- A count as a value; counts are words. -/
def ofNat (n : Nat) : Value := .number (.ofInt ↑(n % Word.count))

/-- Whether a value counts as true: numbers other than zero, texts and arrays that are not empty,
and all sequences. -/
def isTruthy : Value → Bool
  | text s => s ≠ ""
  | number n => !n.isZero
  | array items => !items.isEmpty
  | sequence _ => true

/-- Whether a value is a sequence without a length. -/
def isUnbounded : Value → Bool
  | sequence s => s.length.isNone
  | _ => false

/-- The number that a value is or spells. -/
def asNumber? : Value → Option Decimal
  | text s => Decimal.ofText? s
  | number n => some n
  | array _ | sequence _ => none

mutual

/-- Equality of values of one kind. -/
def same : Value → Value → Bool
  | text a, text b => a == b
  | number a, number b => a.equal b
  | array a, array b => sameAll a b
  | sequence a, sequence b => a.label == b.label
  | _, _ => false

def sameAll : List Value → List Value → Bool
  | [], [] => true
  | a :: as, b :: bs => same a b && sameAll as bs
  | _, _ => false

end

mutual

/-- Equality in which a number is also equal to the texts that spell it. -/
def looseEq : Value → Value → Bool
  | text a, text b => a == b
  | number a, number b => a.equal b
  | number n, text s => (Decimal.ofText? s).any (·.equal n)
  | text s, number n => (Decimal.ofText? s).any (·.equal n)
  | array a, array b => looseEqAll a b
  | sequence a, sequence b => a.label == b.label
  | _, _ => false

def looseEqAll : List Value → List Value → Bool
  | [], [] => true
  | a :: as, b :: bs => looseEq a b && looseEqAll as bs
  | _, _ => false

end

/-- The elements of a text: its words if it has a space, else its characters. -/
def elementsOfText (text : String) : List Value :=
  let parts :=
    if text.toList.contains ' ' then Text.cut " " text else Text.characters text
  parts.map .text

end Value

end Terse
