/-!
# Operators

Operators are written in front of their operand, between two operands, or behind their operand.
Each has a spelling and a precedence; a higher one binds tighter.  A spelling may belong to a
leading and to a binary operator at once.
-/

namespace Terse

/-- Operators that are written in front of their operand. -/
inductive LeadingOp where
  | not
  | negate
  | reverse
  | floor
  | ceil
  | increment
  | decrement
  | square
  | sqrt
  | double
  | halve
  | sortAscending
  | sortDescending
  | palindrome
  | oneRange
  | filter
  | any
  | fold
deriving DecidableEq

namespace LeadingOp

def all : List LeadingOp :=
  [not, negate, reverse, floor, ceil, increment, decrement, square, sqrt, double, halve,
    sortAscending, sortDescending, palindrome, oneRange, filter, any, fold]

def spelling : LeadingOp → String
  | not => "!"
  | negate => "-"
  | reverse => "!!"
  | floor => ":v"
  | ceil => ":^"
  | increment => "++"
  | decrement => "--"
  | square => ":*"
  | sqrt => ":/"
  | double => ":+"
  | halve => ":-"
  | sortAscending => ":>"
  | sortDescending => ":<"
  | palindrome => "|:"
  | oneRange => "~"
  | filter => "$"
  | any => "$:"
  | fold => "\\"

def precedence : LeadingOp → Nat
  | oneRange => 5
  | filter | any | fold => 0
  | _ => 4

/-- The name of an operator in listings. -/
def label : LeadingOp → String
  | not => "Not"
  | negate => "Negate"
  | reverse => "Reverse"
  | floor => "Floor"
  | ceil => "Ceil"
  | increment => "Increment"
  | decrement => "Decrement"
  | square => "Square"
  | sqrt => "Sqrt"
  | double => "Double"
  | halve => "Halve"
  | sortAscending => "SortAscending"
  | sortDescending => "SortDescending"
  | palindrome => "Palindrome"
  | oneRange => "OneRange"
  | filter => "Filter"
  | any => "Any"
  | fold => "Fold"

def ofSpelling? (spelling : String) : Option LeadingOp :=
  all.find? (·.spelling == spelling)

theorem ofSpelling?_spelling (op : LeadingOp) : ofSpelling? op.spelling = some op := by
  cases op <;> decide

end LeadingOp

/-- Operators that are written between two operands. -/
inductive BinaryOp where
  | call
  | power
  | multiply
  | divide
  | modulo
  | join
  | split
  | add
  | subtract
  | range
  | closedRange
  | index
  | indexOf
  | concat
  | equal
  | notEqual
  | less
  | lessEqual
  | greater
  | greaterEqual
  | and
  | or
  | assign
  | zip
  | remove
  | contains
deriving DecidableEq

namespace BinaryOp

def all : List BinaryOp :=
  [call, power, multiply, divide, modulo, join, split, add, subtract, range, closedRange, index,
    indexOf, concat, equal, notEqual, less, lessEqual, greater, greaterEqual, and, or, assign,
    zip, remove, contains]

def spelling : BinaryOp → String
  | call => "."
  | power => "^"
  | multiply => "*"
  | divide => "/"
  | modulo => "%"
  | join => ":|"
  | split => ":!"
  | add => "+"
  | subtract => "-"
  | range => "->"
  | closedRange => "=>"
  | index => "?"
  | indexOf => ":i"
  | concat => "|"
  | equal => "="
  | notEqual => "!="
  | less => "<"
  | lessEqual => "<="
  | greater => ">"
  | greaterEqual => ">="
  | and => "&&"
  | or => "||"
  | assign => ":"
  | zip => "@"
  | remove => "@:"
  | contains => "&"

def precedence : BinaryOp → Nat
  | call => 11
  | power => 10
  | multiply | divide => 9
  | modulo => 8
  | join | split => 7
  | add | subtract => 6
  | range | closedRange => 5
  | index | indexOf => 4
  | concat => 3
  | equal | notEqual | less | lessEqual | greater | greaterEqual => 2
  | and | or => 1
  | assign | zip | remove | contains => 0

/-- Whether an operator joins the right operand of an operator of its own precedence.  The
others group to the left, so that `a - b - c` is `(a - b) - c`. -/
def chains : BinaryOp → Bool
  | equal | notEqual | less | lessEqual | greater | greaterEqual => false
  | add | subtract | contains => false
  | _ => true

/-- The name of an operator in listings. -/
def label : BinaryOp → String
  | call => "Call"
  | power => "Power"
  | multiply => "Multiply"
  | divide => "Divide"
  | modulo => "Modulo"
  | join => "Join"
  | split => "Split"
  | add => "Add"
  | subtract => "Subtract"
  | range => "Range"
  | closedRange => "ClosedRange"
  | index => "Index"
  | indexOf => "IndexOf"
  | concat => "Concat"
  | equal => "Equal"
  | notEqual => "NotEqual"
  | less => "Less"
  | lessEqual => "LessEqual"
  | greater => "Greater"
  | greaterEqual => "GreaterEqual"
  | and => "And"
  | or => "Or"
  | assign => "Assign"
  | zip => "Zip"
  | remove => "Remove"
  | contains => "Contains"

def ofSpelling? (spelling : String) : Option BinaryOp :=
  all.find? (·.spelling == spelling)

theorem ofSpelling?_spelling (op : BinaryOp) : ofSpelling? op.spelling = some op := by
  cases op <;> decide

end BinaryOp

/-- Operators that are written behind their operand. -/
inductive TrailingOp where
  | length
  | base
  | abs
  | lines
  | words
  | head
  | last
  | tail
  | init
  | group
  | isSquare
  | flatten
deriving DecidableEq

namespace TrailingOp

def all : List TrailingOp :=
  [length, base, abs, lines, words, head, last, tail, init, group, isSquare, flatten]

def spelling : TrailingOp → String
  | length => "#"
  | base => ";"
  | abs => ".|"
  | lines => ":n"
  | words => ":s"
  | head => ":\x7b"
  | last => ":\x7d"
  | tail => ".\x7b"
  | init => ".\x7d"
  | group => ":@"
  | isSquare => "^*"
  | flatten => ".."

def precedence : TrailingOp → Nat
  | length | base | abs => 5
  | _ => 4

/-- The name of an operator in listings. -/
def label : TrailingOp → String
  | length => "Length"
  | base => "Base"
  | abs => "Abs"
  | lines => "Lines"
  | words => "Words"
  | head => "Head"
  | last => "Last"
  | tail => "Tail"
  | init => "Init"
  | group => "Group"
  | isSquare => "IsSquare"
  | flatten => "Flatten"

/-- The second spelling of the base conversion. -/
def baseAlias : String := ":_"

def ofSpelling? (spelling : String) : Option TrailingOp :=
  if spelling = baseAlias then some base else all.find? (·.spelling == spelling)

theorem ofSpelling?_spelling (op : TrailingOp) : ofSpelling? op.spelling = some op := by
  cases op <;> decide

end TrailingOp

end Terse
