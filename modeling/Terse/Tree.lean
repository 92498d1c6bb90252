import Terse.Operator
import Terse.Token

/-!
# Syntax trees

A program is a list of items; its value is the value of the last one.  Every node carries the
place of the token that introduced it.  Some operators carry more than their operands: a fold its
map and its combinator, a filter its block, a zip its combinator, a base conversion its width and
codes.

Operands that are left out are the variable `_`.  A combinator reads its two operands through the
names `leftName` and `rightName`, which no source text can spell.
-/

namespace Terse

/-- The variable that stands for operands that are left out, for the input and for the element at
hand. -/
def implicitName : String := "_"

/-- The name of a combinator's left operand. -/
def leftName : String := "#left"

/-- The name of a combinator's right operand. -/
def rightName : String := "#right"

/-- A parameter in the head of a definition. -/
structure Param where
  name : String
  position : Position
deriving DecidableEq

/-- A step of a base conversion. -/
inductive BaseCode where
  /-- Write a number in a radix. -/
  | format (radix : Nat)
  /-- Read a text in a radix. -/
  | parse (radix : Nat)
  /-- Make a number of the value. -/
  | decimal
deriving DecidableEq

/-- The step that a letter of a base directive stands for. -/
def BaseCode.ofChar? : Char → Option BaseCode
  | 'b' => some (.format 2)
  | 'o' => some (.format 8)
  | 'h' => some (.format 16)
  | 'B' => some (.parse 2)
  | 'O' => some (.parse 8)
  | 'H' => some (.parse 16)
  | 'd' => some .decimal
  | _ => none

/-- What a builtin function does that the language cannot express. -/
inductive Hook where
  /-- Write the argument to the output. -/
  | print
  /-- Return the input. -/
  | input
  /-- Return the first elements of a collection. -/
  | take
deriving DecidableEq

mutual

/-- A node of a syntax tree. -/
inductive Node where
  | text (text : String) (quote : Quote) (position : Position)
  | numeral (text : String) (position : Position)
  | var (name : String) (position : Position)
  | call (name : String) (args : List Node) (position : Position)
  | define (name : String) (params : List Param) (body : Node) (position : Position)
  | group (body : Program) (position : Position)
  | block (block : Block)
  | array (body : Program) (position : Position)
  | leading (op : LeadingOp) (arg : Node) (extra : Extra) (position : Position)
  | binary (op : BinaryOp) (left right : Node) (extra : Extra) (position : Position)
  | trailing (op : TrailingOp) (arg : Node) (extra : Extra) (position : Position)
  | hook (hook : Hook) (position : Position)

/-- A list of items with the place of the first one. -/
structure Program where
  items : List Node
  position : Position

/-- A body with one parameter. -/
structure Block where
  param : String
  body : Program
  position : Position

/-- An expression in the two operands of a fold or zip. -/
structure Combinator where
  expr : Node
  position : Position

/-- What an operator carries besides its operands. -/
inductive Extra where
  | none
  | fold (map : Option Block) (combinator : Option Combinator)
  | filter (block : Block)
  | zip (combinator : Combinator)
  | base (width : Nat) (codes : List BaseCode)

end

instance : Inhabited Node := ⟨.var implicitName .start⟩

instance : Inhabited Program := ⟨⟨[], .start⟩⟩

instance : Inhabited Block := ⟨⟨implicitName, default, .start⟩⟩

instance : Inhabited Combinator := ⟨⟨default, .start⟩⟩

instance : Inhabited Extra := ⟨.none⟩

namespace Node

/-- The operand that is left out at a place. -/
def implicit (position : Position) : Node := .var implicitName position

/-- The place of a node. -/
def position : Node → Position
  | .text _ _ position | .numeral _ position | .var _ position | .call _ _ position
  | .define _ _ _ position | .group _ position | .block ⟨_, _, position⟩ | .array _ position
  | .leading _ _ _ position | .binary _ _ _ _ position | .trailing _ _ _ position
  | .hook _ position => position

/-- Whether a node is the variable `_`. -/
def isImplicit : Node → Bool
  | .var name _ => name == implicitName
  | _ => false

def isBlock : Node → Bool
  | .block _ => true
  | _ => false

/-- Whether a node may be a left operand.  Blocks and definitions are complete items; an operator
behind them starts a new item. -/
def canBeLeft : Node → Bool
  | .block _ | .define .. => false
  | _ => true

/-- Whether a node ends in an operand of an operator that binds less tightly than `precedence`,
so that taking it as a left operand would group that operand anew. -/
def endsLooser (precedence : Nat) : Node → Bool
  | .leading op _ _ _ => op.precedence < precedence
  | .binary op _ _ _ _ => op.precedence < precedence
  | _ => false

end Node

/-- The first block among the items of a program. -/
def Program.block? (program : Program) : Option Block :=
  program.items.findSome? fun
    | .block block => some block
    | _ => none

end Terse
