import Terse.Tree

/-!
# Listings of syntax trees

An outline is a tree of labelled entries; `Outline.lines` writes it with one entry a line, each
level four spaces deeper than the one around it and each entry followed by a comma.  A program is
listed as the outline of its nodes.
-/

namespace Terse

/-- A tree of entries. -/
inductive Outline where
  | leaf (text : String)
  | branch (opening closing : String) (entries : List Outline)
  | labelled (label : String) (entry : Outline)

namespace Outline

/-- Puts a text in front of the first line. -/
def prepend (text : String) : List String → List String
  | [] => [text]
  | line :: rest => (text ++ line) :: rest

/-- Puts a text behind the last line. -/
def append (text : String) : List String → List String
  | [] => [text]
  | [line] => [line ++ text]
  | line :: rest => line :: append text rest

/-- The lines of an entry inside a branch. -/
def nested (lines : List String) : List String :=
  (append "," lines).map ("    " ++ ·)

mutual

/-- The lines of an outline. -/
def lines : Outline → List String
  | leaf text => [text]
  | labelled label entry => prepend (label ++ ": ") (lines entry)
  | branch opening closing [] => [opening ++ closing]
  | branch opening closing (entry :: rest) =>
    opening :: (nested (lines entry) ++ linesOfAll rest) ++ [closing]

/-- The lines of the entries of a branch. -/
def linesOfAll : List Outline → List String
  | [] => []
  | entry :: rest => nested (lines entry) ++ linesOfAll rest

end

/-- A value with named fields. -/
def record (name : String) (fields : List (String × Outline)) : Outline :=
  branch (name ++ " \x7b") "\x7d" (fields.map fun (label, field) => labelled label field)

/-- A name applied to one value. -/
def wrapped (name : String) (entry : Outline) : Outline :=
  branch (name ++ "(") ")" [entry]

def list (entries : List Outline) : Outline :=
  branch "[" "]" entries

def ofText (text : String) : Outline := leaf (Text.quoted text)

def ofNat (n : Nat) : Outline := leaf (toString n)

def ofPosition (position : Position) : Outline :=
  record "Span" [("line", ofNat position.line), ("column", ofNat position.column)]

/-- The text of an outline. -/
def render (outline : Outline) : String :=
  String.intercalate "\n" (lines outline)

end Outline

open Outline

def Quote.outline (quote : Quote) : Outline := leaf quote.label

def Param.outline (param : Param) : Outline :=
  record "Identifier" [("name", ofText param.name), ("span", ofPosition param.position)]

def BaseCode.outline : BaseCode → Outline
  | format radix => wrapped "Format" (ofNat radix)
  | parse radix => wrapped "Parse" (ofNat radix)
  | decimal => leaf "Decimal"

def Hook.outline : Hook → Outline
  | print => leaf "Print"
  | input => leaf "Input"
  | take => leaf "Take"

mutual

def Node.outline : Node → Outline
  | .text text quote position =>
    record "StringLiteral"
      [("text", ofText text), ("quote", quote.outline), ("span", ofPosition position)]
  | .numeral text position =>
    record "IntegerLiteral" [("text", ofText text), ("span", ofPosition position)]
  | .var name position =>
    record "Variable" [("name", ofText name), ("span", ofPosition position)]
  | .call name args position =>
    record "Call"
      [("name", ofText name), ("args", list (outlineOfAll args)), ("span", ofPosition position)]
  | .define name params body position =>
    record "FunctionDef"
      [("name", ofText name), ("params", list (params.map Param.outline)),
        ("body", body.outline), ("span", ofPosition position)]
  | .group body position =>
    record "Expression" [("inner", body.outline), ("span", ofPosition position)]
  | .block block => wrapped "Block" block.outline
  | .array body position =>
    record "Array" [("body", body.outline), ("span", ofPosition position)]
  | .leading op arg extra position =>
    record "Prefix"
      [("op", leaf op.label), ("arg", arg.outline), ("extra", extra.outline),
        ("span", ofPosition position)]
  | .binary op left right extra position =>
    record "Infix"
      [("op", leaf op.label), ("left", left.outline), ("right", right.outline),
        ("extra", extra.outline), ("span", ofPosition position)]
  | .trailing op arg extra position =>
    record "Suffix"
      [("op", leaf op.label), ("arg", arg.outline), ("extra", extra.outline),
        ("span", ofPosition position)]
  | .hook hook position =>
    record "NativeHook" [("hook", hook.outline), ("span", ofPosition position)]

def outlineOfAll : List Node → List Outline
  | [] => []
  | node :: rest => node.outline :: outlineOfAll rest

def Program.outline : Program → Outline
  | ⟨items, position⟩ =>
    record "Program" [("items", list (outlineOfAll items)), ("span", ofPosition position)]

def Block.outline : Block → Outline
  | ⟨param, body, position⟩ =>
    record "Block"
      [("param", ofText param), ("body", body.outline), ("span", ofPosition position)]

def Combinator.outline : Combinator → Outline
  | ⟨expr, position⟩ =>
    record "Template" [("expr", expr.outline), ("span", ofPosition position)]

def outlineOfMap : Option Block → Outline
  | none => leaf "None"
  | some block => wrapped "Some" block.outline

def outlineOfCombinator : Option Combinator → Outline
  | none => leaf "None"
  | some combinator => wrapped "Some" combinator.outline

def Extra.outline : Extra → Outline
  | .none => leaf "None"
  | .fold map combinator =>
    record "Fold"
      [("map", outlineOfMap map), ("combinator", outlineOfCombinator combinator)]
  | .filter block => wrapped "Filter" block.outline
  | .zip combinator => wrapped "Zip" combinator.outline
  | .base width codes =>
    record "Base" [("width", ofNat width), ("codes", list (codes.map BaseCode.outline))]

end

/-- The listing of a program. -/
def Program.listing (program : Program) : String :=
  program.outline.render

end Terse
