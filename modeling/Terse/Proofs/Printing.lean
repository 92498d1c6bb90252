import Terse.Bindings
import Terse.Digits
import Terse.Grammar.Basic
import Terse.Proofs.Grouping
import Terse.Word

/-!
# Printing trees

Fully bracketed trees have atoms as operands: literals, variables, groups and arrays.  `Node.print`
gives the tokens of such a tree without their places, with a comma between the items of a program.
What may differ between a tree and the tree that is read from its tokens is where things stand;
`Node.unplaced` forgets this.

* `Node.Bracketed` says which trees these are, at each of two ranks: as an operand, or as an item.
  For any other tree `Node.print` need not give tokens that are read as the tree.
* `Rank.opens` says which tokens a tree of some rank may start with.  This is all that a reader
  knows of the tree behind an operator or a comma, so it is what decides where the operand in front
  ends (`Node.Bracketed.opens`).

Both trees and tokens are compared without places: `Token.form` is what is left of a token, and
tokens with given forms are taken apart by `exists_of_map_form` and its variants.

That printed trees are read back is shown in `Terse.Proofs.RoundTrip`.
-/

namespace Terse

/-! ## Places -/

mutual

/-- A tree without its places. -/
def Node.unplaced : Node → Node
  | .text text quote _ => .text text quote .start
  | .numeral text _ => .numeral text .start
  | .var name _ => .var name .start
  | .call name args _ => .call name (unplacedAll args) .start
  | .define name params body _ =>
    .define name (params.map fun param => ⟨param.name, .start⟩) body.unplaced .start
  | .group body _ => .group body.unplaced .start
  | .block block => .block block.unplaced
  | .array body _ => .array body.unplaced .start
  | .leading op arg extra _ => .leading op arg.unplaced extra.unplaced .start
  | .binary op left right extra _ =>
    .binary op left.unplaced right.unplaced extra.unplaced .start
  | .trailing op arg extra _ => .trailing op arg.unplaced extra.unplaced .start
  | .hook hook _ => .hook hook .start

def unplacedAll : List Node → List Node
  | [] => []
  | node :: rest => node.unplaced :: unplacedAll rest

def Program.unplaced : Program → Program
  | ⟨items, _⟩ => ⟨unplacedAll items, .start⟩

def Block.unplaced : Block → Block
  | ⟨param, body, _⟩ => ⟨param, body.unplaced, .start⟩

def Combinator.unplaced : Combinator → Combinator
  | ⟨expr, _⟩ => ⟨expr.unplaced, .start⟩

def unplacedMap : Option Block → Option Block
  | none => none
  | some block => some block.unplaced

def unplacedCombinator : Option Combinator → Option Combinator
  | none => none
  | some combinator => some combinator.unplaced

def Extra.unplaced : Extra → Extra
  | .none => .none
  | .fold map combinator => .fold (unplacedMap map) (unplacedCombinator combinator)
  | .filter block => .filter block.unplaced
  | .zip combinator => .zip combinator.unplaced
  | .base width codes => .base width codes

end

section Unplaced

variable (position : Position)

@[simp] theorem Node.unplaced_var (name : String) :
    (Node.var name position).unplaced = .var name .start := rfl

@[simp] theorem Node.unplaced_group (body : Program) :
    (Node.group body position).unplaced = .group body.unplaced .start := rfl

@[simp] theorem Node.unplaced_block (b : Block) :
    (Node.block b).unplaced = .block b.unplaced := rfl

@[simp] theorem Node.unplaced_array (body : Program) :
    (Node.array body position).unplaced = .array body.unplaced .start := rfl

@[simp] theorem Node.unplaced_leading (op : LeadingOp) (arg : Node) (extra : Extra) :
    (Node.leading op arg extra position).unplaced =
      .leading op arg.unplaced extra.unplaced .start := rfl

@[simp] theorem Node.unplaced_binary (op : BinaryOp) (left right : Node) (extra : Extra) :
    (Node.binary op left right extra position).unplaced =
      .binary op left.unplaced right.unplaced extra.unplaced .start := rfl

@[simp] theorem Node.unplaced_trailing (op : TrailingOp) (arg : Node) (extra : Extra) :
    (Node.trailing op arg extra position).unplaced =
      .trailing op arg.unplaced extra.unplaced .start := rfl

@[simp] theorem Extra.unplaced_filter (b : Block) :
    (Extra.filter b).unplaced = .filter b.unplaced := rfl

@[simp] theorem Extra.unplaced_zip (c : Combinator) :
    (Extra.zip c).unplaced = .zip c.unplaced := rfl

@[simp] theorem Combinator.unplaced_mk (expr : Node) :
    (⟨expr, position⟩ : Combinator).unplaced = ⟨expr.unplaced, .start⟩ := rfl

end Unplaced

theorem unplacedAll_eq_map (nodes : List Node) : unplacedAll nodes = nodes.map Node.unplaced := by
  induction nodes with
  | nil => rfl
  | cons node rest ih => exact congrArg (node.unplaced :: ·) ih

theorem isBlock_unplaced (node : Node) : node.unplaced.isBlock = node.isBlock := by
  cases node <;> rfl

theorem countP_isBlock_of_unplaced {nodes nodes' : List Node}
    (h : nodes'.map Node.unplaced = nodes.map Node.unplaced) :
    nodes'.countP Node.isBlock = nodes.countP Node.isBlock := by
  have hcount : ∀ nodes : List Node,
      (nodes.map Node.unplaced).countP Node.isBlock = nodes.countP Node.isBlock := by
    intro nodes
    simp only [List.countP_map, Function.comp_def, isBlock_unplaced]
  rw [← hcount, h, hcount]

theorem Program.unplaced_eq {body : Program} {nodes : List Node} (position : Position)
    (h : nodes.map Node.unplaced = body.items.map Node.unplaced) :
    (⟨nodes, position⟩ : Program).unplaced = body.unplaced := by
  obtain ⟨items, _⟩ := body
  change Program.mk (unplacedAll nodes) .start = ⟨unplacedAll items, .start⟩
  rw [unplacedAll_eq_map, unplacedAll_eq_map, h]

theorem Block.unplaced_eq {b : Block} {nodes : List Node} (bodyPosition position : Position)
    (h : nodes.map Node.unplaced = b.body.items.map Node.unplaced) :
    (⟨b.param, ⟨nodes, bodyPosition⟩, position⟩ : Block).unplaced = b.unplaced := by
  obtain ⟨param, body, _⟩ := b
  exact congrArg (Block.mk param · .start) (Program.unplaced_eq bodyPosition h)

/-! ## Tokens of trees -/

/-- What a token is and how it is spelled. -/
abbrev Lexeme.Form := Token.Kind × String

/-- A token without its place. -/
def Token.form (token : Token) : Lexeme.Form := (token.kind, token.text)

/-- The letter of a step of a base conversion. -/
def BaseCode.letter : BaseCode → Char
  | format 2 => 'b'
  | format 8 => 'o'
  | format _ => 'h'
  | parse 2 => 'B'
  | parse 8 => 'O'
  | parse _ => 'H'
  | decimal => 'd'

/-- Every step that a letter stands for is written with that letter. -/
theorem BaseCode.letter_of_ofChar? {c : Char} {code : BaseCode}
    (h : BaseCode.ofChar? c = some code) : code.letter = c := by
  unfold BaseCode.ofChar? at h
  split at h <;> cases h <;> rfl

mutual

/-- The tokens of a fully bracketed tree, without their places. -/
def Node.print : Node → List Lexeme.Form
  | .text text quote _ => [(.text quote, text)]
  | .numeral text _ => [(.numeral, text)]
  | .var name _ => [(.name, name)]
  | .group body _ => (.symbol, "(") :: (body.print ++ [(.symbol, ")")])
  | .block block => block.print
  | .array body _ => (.symbol, "[") :: (body.print ++ [(.symbol, "]")])
  | .leading op arg extra _ => (.symbol, op.spelling) :: (extra.print ++ arg.print)
  | .binary op left right extra _ =>
    left.print ++ (.symbol, op.spelling) :: (extra.print ++ right.print)
  | .trailing op arg extra _ => arg.print ++ (.symbol, op.spelling) :: extra.print
  | .call .. | .define .. | .hook .. => []

/-- Items behind another one, each with a comma in front of it. -/
def printMore : List Node → List Lexeme.Form
  | [] => []
  | node :: rest => (.symbol, ",") :: (node.print ++ printMore rest)

def Program.print : Program → List Lexeme.Form
  | ⟨[], _⟩ => []
  | ⟨node :: rest, _⟩ => node.print ++ printMore rest

/-- A block has its parameter in front of it, unless that is `_`. -/
def Block.print : Block → List Lexeme.Form
  | ⟨param, body, _⟩ =>
    (if param = implicitName then [] else [(.name, param)]) ++
      (.symbol, "\x7b") :: (body.print ++ [(.symbol, "\x7d")])

/-- A combinator is written as its operator. -/
def Combinator.print : Combinator → List Lexeme.Form
  | ⟨.binary op _ _ _ _, _⟩ => [(.symbol, op.spelling)]
  | _ => []

def Extra.print : Extra → List Lexeme.Form
  | .filter block => block.print
  | .zip combinator => combinator.print
  | .base width codes =>
    [(.numeral, String.ofList (Digits.chars 10 width)),
      (.name, String.ofList (codes.map BaseCode.letter))]
  | .none | .fold .. => []

end

/-! ## Fully bracketed trees -/

/-- Where a fully bracketed tree may stand. -/
inductive Rank where
  /-- As an operand. -/
  | atom
  /-- As an item. -/
  | item

/-- A fully bracketed tree: all operands are atoms, variables are not names of functions, and
operators carry only what can be written with them. -/
inductive Node.Bracketed (calls : CallTable) : Rank → Node → Prop where
  | text (text : String) (quote : Quote) (position : Position) :
      Bracketed calls .atom (.text text quote position)
  | numeral (text : String) (position : Position) : Bracketed calls .atom (.numeral text position)
  | var {name : String} (position : Position) (hname : calls.find? name = none) :
      Bracketed calls .atom (.var name position)
  | group {body : Program} (position : Position)
      (hbody : ∀ n ∈ body.items, Bracketed calls .item n) :
      Bracketed calls .atom (.group body position)
  | array {body : Program} (position : Position)
      (hbody : ∀ n ∈ body.items, Bracketed calls .item n)
      (hblocks : body.items.countP Node.isBlock ≤ 1) : Bracketed calls .atom (.array body position)
  | atom {n : Node} (h : Bracketed calls .atom n) : Bracketed calls .item n
  | block {b : Block} (hbody : ∀ n ∈ b.body.items, Bracketed calls .item n) :
      Bracketed calls .item (.block b)
  | leading {op : LeadingOp} {arg : Node} (position : Position) (hop : op.plain = true)
      (harg : Bracketed calls .atom arg) : Bracketed calls .item (.leading op arg .none position)
  | filter {op : LeadingOp} {arg : Node} {b : Block} (position : Position)
      (hop : op = .filter ∨ op = .any) (hbody : ∀ n ∈ b.body.items, Bracketed calls .item n)
      (harg : Bracketed calls .atom arg) :
      Bracketed calls .item (.leading op arg (.filter b) position)
  | binary {op : BinaryOp} {left right : Node} (position : Position) (hop : op ≠ .call)
      (hleft : Bracketed calls .atom left) (hright : Bracketed calls .atom right) :
      Bracketed calls .item (.binary op left right .none position)
  | zipWith {op : BinaryOp} {left right : Node}
      (position leftPosition rightPosition opPosition combinatorPosition : Position)
      (hop : op ≠ .call) (hleft : Bracketed calls .atom left)
      (hright : Bracketed calls .atom right) :
      Bracketed calls .item (.binary .zip left right (.zip
        ⟨.binary op (.var leftName leftPosition) (.var rightName rightPosition) .none opPosition,
          combinatorPosition⟩) position)
  | trailing {op : TrailingOp} {arg : Node} (position : Position) (hop : op.plain = true)
      (harg : Bracketed calls .atom arg) : Bracketed calls .item (.trailing op arg .none position)
  | base {arg : Node} {width : Nat} {codes : List BaseCode} (position : Position)
      (hwidth : Word.holds width = true) (hcodes : codes ≠ [])
      (hletters : ∀ code ∈ codes, ∃ c, BaseCode.ofChar? c = some code)
      (harg : Bracketed calls .atom arg) :
      Bracketed calls .item (.trailing .base arg (.base width codes) position)

/-! ## Tokens that tell where a tree starts and ends -/

theorem exists_of_map_form {tokens : List Token} {kind : Token.Kind} {text : String}
    {more : List Lexeme.Form} (h : tokens.map Token.form = (kind, text) :: more) :
    ∃ position rest, tokens = ⟨kind, text, position⟩ :: rest ∧ rest.map Token.form = more := by
  obtain ⟨token, rest, rfl, hform, hrest⟩ := List.map_eq_cons_iff.1 h
  obtain ⟨kind', text', position⟩ := token
  obtain ⟨rfl, rfl⟩ := Prod.mk.inj hform
  exact ⟨position, rest, rfl, hrest⟩

theorem exists_of_map_single {tokens : List Token} {kind : Token.Kind} {text : String}
    (h : tokens.map Token.form = [(kind, text)]) :
    ∃ position, tokens = [⟨kind, text, position⟩] := by
  obtain ⟨position, rest, rfl, hrest⟩ := exists_of_map_form h
  exact ⟨position, congrArg _ (List.map_eq_nil_iff.1 hrest)⟩

/-- The tokens of a block: the name of its parameter if there is one, a brace, and its items. -/
theorem exists_of_map_block {b : Block} {tokens : List Token}
    (h : tokens.map Token.form = b.print) :
    ∃ naming brace inner, tokens = naming ++ ⟨.symbol, "\x7b", brace⟩ :: inner ∧
      (naming = [] ∧ b.param = implicitName ∨
        ∃ position, naming = [⟨.name, b.param, position⟩]) ∧
      inner.map Token.form = b.body.print ++ [(.symbol, "\x7d")] := by
  obtain ⟨param, body, position⟩ := b
  obtain ⟨naming, others, rfl, hnaming, hothers⟩ := List.map_eq_append_iff.1 h
  obtain ⟨brace, inner, rfl, hinner⟩ := exists_of_map_form hothers
  refine ⟨naming, brace, inner, rfl, ?_, hinner⟩
  split at hnaming
  · exact .inl ⟨List.map_eq_nil_iff.1 hnaming, ‹_›⟩
  · exact .inr (exists_of_map_single hnaming)

/-- How a fully bracketed tree may start. -/
def Rank.opens : Rank → Lexeme.Form → Bool
  | _, (.text _, _) | _, (.numeral, _) | _, (.name, _) => true
  | .atom, (.symbol, text) => text == "(" || text == "["
  | .item, (.symbol, text) => text == "(" || text == "[" || text == "\x7b" ||
      (LeadingOp.ofSpelling? text).any (· != .fold)

theorem Block.opens_print (b : Block) :
    ∃ form more, b.print = form :: more ∧ Rank.item.opens form = true := by
  obtain ⟨param, body, position⟩ := b
  unfold Block.print
  split
  · exact ⟨_, _, rfl, rfl⟩
  · exact ⟨_, _, rfl, rfl⟩

theorem Rank.opens_item {form : Lexeme.Form} (h : Rank.atom.opens form = true) :
    Rank.item.opens form = true := by
  obtain ⟨kind, text⟩ := form
  cases kind with
  | symbol =>
      simp only [Rank.opens, Bool.or_eq_true] at h ⊢
      exact .inl (.inl h)
  | _ => rfl

theorem Node.Bracketed.opens {calls : CallTable} {rank : Rank} {n : Node}
    (h : n.Bracketed calls rank) :
    ∃ form more, n.print = form :: more ∧ rank.opens form = true := by
  induction h with
  | text | numeral | var | group | array => exact ⟨_, _, rfl, rfl⟩
  | atom _ ih =>
      obtain ⟨form, more, hprint, hopens⟩ := ih
      exact ⟨form, more, hprint, Rank.opens_item hopens⟩
  | @block b _ => exact b.opens_print
  | @leading op _ _ hop _ =>
      have hfold : op ≠ .fold := by
        rintro rfl
        cases hop
      exact ⟨_, _, rfl, by simp [Rank.opens, LeadingOp.ofSpelling?_spelling, hfold]⟩
  | filter _ hop _ _ =>
      refine ⟨_, _, rfl, ?_⟩
      rcases hop with rfl | rfl <;> decide
  -- An operator behind its left operand starts with that operand.
  | binary _ _ _ _ ih _ | zipWith _ _ _ _ _ _ _ _ ih _ | trailing _ _ _ ih
  | base _ _ _ _ _ ih =>
      obtain ⟨form, more, hprint, hopens⟩ := ih
      rw [Node.print, hprint, List.cons_append]
      exact ⟨form, _, rfl, Rank.opens_item hopens⟩

end Terse
