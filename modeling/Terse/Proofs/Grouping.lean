import Terse.Grammar.Basic

/-!
# Grouped trees

A flat expression is a list of operands with operators in front of them, between them and behind
them, and without brackets, calls, blocks and the like.  Many trees have the same tokens from left
to right; `Node.Grouped` says which of them groups the operators by their precedence:

* what an operator in front of a right operand has to its right binds tighter than it, and
* what an operator has to its left is not open to it.

Here it is shown that every flat expression has a grouped tree.  The tree is built from left to
right: a new operator goes down the right side of the tree, below the last operator that it binds
tighter than.

```text
  1 + 2 * 3, and then ^ 4        +                  +
                                / \                / \
                               1   *              1   *
                                  / \                / \
                                 2   3              2   ^
                                                       / \
                                                      3   4
```

## Strategy

Whether a tree is grouped depends on the operators on the left side of each right operand and on the
right side of each left operand (`Node.leftSpine` and `Node.rightSpine`).  `Grafted` says what a new
operator does to these sides, by induction on the tree that it is added to (`exists_grafted`).  It
is the same for a trailing operator and for a binary one with its right operand (`Follows`).

Behind a binary operator comes another operand with operators in front of it, which is a tree with
nothing on its left side.  So the induction over the tokens says two things, depending on what is
expected next (`Continuable`).
-/

namespace Terse

/-! ## Operators and tokens -/

/-- An operator behind a left operand, as far as grouping is concerned. -/
structure Follower where
  precedence : Nat
  chains : Bool

/-- An operator binds tighter than an operator of precedence `m` before it, or as tight and
chains. -/
def Follower.Binds (o : Follower) (m : Nat) : Prop :=
  m < o.precedence ∨ o.precedence = m ∧ o.chains = true

namespace LeadingOp

/-- An operator with nothing but its operand. -/
def plain : LeadingOp → Bool
  | filter | any | fold => false
  | _ => true

def token (op : LeadingOp) (position : Position) : Token := ⟨.symbol, op.spelling, position⟩

end LeadingOp

namespace BinaryOp

/-- An operator with nothing but its two operands. -/
def plain : BinaryOp → Bool
  | call | zip => false
  | _ => true

def token (op : BinaryOp) (position : Position) : Token := ⟨.symbol, op.spelling, position⟩

def follower (op : BinaryOp) : Follower := ⟨op.precedence, op.chains⟩

end BinaryOp

namespace TrailingOp

/-- An operator with nothing but its operand. -/
def plain : TrailingOp → Bool
  | base => false
  | _ => true

def token (op : TrailingOp) (position : Position) : Token := ⟨.symbol, op.spelling, position⟩

/-- Trailing operators of the same precedence chain. -/
def follower (op : TrailingOp) : Follower := ⟨op.precedence, true⟩

end TrailingOp

/-- A literal, or a name that is not the name of a function. -/
def Token.IsOperand (calls : CallTable) (token : Token) : Prop :=
  match token.kind with
  | .text _ | .numeral => True
  | .name => calls.find? token.text = none
  | .symbol => False

/-- What comes next in a flat expression. -/
inductive Expected where
  | operand
  | operator

/-- The tokens of a flat expression, from the start or from behind an operand on. -/
inductive Flat (calls : CallTable) : Expected → List Token → Prop where
  | leading {op : LeadingOp} {position : Position} {rest : List Token} (hop : op.plain = true)
      (hrest : Flat calls .operand rest) : Flat calls .operand (op.token position :: rest)
  | operand {token : Token} {rest : List Token} (htoken : token.IsOperand calls)
      (hrest : Flat calls .operator rest) : Flat calls .operand (token :: rest)
  | done : Flat calls .operator []
  | trailing {op : TrailingOp} {position : Position} {rest : List Token} (hop : op.plain = true)
      (hrest : Flat calls .operator rest) : Flat calls .operator (op.token position :: rest)
  | binary {op : BinaryOp} {position : Position} {rest : List Token} (hop : op.plain = true)
      (hrest : Flat calls .operand rest) : Flat calls .operator (op.token position :: rest)

/-! ## Trees -/

namespace Node

/-- A tree of literals, variables and operators. -/
inductive IsOperation : Node → Prop where
  | text (text : String) (quote : Quote) (position : Position) :
      IsOperation (.text text quote position)
  | numeral (text : String) (position : Position) : IsOperation (.numeral text position)
  | var (name : String) (position : Position) : IsOperation (.var name position)
  | leading (op : LeadingOp) (position : Position) {arg : Node} (harg : IsOperation arg) :
      IsOperation (.leading op arg .none position)
  | binary (op : BinaryOp) (position : Position) {left right : Node} (hleft : IsOperation left)
      (hright : IsOperation right) : IsOperation (.binary op left right .none position)
  | trailing (op : TrailingOp) (position : Position) {arg : Node} (harg : IsOperation arg) :
      IsOperation (.trailing op arg .none position)

/-- The tokens of a tree of operators from left to right. -/
def inOrder : Node → List Token
  | .text s quote position => [⟨.text quote, s, position⟩]
  | .numeral s position => [⟨.numeral, s, position⟩]
  | .var name position => [⟨.name, name, position⟩]
  | .leading op arg _ position => op.token position :: inOrder arg
  | .binary op left right _ position => inOrder left ++ op.token position :: inOrder right
  | .trailing op arg _ position => inOrder arg ++ [op.token position]
  | _ => []

/-- The operators on the left side of a tree that have a left operand, from the root down. -/
def leftSpine : Node → List Follower
  | .binary op left _ _ _ => op.follower :: leftSpine left
  | .trailing op arg _ _ => op.follower :: leftSpine arg
  | _ => []

/-- The precedences of the operators on the right side of a tree that have a right operand, from
the root down. -/
def rightSpine : Node → List Nat
  | .leading op arg _ _ => op.precedence :: rightSpine arg
  | .binary op _ right _ _ => op.precedence :: rightSpine right
  | _ => []

/-- The operators of a tree are grouped by precedence. -/
def Grouped : Node → Prop
  | .leading op arg _ _ => Grouped arg ∧ ∀ o ∈ arg.leftSpine, o.Binds op.precedence
  | .binary op left right _ _ =>
    Grouped left ∧ Grouped right ∧ (∀ o ∈ right.leftSpine, o.Binds op.precedence) ∧
      ∀ m ∈ left.rightSpine, ¬ op.follower.Binds m
  | .trailing op arg _ _ => Grouped arg ∧ ∀ m ∈ arg.rightSpine, ¬ op.follower.Binds m
  | _ => True

/-- A tree of operators has at least one token more than operators on its left side. -/
theorem IsOperation.length_leftSpine_lt {t : Node} (h : t.IsOperation) :
    t.leftSpine.length < t.inOrder.length := by
  induction h with
  | text | numeral | var => simp [leftSpine, inOrder]
  | leading op position _ ih => simp [leftSpine, inOrder]
  | binary op position _ _ ihleft ihright =>
      simp only [leftSpine, inOrder, List.length_cons, List.length_append]
      omega
  | trailing op position _ ih =>
      simp only [leftSpine, inOrder, List.length_cons, List.length_append, List.length_nil]
      omega

end Node

/-! ## Adding an operator -/

/-- Putting an operator behind a tree: a trailing operator, or a binary one with its right
operand.  `tail` is what it adds to the tokens. -/
structure Follows (o : Follower) (tail : List Token) (wrap : Node → Node) : Prop where
  operation : ∀ {t : Node}, t.IsOperation → (wrap t).IsOperation
  inOrder : ∀ t : Node, (wrap t).inOrder = t.inOrder ++ tail
  leftSpine : ∀ t : Node, (wrap t).leftSpine = o :: t.leftSpine
  grouped : ∀ {t : Node}, t.Grouped → (∀ m ∈ t.rightSpine, ¬ o.Binds m) → (wrap t).Grouped

theorem follows_trailing (op : TrailingOp) (position : Position) :
    Follows op.follower [op.token position] fun t => .trailing op t .none position where
  operation ht := .trailing op position ht
  inOrder _ := rfl
  leftSpine _ := rfl
  grouped ht hspine := ⟨ht, hspine⟩

/-- The right operand of a binary operator may be any grouped tree that has no operators on its
left side. -/
theorem follows_binary (op : BinaryOp) (position : Position) {right : Node}
    (hright : right.IsOperation) (hgrouped : right.Grouped) (hspine : right.leftSpine = []) :
    Follows op.follower (op.token position :: right.inOrder)
      fun t => .binary op t right .none position where
  operation ht := .binary op position ht hright
  inOrder _ := rfl
  leftSpine _ := rfl
  grouped ht hleft := ⟨ht, hgrouped, fun o ho => by simp [hspine] at ho, hleft⟩

/-- A tree with an operator added.  The operator stands at the root, if it binds tighter than no
operator on the right side of the tree; otherwise it stands below the last such operator, and the
left side stays as it was. -/
structure Grafted (o : Follower) (tail : List Token) (t t' : Node) : Prop where
  operation : t'.IsOperation
  grouped : t'.Grouped
  inOrder : t'.inOrder = t.inOrder ++ tail
  leftSpine : (∀ m ∈ t.rightSpine, ¬ o.Binds m) ∧ t'.leftSpine = o :: t.leftSpine ∨
    (∃ m ∈ t.rightSpine, o.Binds m) ∧ t'.leftSpine = t.leftSpine

/-- Where an operator was added to the right operand of an operator of precedence `m`, because it
binds tighter than that operator or one further down, everything there still binds tighter. -/
theorem Grafted.binds {o : Follower} {tail : List Token} {t t' : Node} (h : Grafted o tail t t')
    {m : Nat} (hbinds : ∃ k ∈ m :: t.rightSpine, o.Binds k)
    (hspine : ∀ o' ∈ t.leftSpine, o'.Binds m) : ∀ o' ∈ t'.leftSpine, o'.Binds m := by
  -- If the operator came to stand at the root, it binds tighter than no operator below, so it is
  -- `m`.
  rcases h.leftSpine with ⟨hnone, hroot⟩ | ⟨-, hsame⟩
  · have hm : o.Binds m := by
      obtain ⟨k, hk, hko⟩ := hbinds
      rcases List.mem_cons.1 hk with rfl | hk
      · exact hko
      · exact absurd hko (hnone k hk)
    rw [hroot]
    exact List.forall_mem_cons.2 ⟨hm, hspine⟩
  · rwa [hsame]

/-- An operator can be added to every grouped tree. -/
theorem exists_grafted {o : Follower} {tail : List Token} {wrap : Node → Node}
    (hwrap : Follows o tail wrap) {t : Node} (ht : t.IsOperation) (hgrouped : t.Grouped) :
    ∃ t', Grafted o tail t t' := by
  -- At each tree the operator either goes to the root or further down on the right side.
  have hroot : ∀ {t : Node}, t.IsOperation → t.Grouped → (¬ ∃ m ∈ t.rightSpine, o.Binds m) →
      ∃ t', Grafted o tail t t' := by
    intro t ht hgrouped hnone
    have hnone : ∀ m ∈ t.rightSpine, ¬ o.Binds m := fun m hm hbinds => hnone ⟨m, hm, hbinds⟩
    exact ⟨wrap t, hwrap.operation ht, hwrap.grouped hgrouped hnone, hwrap.inOrder t,
      .inl ⟨hnone, hwrap.leftSpine t⟩⟩
  induction ht with
  | text s quote position =>
      exact hroot (.text s quote position) hgrouped (by simp [Node.rightSpine])
  | numeral s position => exact hroot (.numeral s position) hgrouped (by simp [Node.rightSpine])
  | var name position => exact hroot (.var name position) hgrouped (by simp [Node.rightSpine])
  | trailing op position harg _ =>
      exact hroot (.trailing op position harg) hgrouped (by simp [Node.rightSpine])
  | @leading op position arg harg ih =>
      by_cases hbinds : ∃ m ∈ op.precedence :: arg.rightSpine, o.Binds m
      · obtain ⟨harg', hspine⟩ := hgrouped
        obtain ⟨arg', h⟩ := ih harg'
        refine ⟨.leading op arg' .none position, .leading op position h.operation,
          ⟨h.grouped, h.binds hbinds hspine⟩, ?_, .inr ⟨hbinds, rfl⟩⟩
        simp [Node.inOrder, h.inOrder]
      · exact hroot (.leading op position harg) hgrouped hbinds
  | @binary op position left right hleft hright _ ih =>
      -- The left operand is not touched: nothing on its right side is open to the operators behind
      -- it.
      by_cases hbinds : ∃ m ∈ op.precedence :: right.rightSpine, o.Binds m
      · obtain ⟨hleft', hright', hspine, hopen⟩ := hgrouped
        obtain ⟨right', h⟩ := ih hright'
        refine ⟨.binary op left right' .none position, .binary op position hleft h.operation,
          ⟨hleft', h.grouped, h.binds hbinds hspine, hopen⟩, ?_, .inr ⟨hbinds, rfl⟩⟩
        simp [Node.inOrder, h.inOrder]
      · exact hroot (.binary op position hleft hright) hgrouped hbinds

/-! ## Every flat expression has a grouped tree -/

/-- Every grouped tree can be extended by some tokens to a grouped tree. -/
def Continues (tokens : List Token) : Prop :=
  ∀ t : Node, t.IsOperation → t.Grouped →
    ∃ t' : Node, t'.IsOperation ∧ t'.Grouped ∧ t'.inOrder = t.inOrder ++ tokens

/-- Tokens of a flat expression behind an operand continue every grouped tree; tokens from the start
begin with a grouped tree without operators on its left side, and the others continue it. -/
def Continuable : Expected → List Token → Prop
  | .operator, tokens => Continues tokens
  | .operand, tokens => ∃ (first : Node) (rest : List Token), tokens = first.inOrder ++ rest ∧
      first.IsOperation ∧ first.Grouped ∧ first.leftSpine = [] ∧ Continues rest

/-- An operand begins a flat expression. -/
theorem continuable_operand {calls : CallTable} {token : Token} {rest : List Token}
    (htoken : token.IsOperand calls) (hrest : Continues rest) :
    Continuable .operand (token :: rest) := by
  obtain ⟨kind, text, position⟩ := token
  cases kind with
  | text quote => exact ⟨.text text quote position, rest, rfl, .text .., trivial, rfl, hrest⟩
  | numeral => exact ⟨.numeral text position, rest, rfl, .numeral .., trivial, rfl, hrest⟩
  | name => exact ⟨.var text position, rest, rfl, .var .., trivial, rfl, hrest⟩
  | symbol => exact htoken.elim

/-- An operator is added to a tree, and then the rest. -/
theorem continues_of_follows {o : Follower} {tail rest : List Token} {wrap : Node → Node}
    (hwrap : Follows o tail wrap) (hrest : Continues rest) : Continues (tail ++ rest) := by
  intro t ht hgrouped
  obtain ⟨t₁, h₁⟩ := exists_grafted hwrap ht hgrouped
  obtain ⟨t₂, ht₂, hgrouped₂, hinOrder₂⟩ := hrest t₁ h₁.operation h₁.grouped
  exact ⟨t₂, ht₂, hgrouped₂, by rw [hinOrder₂, h₁.inOrder, List.append_assoc]⟩

theorem Flat.continuable {calls : CallTable} {expected : Expected} {tokens : List Token}
    (h : Flat calls expected tokens) : Continuable expected tokens := by
  induction h with
  | @leading op position rest _ _ ih =>
      obtain ⟨first, rest, rfl, hfirst, hgrouped, hspine, hrest⟩ := ih
      exact ⟨.leading op first .none position, rest, rfl, .leading op position hfirst,
        ⟨hgrouped, by simp [hspine]⟩, rfl, hrest⟩
  | operand htoken _ ih => exact continuable_operand htoken ih
  | done => exact fun t ht hgrouped => ⟨t, ht, hgrouped, by simp⟩
  | @trailing op position rest _ _ ih =>
      exact continues_of_follows (follows_trailing op position) ih
  | @binary op position rest _ _ ih =>
      obtain ⟨right, rest, rfl, hright, hgrouped, hspine, hrest⟩ := ih
      exact continues_of_follows (follows_binary op position hright hgrouped hspine) hrest

/-- Every flat expression has a grouped tree. -/
theorem Flat.exists_grouped {calls : CallTable} {tokens : List Token}
    (h : Flat calls .operand tokens) :
    ∃ t : Node, t.IsOperation ∧ t.Grouped ∧ t.inOrder = tokens := by
  obtain ⟨first, rest, rfl, hfirst, hgrouped, -, hrest⟩ := h.continuable
  exact hrest first hfirst hgrouped

end Terse
