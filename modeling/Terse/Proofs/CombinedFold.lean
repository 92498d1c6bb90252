import Terse.Proofs.Delimited
import Terse.Proofs.RoundTrip

/-!
# Folds with an operator as their combinator

In `+{:*}\[1 2]` the fold finds its map and its combinator by looking back at the items in front of
the backslash, which were read before it was seen.  `combinedFold_iff` says for which operators this
works: for all of them where there is no map, and for all but `-` where there is one.

## Strategy

1. An operator in front of a brace or a backslash is an item of its own, in which both operands are
left out.  `-` is a negation of nothing in front of a backslash.  In either case the item has one
token, and the combinator is read again from that token (`reads_combinedFold`).  2. In front of a
brace `-` is the negation of the block.  The block is then no map but a part of the combinator, and
between `#left` and `#right` it is an item of its own: behind a binary operator no block starts.
Since no item behind it takes the first one (`Crowded`), the combinator is never a single expression
(`not_reads_minusMap`).

The statement is about all maps and operands, so they are given by what they are as programs of
their own (`MapTokens` and `OperandTokens`).  That they are read as the same trees inside a fold is
`reads_delimited`, for which their brackets have to match.

Both parts work on derivations up to a closing bracket or the end (`Closes`), so that they apply to
programs and to groups alike.  For the second part derivations are unique: whatever the tokens are
read as starts with the negation of the block, and goes on from there.
-/

namespace Terse.Grammar

/-! ## The tokens of a fold -/

/-- The tokens of the map of a fold: none, or those of a block.  What the block is, and which
functions are known behind it, is told by the block as a program of its own.  The brackets inside
the block match, so that it is the last brace that closes it. -/
inductive MapTokens (calls : CallTable) : List Token → Option Block → CallTable → Prop where
  | none : MapTokens calls [] none calls
  | block {first last start : Position} {tokens : List Token} {block : Block} {calls' : CallTable}
      (hnested : WellNested (marks tokens))
      (hparse : parse (Bracket.curly.around first last tokens) calls =
        (.ok ⟨[.block block], start⟩, calls')) :
      MapTokens calls (Bracket.curly.around first last tokens) (some block) calls'

/-- The tokens of an operand that is a literal, a variable that names no function, a group or an
array. -/
inductive OperandTokens (calls : CallTable) : List Token → Node → CallTable → Prop where
  | text (quote : Quote) (text : String) (position : Position) :
      OperandTokens calls [⟨.text quote, text, position⟩] (.text text quote position) calls
  | numeral (text : String) (position : Position) :
      OperandTokens calls [⟨.numeral, text, position⟩] (.numeral text position) calls
  | var {name : String} (hname : calls.find? name = none) (position : Position) :
      OperandTokens calls [⟨.name, name, position⟩] (.var name position) calls
  | bracket {b : Bracket} {first last start : Position} {tokens : List Token} {node : Node}
      {calls' : CallTable} (hb : b ≠ .curly) (hnested : WellNested (marks tokens))
      (hparse : parse (b.around first last tokens) calls = (.ok ⟨[node], start⟩, calls')) :
      OperandTokens calls (b.around first last tokens) node calls'

/-- An operator, the tokens of a map, a backslash and the tokens of an operand. -/
def foldTokens (op : BinaryOp) (map operand : List Token) (p q : Position) : List Token :=
  op.token p :: (map ++ ⟨.symbol, "\\", q⟩ :: operand)

/-- The fold of an operand with an operator between `#left` and `#right` as its combinator. -/
def foldNode (op : BinaryOp) (map : Option Block) (operand : Node) (p q : Position) : Node :=
  .leading .fold operand (.fold map (some
    ⟨.binary op (.var leftName q) (.var rightName q) .none p, q⟩)) q

/-! ## Operands -/

theorem Separated.any_isBinary {rest : List Token} (h : Separated rest) :
    rest.head?.any isBinary = false := by
  cases rest with
  | nil => rfl
  | cons token rest =>
      obtain ⟨hkind, htext⟩ := eq_of_separator (h token rfl)
      change isBinary token = false
      rcases htext with htext | htext | htext | htext <;> rw [isBinary, htext, hkind] <;> rfl

theorem OperandTokens.reads {calls calls' : CallTable} {tokens rest : List Token} {node : Node}
    (h : OperandTokens calls tokens node calls') (hrest : Separated rest) (finish : Position) :
    Reads (.operand .operand (.primary node)) ⟨tokens ++ rest, finish, calls⟩
      ⟨rest, finish, calls'⟩ := by
  cases h with
  | text quote text position => exact .text
  | numeral text position => exact .numeral
  | var hname position =>
      exact .var (hrest.clear.opensBlock .operand) hrest.clear.startsDefinition hname
  | @bracket b _ _ _ _ _ _ hb hnested hparse =>
      have hplace : b = .curly → Place.operand ≠ .right := nofun
      have hoperand := reads_delimited hparse hnested hplace hrest.any_isBinary finish
      cases b with
      | round | square => exact hoperand
      | curly => exact absurd rfl hb

/-- The block of a map is read wherever a block may start. -/
theorem reads_mapBlock {calls calls' : CallTable} {first last start : Position}
    {tokens : List Token} {block : Block} {place : Place} (hnested : WellNested (marks tokens))
    (hparse : parse (Bracket.curly.around first last tokens) calls =
      (.ok ⟨[.block block], start⟩, calls'))
    (hplace : place ≠ .right) (q : Position) (rest : List Token) (finish : Position) :
    Reads (.operand place (.closed (.block block)))
      ⟨Bracket.curly.around first last tokens ++ ⟨.symbol, "\\", q⟩ :: rest, finish, calls⟩
      ⟨⟨.symbol, "\\", q⟩ :: rest, finish, calls'⟩ := by
  have hbehind : (⟨.symbol, "\\", q⟩ :: rest : List Token).head?.any isBinary = false := rfl
  exact reads_delimited hparse hnested (fun _ => hplace) hbehind finish

/-! ## Operators on their own -/

/-- The tokens behind an operator that is an item on its own: a brace or a backslash. -/
def Halts (token : Token) : Prop := token.isSymbol "\x7b" = true ∨ token.isSymbol "\\" = true

namespace Halts

variable {token : Token} (h : Halts token)

include h

theorem stops (bound : Bound) (force : Bool) (rest : List Token) :
    Stops bound force (token :: rest) := by
  rintro _ ⟨⟩ o ho
  have hnone : token.follower? = none := by
    rcases h with h | h <;> rw [Token.eq_of_isSymbol h] <;> rfl
  rw [hnone] at ho
  cases ho

theorem isBinary_eq : isBinary token = false := by
  rcases h with h | h <;> rw [Token.eq_of_isSymbol h] <;> rfl

theorem standsIn : StandsIn .right token := by
  rcases h with h | h
  · exact ⟨Token.kind_of_isSymbol h, .inl ⟨congrArg Token.text (Token.eq_of_isSymbol h), rfl⟩⟩
  · exact ⟨Token.kind_of_isSymbol h, .inr (.inl (congrArg Token.text (Token.eq_of_isSymbol h)))⟩

end Halts

section Operators

variable {op : BinaryOp} {token : Token} {rest : List Token} {finish : Position} {calls : CallTable}

/-- Only `-` is spelled as a leading operator too. -/
theorem leading_ofSpelling?_of_ne (hop : op ≠ .subtract) :
    LeadingOp.ofSpelling? op.spelling = none := by
  cases op with
  | subtract => exact absurd rfl hop
  | _ => decide

/-- A binary operator in front of a brace or a backslash has neither operand. -/
theorem reads_binaryItem (hcall : op ≠ .call) (hop : op ≠ .subtract) (htoken : Halts token)
    (p : Position) :
    Reads (.expression .lowest .item (.binary op (.implicit p) (.implicit token.position) .none p))
      ⟨op.token p :: token :: rest, finish, calls⟩ ⟨token :: rest, finish, calls⟩ := by
  have hleft : StandsIn .item (op.token p) :=
    ⟨rfl, .inr (.inr (.inl ⟨leading_ofSpelling?_of_ne hop,
      .inl (by simp [BinaryOp.token, BinaryOp.ofSpelling?_spelling])⟩))⟩
  have hright : Reads (.expression (.level op.precedence) .right (.implicit token.position))
      ⟨token :: rest, finish, calls⟩ ⟨token :: rest, finish, calls⟩ :=
    .implicit (.standIn htoken.standsIn) (.stop (htoken.stops _ _ _))
  exact .implicit (.standIn hleft)
    (.binary rfl hcall (fun _ => htoken.isBinary_eq) hright (.stop (htoken.stops _ _ _)))

/-- A `-` in front of a backslash is a negation of nothing. -/
theorem reads_negateItem (p q : Position) :
    Reads (.expression .lowest .item (.leading .negate (.implicit q) .none p))
      ⟨BinaryOp.subtract.token p :: ⟨.symbol, "\\", q⟩ :: rest, finish, calls⟩
      ⟨⟨.symbol, "\\", q⟩ :: rest, finish, calls⟩ := by
  have htoken : Halts ⟨.symbol, "\\", q⟩ := .inr rfl
  have harg : Reads (.expression (.level LeadingOp.negate.precedence) .operand (.implicit q))
      ⟨⟨.symbol, "\\", q⟩ :: rest, finish, calls⟩ ⟨⟨.symbol, "\\", q⟩ :: rest, finish, calls⟩ :=
    .implicit (.standIn ⟨rfl, .inr (.inl rfl)⟩) (.stop (htoken.stops _ _ _))
  have hoperand : Reads (.operand .item (.primary (.leading .negate (.implicit q) .none p)))
      ⟨LeadingOp.negate.token p :: ⟨.symbol, "\\", q⟩ :: rest, finish, calls⟩ _ :=
    .leading rfl harg
  exact .primary hoperand (.stop (htoken.stops _ _ _))

/-- An operator in front of a brace or a backslash is an item of one token, but for a `-` in front
of a brace. -/
theorem exists_operator_next {closer : Option String} (hcall : op ≠ .call) (htoken : Halts token)
    (hminus : op = .subtract → token.isSymbol "\\" = true) {p : Position}
    (hcloser : closer.any (op.token p).isSymbol = false) (rest : List Token) (finish : Position)
    (calls : CallTable) :
    ∃ first : Node, first.isBlock = false ∧ ∀ nodes c,
      Reads (.items closer [⟨first, op.token p :: token :: rest, token :: rest⟩] nodes)
          ⟨token :: rest, finish, calls⟩ c →
        Reads (.items closer [] nodes) ⟨op.token p :: token :: rest, finish, calls⟩ c := by
  obtain ⟨first, hblock, hread⟩ : ∃ first, first.isBlock = false ∧
      Reads (.expression .lowest .item first) ⟨op.token p :: token :: rest, finish, calls⟩
        ⟨token :: rest, finish, calls⟩ := by
    by_cases hop : op = .subtract
    · obtain rfl := hop
      refine ⟨.leading .negate (.implicit token.position) .none p, rfl, ?_⟩
      rw [Token.eq_of_isSymbol (hminus rfl)]
      exact reads_negateItem p token.position
    · exact ⟨_, rfl, reads_binaryItem hcall hop htoken p⟩
  have hfold : (op.token p).isSymbol "\\" = false := by cases op <;> rfl
  have hcomma : (op.token p).isSymbol "," = false := by cases op <;> rfl
  have halone : StandsAlone (op.token p) [] := fun _ _ _ h => nomatch h
  exact ⟨first, hblock, fun nodes c hnodes =>
    .next hcloser hcomma (.fresh hfold halone hread (by simp)) hnodes⟩

end Operators

/-! ## The fold -/

theorem Sibling.tokens_append (node : Node) (front stop : List Token) :
    (⟨node, front ++ stop, stop⟩ : Sibling).tokens = front := by
  simp [Sibling.tokens]

theorem takeMap_of_not_isBlock {sibling : Sibling} (h : sibling.node.isBlock = false)
    (start : List Token) (others : List Sibling) :
    takeMap start (sibling :: others) = (none, start, sibling :: others) := by
  obtain ⟨node, first, stop⟩ := sibling
  cases node with
  | block => cases h
  | _ => rfl

section Fold

variable {op : BinaryOp} {calls calls₁ calls₂ : CallTable} {front operand rest rest' : List Token}
  {map : Option Block} {node : Node} {closer : Option String}

/-- A backslash takes the map and the operator from the items in front of it, and the fold is all
that is left of the items. -/
theorem reads_items_fold {siblings : List Sibling} {start stop : List Token} {first : Node}
    {p q : Position} (hcall : op ≠ .call) (hoperand : OperandTokens calls operand node calls₂)
    (hleft : calls.find? leftName = none) (hright : calls.find? rightName = none)
    (hmap : takeMap (⟨.symbol, "\\", q⟩ :: (operand ++ rest)) siblings =
      (map, start, [⟨first, op.token p :: stop, stop⟩]))
    (hcloses : Closes closer rest rest') (finish : Position) :
    Reads (.items closer siblings [foldNode op map node p q])
      ⟨⟨.symbol, "\\", q⟩ :: (operand ++ rest), finish, calls⟩ ⟨rest', finish, calls₂⟩ := by
  -- The combinator is the item in front of the map, as that starts with an operator.
  have htake : takeCombinator start [⟨first, op.token p :: stop, stop⟩] =
      (some [op.token p], op.token p :: stop, []) := by
    have hbinary : (op.token p :: stop).head?.any isBinary = true := op.isBinary_token p
    have htokens := Sibling.tokens_append first [op.token p] stop
    rw [List.singleton_append] at htokens
    rw [takeCombinator, if_pos hbinary, htokens]
  have hrest := hcloses.separated
  have harg : Reads (.expression (.level 0) .operand node) ⟨operand ++ rest, finish, calls⟩
      ⟨rest, finish, calls₂⟩ :=
    .primary (hoperand.reads hrest finish) (.stop (hrest.stops _ _))
  have hitem : Reads (.item ⟨.symbol, "\\", q⟩ siblings
        [⟨foldNode op map node p q, op.token p :: stop, rest⟩])
      ⟨⟨.symbol, "\\", q⟩ :: (operand ++ rest), finish, calls⟩ ⟨rest, finish, calls₂⟩ :=
    .foldWith rfl hmap htake (reads_combinator hcall hleft hright p q _ finish) harg
      (.stop (hrest.stops _ _))
  exact .next (hcloses.not_any rfl) rfl hitem (hcloses.reads _ finish)

/-- An operator, a map and a backslash in front of an operand are one item up to a closing bracket
or the end, but for `-` in front of a map. -/
theorem reads_combinedFold (hcall : op ≠ .call) (hmap : MapTokens calls front map calls₁)
    (hoperand : OperandTokens calls₁ operand node calls₂)
    (hleft : calls₁.find? leftName = none) (hright : calls₁.find? rightName = none)
    (hminus : ¬ (op = .subtract ∧ map.isSome = true)) (hcloses : Closes closer rest rest')
    (p q finish : Position) :
    Reads (.items closer [] [foldNode op map node p q])
      ⟨foldTokens op front operand p q ++ rest, finish, calls⟩ ⟨rest', finish, calls₂⟩ := by
  have hcloser : closer.any (op.token p).isSymbol = false :=
    hcloses.not_any (by cases op <;> rfl)
  rw [foldTokens, List.cons_append, List.append_assoc, List.cons_append]
  cases hmap with
  | none =>
      have htoken : Halts ⟨.symbol, "\\", q⟩ := .inr rfl
      obtain ⟨first, hblock, hnext⟩ :=
        exists_operator_next hcall htoken (fun _ => rfl) hcloser (operand ++ rest) finish calls
      exact hnext _ _ (reads_items_fold hcall hoperand hleft hright
        (takeMap_of_not_isBlock hblock _ _) hcloses finish)
  | @block start last _ tokens b _ hnested hparse =>
      have htoken : Halts (Bracket.curly.opener start) := .inl rfl
      have hplus : op = .subtract → (Bracket.curly.opener start).isSymbol "\\" = true :=
        fun hop => absurd ⟨hop, rfl⟩ hminus
      obtain ⟨first, -, hnext⟩ := exists_operator_next hcall htoken hplus hcloser
        (tokens ++ [Bracket.curly.closer last] ++ ⟨.symbol, "\\", q⟩ :: (operand ++ rest)) finish
        calls
      have hitem : Place.item ≠ .right := nofun
      have hblock := reads_mapBlock hnested hparse hitem q (operand ++ rest) finish
      -- Behind the operator, the map is an item of its own, until the backslash takes both.
      refine hnext _ _ (.next (hcloses.not_any rfl) rfl (.fresh rfl nofun (.closed hblock) ?_) ?_)
      · change (⟨.symbol, "\\", q⟩ :: (operand ++ rest) : List Token).length ≠ _
        simp only [List.length_cons, List.length_append]
        omega
      · exact reads_items_fold hcall hoperand hleft hright rfl hcloses finish

end Fold

/-! ## Items that stay apart -/

/-- Items that do not become a single one any more: behind the first of them, which no fold takes as
its combinator, there is another one. -/
def Crowded (siblings : List Sibling) : Prop :=
  ∃ sibling newer first, siblings = sibling :: (newer ++ [first]) ∧
    first.start.head?.any isBinary = false

/-- One more item leaves the first one where it is. -/
theorem Crowded.item {token : Token} {siblings after : List Sibling} {c c' : Cursor}
    (h : Crowded siblings) (hitem : Reads (.item token siblings after) c c') : Crowded after := by
  obtain ⟨sibling, newer, first, rfl, hbinary⟩ := h
  cases hitem with
  | fresh _ _ _ _ => exact ⟨_, sibling :: newer, first, rfl, hbinary⟩
  | adopt _ _ _ _ => exact ⟨_, newer, first, rfl, hbinary⟩
  | fold _ hmap hcombinator _ _ | foldWith _ hmap hcombinator _ _ _ =>
      have hnewer : sibling :: newer = [] → first.node.isBlock = false := nofun
      obtain ⟨newer₂, rfl⟩ := exists_of_taken hbinary hnewer hmap hcombinator
      exact ⟨_, newer₂, first, rfl, hbinary⟩

/-- A brace behind an item starts another one. -/
theorem Reads.crowded_of_brace {first : Position} {sibling : Sibling} {after : List Sibling}
    {c c' : Cursor} (h : Reads (.item (Bracket.curly.opener first) [sibling] after) c c')
    (hstart : sibling.start.head?.any isBinary = false) : Crowded after := by
  cases h with
  | fresh _ _ _ _ => exact ⟨_, [], sibling, rfl, hstart⟩
  | adopt _ hop _ _ => cases hop
  | fold hfold _ _ _ _ | foldWith hfold _ _ _ _ _ => cases hfold

/-- Up to the end there stay two items at least. -/
theorem Reads.two_le_of_crowded {reading : Reading} {c c' : Cursor} (h : Reads reading c c') :
    ∀ closer siblings nodes, reading = .items closer siblings nodes → Crowded siblings →
      2 ≤ nodes.length := by
  induction h with
  | done | close _ =>
      rintro closer siblings nodes ⟨⟩ ⟨sibling, newer, first, rfl, -⟩
      simp
  | comma _ _ _ ih =>
      rintro closer siblings nodes ⟨⟩ hcrowded
      exact ih _ _ _ rfl hcrowded
  | next _ _ hitem _ _ ih =>
      rintro closer siblings nodes ⟨⟩ hcrowded
      exact ih _ _ _ rfl (hcrowded.item hitem)
  | _ =>
      rintro closer siblings nodes heq
      cases heq

/-! ## A minus in front of a map -/

section Minus

variable {calls calls₁ : CallTable} {p q : Position}

/-- Behind a binary operator a block does not start, so `-` has no right operand there. -/
theorem reads_minusOperand (p first : Position) (rest : List Token) (finish : Position)
    (hleft : calls.find? leftName = none) :
    Reads (.expression .lowest .item
        (.binary .subtract (.var leftName q) (.implicit first) .none p))
      ⟨⟨.name, leftName, q⟩ :: BinaryOp.subtract.token p :: Bracket.curly.opener first :: rest,
        finish, calls⟩ ⟨Bracket.curly.opener first :: rest, finish, calls⟩ := by
  have hclear := clear_binary .subtract p (Bracket.curly.opener first :: rest)
  have hbrace : Halts (Bracket.curly.opener first) := .inl rfl
  have hright : Reads (.expression (.level BinaryOp.subtract.precedence) .right (.implicit first))
      ⟨Bracket.curly.opener first :: rest, finish, calls⟩
      ⟨Bracket.curly.opener first :: rest, finish, calls⟩ :=
    .implicit (.standIn hbrace.standsIn) (.stop (hbrace.stops _ _ _))
  exact .primary (.var (hclear.opensBlock .item) hclear.startsDefinition hleft)
    (.binary rfl nofun nofun hright (.stop (hbrace.stops _ _ _)))

/-- A `-` in front of a brace is no combinator: between `#left` and the block there is no right
operand, and the block is an item of its own. -/
theorem not_reads_minusCombinator {first : Position} {rest : List Token} {made : Combinator}
    {c c' : Cursor} (hleft : c.calls.find? leftName = none) :
    ¬ Reads (.combinator (BinaryOp.subtract.token p :: Bracket.curly.opener first :: rest) q made)
      c c' := by
  intro h
  cases h with
  -- The first item ends in front of the brace, and the brace starts a second one.
  | combinator hread =>
      obtain ⟨node, c₁, hfirst, hrest⟩ := hread.exists_first rfl rfl rfl
      obtain ⟨-, rfl⟩ := hfirst.expression_unique (reads_minusOperand p first _ q hleft)
      obtain ⟨siblings, c₂, hitem, hrest⟩ := hrest.exists_next rfl rfl
      have htwo := hrest.two_le_of_crowded _ _ _ rfl (hitem.crowded_of_brace rfl)
      exact absurd htwo (by simp)

variable {first last start : Position} {tokens operand rest rest' : List Token} {block : Block}
  {closer : Option String}

/-- A `-` in front of a block is its negation. -/
theorem reads_negatedBlock (hnested : WellNested (marks tokens))
    (hparse : parse (Bracket.curly.around first last tokens) calls =
      (.ok ⟨[.block block], start⟩, calls₁)) (rest : List Token) (finish : Position) :
    Reads (.expression .lowest .item (.leading .negate (.block block) .none p))
      ⟨BinaryOp.subtract.token p :: (Bracket.curly.around first last tokens ++
        ⟨.symbol, "\\", q⟩ :: rest), finish, calls⟩
      ⟨⟨.symbol, "\\", q⟩ :: rest, finish, calls₁⟩ := by
  have htoken : Halts ⟨.symbol, "\\", q⟩ := .inr rfl
  have hplace : Place.operand ≠ .right := nofun
  have hblock := reads_mapBlock hnested hparse hplace q rest finish
  have hnegate : Reads (.operand .item (.primary (.leading .negate (.block block) .none p)))
      ⟨LeadingOp.negate.token p :: _, finish, calls⟩ _ := .leading rfl (.closed hblock)
  exact .primary hnegate (.stop (htoken.stops _ _ _))

/-- A backslash takes the negation of a block in front of it as its combinator, and fails. -/
theorem not_reads_minusFold {finish : Position} {stop : List Token} {after : List Sibling}
    {c : Cursor} (hleft : calls.find? leftName = none) :
    ¬ Reads (.item ⟨.symbol, "\\", q⟩ [⟨.leading .negate (.block block) .none p,
        BinaryOp.subtract.token p :: (Bracket.curly.around first last tokens ++ stop), stop⟩] after)
      ⟨⟨.symbol, "\\", q⟩ :: rest, finish, calls⟩ c := by
  intro h
  cases h with
  | fresh hfold _ _ _ | adopt hfold _ _ _ => cases hfold
  -- The negation is no block, so there is no map, and as it starts with `-`, it is the combinator.
  | fold _ hmap hcombinator _ _ =>
      cases hmap
      cases hcombinator
  | foldWith _ hmap hcombinator hread _ _ =>
      cases hmap
      rcases takeCombinator_cases hcombinator with ⟨hnone, -⟩ | ⟨taken, hsome, -, htaken, -⟩
      · cases hnone
      · obtain ⟨rfl, -⟩ := List.cons.inj htaken
        rw [← List.cons_append, Sibling.tokens_append] at hsome
        obtain rfl := Option.some.inj hsome
        exact not_reads_minusCombinator hleft hread

/-- A `-` with a map and a backslash behind it is not read at all, neither as a program nor between
brackets. -/
theorem not_reads_minusMap {front : List Token} {map : Option Block}
    (hmap : MapTokens calls front map calls₁) (hsome : map.isSome = true)
    (hleft : calls₁.find? leftName = none) (hcloses : Closes closer rest rest')
    {finish : Position} {nodes : List Node} {c : Cursor} :
    ¬ Reads (.items closer [] nodes)
      ⟨foldTokens .subtract front operand p q ++ rest, finish, calls⟩ c := by
  rw [foldTokens, List.cons_append, List.append_assoc, List.cons_append]
  intro h
  cases hmap with
  | none => cases hsome
  | block hnested hparse =>
      obtain ⟨node, c₁, hfirst, hrest⟩ := h.exists_first (hcloses.not_any rfl) rfl rfl
      obtain ⟨rfl, rfl⟩ := hfirst.expression_unique (reads_negatedBlock hnested hparse _ _)
      obtain ⟨siblings, c₂, hitem, -⟩ := hrest.exists_next (hcloses.not_any rfl) rfl
      exact not_reads_minusFold hleft hitem

end Minus

/-! ## Programs and groups -/

/-- What a group is, with enough levels, is what its items are read as. -/
theorem exists_group_iff {first : Position} {nodes : List Node} {c c' : Cursor} :
    (∃ D, group (ofDepth D) first c = .ok (.group ⟨nodes, c.position⟩ first) c') ↔
      Reads (.items (some ")") [] nodes) c c' := by
  constructor
  · rintro ⟨D, hrun⟩
    have hspans : Spans [] c.rest (weight c.rest) := ⟨Nat.le_refl _, by simp⟩
    have hitems := ((serves D).items (some ")") [] c _ hspans).mono (fun _ _ h => h)
      (fun _ => trivial)
    have hgroup : Meets (group (ofDepth D) first) c (fun node c' => ∃ nodes,
        node = .group ⟨nodes, c.position⟩ first ∧ Reads (.items (some ")") [] nodes) c c') True :=
      .look c.position (here_eq c) (.bind hitems fun nodes c' hnodes => .pure ⟨nodes, rfl, hnodes⟩)
    obtain ⟨nodes', hnode, hreads⟩ := hgroup.of_ok hrun
    cases hnode
    exact hreads
  · intro h
    obtain ⟨D, hrun⟩ := h.runs
    have hitems : (ofDepth (D + 1)).items (some ")") [] c = .ok nodes c' := hrun
    refine ⟨D + 1, ?_⟩
    rw [group, bind_ok (here_eq c), bind_ok hitems]
    rfl

/-- An operator with a map and a backslash behind it is a fold of the operand with the operator as
its combinator, as a program and in a group, unless the operator is `-` and there is a map: then `-`
is read as the negation of the map, and there is a syntax error. -/
theorem combinedFold_iff {op : BinaryOp} {calls calls₁ calls₂ : CallTable}
    {front operand : List Token} {map : Option Block} {node : Node} (hcall : op ≠ .call)
    (hmap : MapTokens calls front map calls₁) (hoperand : OperandTokens calls₁ operand node calls₂)
    (hleft : calls₁.find? leftName = none) (hright : calls₁.find? rightName = none)
    (p q : Position) :
    (parse (foldTokens op front operand p q) calls =
        (.ok ⟨[foldNode op map node p q], p⟩, calls₂) ↔ ¬ (op = .subtract ∧ map.isSome = true)) ∧
      (∀ first last behind finish,
        (∃ D, group (ofDepth D) first
            ⟨foldTokens op front operand p q ++ Bracket.round.closer last :: behind, finish,
              calls⟩ =
          .ok (.group ⟨[foldNode op map node p q], p⟩ first) ⟨behind, finish, calls₂⟩) ↔
        ¬ (op = .subtract ∧ map.isSome = true)) ∧
      (op = .subtract → map.isSome = true → ∃ error,
        (parse (foldTokens op front operand p q) calls).1 = .error (.fault error)) := by
  have hend : foldTokens op front operand p q ++ [] = foldTokens op front operand p q :=
    List.append_nil _
  -- For `-` in front of a map there is no derivation, as a program or in a group.
  have hfails (hminus : op = .subtract ∧ map.isSome = true) {closer : Option String}
      {rest rest' : List Token} (hcloses : Closes closer rest rest') (finish : Position)
      (nodes : List Node) (c : Cursor) :
      ¬ Reads (.items closer [] nodes)
        ⟨foldTokens op front operand p q ++ rest, finish, calls⟩ c := by
    obtain ⟨rfl, hsome⟩ := hminus
    exact not_reads_minusMap hmap hsome hleft hcloses
  refine ⟨⟨?_, ?_⟩, ?_, ?_⟩
  · intro hparse hminus
    obtain ⟨c, hread, -⟩ := reads_of_parse (congrArg Prod.fst hparse)
    exact hfails hminus .done _ _ c (hend.symm ▸ hread)
  · intro hminus
    have hread := reads_combinedFold hcall hmap hoperand hleft hright hminus .done p q
      (Cursor.start (foldTokens op front operand p q) calls).finish
    rw [hend] at hread
    exact parse_of_reads hread
  · intro first last behind finish
    have hcloses : Closes (some ")") (Bracket.round.closer last :: behind) behind :=
      .bracket last behind (.inl rfl)
    constructor
    · intro hgroup hminus
      exact hfails hminus hcloses _ _ _ (exists_group_iff.1 hgroup)
    · intro hminus
      exact exists_group_iff.2
        (reads_combinedFold hcall hmap hoperand hleft hright hminus hcloses p q finish)
  · intro hop hsome
    rcases run_cases (foldTokens op front operand p q) calls with
      ⟨nodes, c, -, hread⟩ | ⟨error, c, hrun⟩
    · exact absurd (hend.symm ▸ hread) (hfails ⟨hop, hsome⟩ .done _ nodes c)
    · exact ⟨error, by rw [parse_of_fault hrun]⟩

/-! ## Squares -/

/-- The tokens of `{:*}` in the second column. -/
def squareTokens : List Token := Bracket.curly.around ⟨1, 2⟩ ⟨1, 5⟩ [LeadingOp.square.token ⟨1, 3⟩]

def squareBlock : Block :=
  ⟨implicitName, ⟨[.leading .square (.implicit ⟨1, 5⟩) .none ⟨1, 3⟩], ⟨1, 3⟩⟩, ⟨1, 2⟩⟩

/-- The tokens of `[1 2]` in the seventh column. -/
def pairTokens : List Token :=
  Bracket.square.around ⟨1, 7⟩ ⟨1, 11⟩ [⟨.numeral, "1", ⟨1, 8⟩⟩, ⟨.numeral, "2", ⟨1, 10⟩⟩]

def pairArray : Node :=
  .array ⟨[.numeral "1" ⟨1, 8⟩, .numeral "2" ⟨1, 10⟩], ⟨1, 8⟩⟩ ⟨1, 7⟩

theorem mapTokens_square : MapTokens [] squareTokens (some squareBlock) [] :=
  .block .nil rfl

theorem operandTokens_pair : OperandTokens [] pairTokens pairArray [] :=
  .bracket (by decide) .nil rfl

/-- `+{:*}\[1 2]` is the sum of the squares. -/
theorem combinedFold_sum :
    MapTokens [] squareTokens (some squareBlock) [] ∧ OperandTokens [] pairTokens pairArray [] ∧
      parse (foldTokens .add squareTokens pairTokens ⟨1, 1⟩ ⟨1, 6⟩) [] =
        (.ok ⟨[foldNode .add (some squareBlock) pairArray ⟨1, 1⟩ ⟨1, 6⟩], ⟨1, 1⟩⟩, []) := by
  have hadd : BinaryOp.add ≠ .call := by decide
  have hfold :=
    combinedFold_iff hadd mapTokens_square operandTokens_pair rfl rfl ⟨1, 1⟩ ⟨1, 6⟩
  exact ⟨mapTokens_square, operandTokens_pair, hfold.1.2 (by decide)⟩

/-- `-{:*}\[1 2]` is a syntax error. -/
theorem combinedFold_minus :
    MapTokens [] squareTokens (some squareBlock) [] ∧ OperandTokens [] pairTokens pairArray [] ∧
      (parse (foldTokens .subtract squareTokens pairTokens ⟨1, 1⟩ ⟨1, 6⟩) []).1 =
        .error (.fault (.malformedCombinator "- \x7b :* \x7d" ⟨1, 6⟩)) :=
  ⟨mapTokens_square, operandTokens_pair, by rfl⟩

end Terse.Grammar
