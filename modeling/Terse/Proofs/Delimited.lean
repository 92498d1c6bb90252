import Terse.Proofs.Brackets
import Terse.Proofs.Completeness
import Terse.Proofs.Enclosed

/-!
# Operands between brackets

A group, an array or a block whose inner brackets match is read in the same way wherever it stands.
`reads_delimited` leads from a program that consists of it to any place where no binary operator
stands behind it.

Two things could make a difference.  The items between the brackets could end elsewhere than at the
last bracket; counting the open brackets shows that they do not (`Reads.rest_eq_nil_of_wellNested`).
And a name between the brackets could look for a `:=` behind them; it looks no further than its own
parameters, whose bracket is closed in front of the last one (`startsDefinition_closed`).

## Strategy

Brackets are looked at in two ways.  `nesting` counts how many more brackets some tokens open than
they close, which is what the rules are measured by in `Terse.Proofs.Nesting`.  `unclosed` keeps the
open brackets on a stack, which tells whether they match.  `unclosed_cases` is what one token does
to the stack, and `nesting_of_unclosed` connects the two.

* Well-nested tokens have the nesting zero, and an end of them closes what is open in front of it.
* A name between the brackets counts round brackets only, up to the one that closes its parameters.
  `closesIntoDefinition_closed` follows the stack inside that bracket, and the count is the number
  of round brackets on it.
* A program that is a bracket has the items between the brackets as its body
  (`Reads.expression_around`), and these are read again with something behind the last bracket
  (`Reads.delimited`).
-/

namespace Terse.Grammar

/-! ## Marks of single tokens -/

theorem mark?_eq_some_iff (token : Token) (mark : Mark) :
    mark? token = some mark ↔ token.isSymbol mark.spelling = true := by
  constructor
  · intro h
    unfold mark? at h
    simpa using List.find?_some h
  · exact mark?_of_isSymbol

theorem isSymbol_of_mark?_ne {token : Token} {mark : Mark} (h : mark? token ≠ some mark) :
    token.isSymbol mark.spelling = false := by
  rw [Bool.eq_false_iff]
  exact fun hsymbol => h (mark?_of_isSymbol hsymbol)

theorem nesting_opens {token : Token} {b : Bracket} (h : mark? token = some (.opens b)) :
    nesting [token] = 1 := by
  rw [Token.eq_of_isSymbol ((mark?_eq_some_iff _ _).1 h)]
  cases b <;> rfl

theorem nesting_closes {token : Token} {b : Bracket} (h : mark? token = some (.closes b)) :
    nesting [token] = -1 := by
  rw [Token.eq_of_isSymbol ((mark?_eq_some_iff _ _).1 h)]
  cases b <;> rfl

theorem nesting_plain {token : Token} (h : mark? token = none) : nesting [token] = 0 := by
  have hne (mark : Mark) : token.isSymbol mark.spelling = false :=
    isSymbol_of_mark?_ne (by rw [h]; exact nofun)
  have hopener : isOpener token = false :=
    Bool.or_eq_false_iff.2 ⟨Bool.or_eq_false_iff.2 ⟨hne (.opens .round), hne (.opens .square)⟩,
      hne (.opens .curly)⟩
  have hcloser : isCloser token = false :=
    Bool.or_eq_false_iff.2 ⟨Bool.or_eq_false_iff.2 ⟨hne (.closes .round), hne (.closes .square)⟩,
      hne (.closes .curly)⟩
  simp [nesting, hopener, hcloser]

/-! ## Well-nested tokens -/

/-- What the first token does to the open brackets. -/
theorem unclosed_cases {token : Token} {rest : List Token} {stack stack' : List Bracket}
    (h : unclosed stack (marks (token :: rest)) = some stack') :
    mark? token = none ∧ unclosed stack (marks rest) = some stack' ∨
      (∃ b, mark? token = some (.opens b) ∧ unclosed (b :: stack) (marks rest) = some stack') ∨
      ∃ b outer, mark? token = some (.closes b) ∧ stack = b :: outer ∧
        unclosed outer (marks rest) = some stack' := by
  unfold marks at h ⊢
  cases hmark : mark? token with
  | none =>
      rw [List.filterMap_cons_none hmark] at h
      exact .inl ⟨rfl, h⟩
  | some mark =>
      rw [List.filterMap_cons_some hmark] at h
      -- A closing bracket must be that of the bracket on top of the stack.
      cases mark with
      | opens b => exact .inr (.inl ⟨b, rfl, h⟩)
      | closes b =>
          cases stack with
          | nil => cases h
          | cons top outer =>
              rw [unclosed] at h
              split at h
              · subst top
                exact .inr (.inr ⟨b, outer, rfl, rfl, h⟩)
              · cases h

/-- The open brackets are as many more as the tokens open. -/
theorem nesting_of_unclosed {tokens : List Token} {stack stack' : List Bracket}
    (h : unclosed stack (marks tokens) = some stack') :
    nesting tokens + stack.length = stack'.length := by
  induction tokens generalizing stack with
  | nil =>
      obtain rfl := Option.some.inj h
      simp
  | cons token rest ih =>
      rw [nesting_cons]
      rcases unclosed_cases h with
        ⟨hmark, hrest⟩ | ⟨b, hmark, hrest⟩ | ⟨b, outer, hmark, rfl, hrest⟩
      · have hnesting := ih hrest
        rw [nesting_plain hmark]
        omega
      · have hnesting := ih hrest
        rw [List.length_cons] at hnesting
        rw [nesting_opens hmark]
        omega
      · have hnesting := ih hrest
        rw [nesting_closes hmark, List.length_cons]
        omega

theorem WellNested.unclosed_eq {word : List Mark} (h : WellNested word) :
    unclosed [] word = some [] := by
  simpa [unclosed] using h.unclosed_append [] []

theorem WellNested.nesting_eq_zero {tokens : List Token} (h : WellNested (marks tokens)) :
    nesting tokens = 0 := by
  simpa using nesting_of_unclosed h.unclosed_eq

/-- The end of well-nested tokens closes what is open in front of it. -/
theorem WellNested.exists_unclosed {tokens rest : List Token} (h : WellNested (marks tokens))
    (hsuffix : rest <:+ tokens) : ∃ stack, unclosed stack (marks rest) = some [] := by
  obtain ⟨front, rfl⟩ := hsuffix
  have hall := h.unclosed_eq
  rw [marks, List.filterMap_append, Grammar.unclosed_append] at hall
  obtain ⟨stack, -, hstack⟩ := Option.bind_eq_some_iff.1 hall
  exact ⟨stack, hstack⟩

section Definitions

variable {token : Token}

theorem closesIntoDefinition_opens (h : mark? token = some (.opens .round)) (depth : Nat)
    (rest : List Token) :
    closesIntoDefinition depth (token :: rest) = closesIntoDefinition (depth + 1) rest := by
  rw [Token.eq_of_isSymbol ((mark?_eq_some_iff _ _).1 h)]
  rfl

theorem closesIntoDefinition_closes (h : mark? token = some (.closes .round)) (depth : Nat)
    (rest : List Token) :
    closesIntoDefinition (depth + 2) (token :: rest) = closesIntoDefinition (depth + 1) rest := by
  rw [Token.eq_of_isSymbol ((mark?_eq_some_iff _ _).1 h)]
  rfl

theorem closesIntoDefinition_last (h : mark? token = some (.closes .round)) (rest : List Token) :
    closesIntoDefinition 1 (token :: rest) = some (rest.head?.any (·.isSymbol ":=")) := by
  rw [Token.eq_of_isSymbol ((mark?_eq_some_iff _ _).1 h)]
  rfl

theorem closesIntoDefinition_skips (hopens : mark? token ≠ some (.opens .round))
    (hcloses : mark? token ≠ some (.closes .round)) (depth : Nat) (rest : List Token) :
    closesIntoDefinition depth (token :: rest) = closesIntoDefinition depth rest := by
  have hopens : token.isSymbol "(" = false := isSymbol_of_mark?_ne hopens
  have hcloses : token.isSymbol ")" = false := isSymbol_of_mark?_ne hcloses
  simp [closesIntoDefinition, hopens, hcloses]

end Definitions

/-- Where a round bracket closes among some tokens, what stands behind these does not matter.  Of
the brackets that are open inside it, those that are round are counted. -/
theorem closesIntoDefinition_closed {outer : List Bracket} {tokens : List Token}
    (inner : List Bracket) (h : unclosed (inner ++ .round :: outer) (marks tokens) = some [])
    (last : Token) (behind : List Token) :
    closesIntoDefinition (inner.count .round + 1) (tokens ++ last :: behind) =
      closesIntoDefinition (inner.count .round + 1) (tokens ++ [last]) := by
  -- By induction on the tokens; `inner` is what they have opened and not closed yet.
  induction tokens generalizing inner with
  | nil => cases inner <;> cases h
  | cons token rest ih =>
      rw [List.cons_append, List.cons_append]
      rcases unclosed_cases h with
        ⟨hmark, hrest⟩ | ⟨b, hmark, hrest⟩ | ⟨b, stack, hmark, hstack, hrest⟩
      · have hskips := closesIntoDefinition_skips (by rw [hmark]; nofun) (by rw [hmark]; nofun)
        rw [hskips, hskips, ih inner hrest]
      · cases b with
        | round =>
            have hinner := ih (.round :: inner) hrest
            rw [List.count_cons_self] at hinner
            rw [closesIntoDefinition_opens hmark, closesIntoDefinition_opens hmark, hinner]
        | _ =>
            have hskips :=
              closesIntoDefinition_skips (by rw [hmark]; decide) (by rw [hmark]; decide)
            have hinner := ih (_ :: inner) hrest
            rw [List.count_cons_of_ne (by decide)] at hinner
            rw [hskips, hskips, hinner]
      · cases inner with
        -- The bracket of the parameters is closed, and the next token decides.
        | nil =>
            obtain ⟨rfl, -⟩ := List.cons.inj hstack
            rw [List.count_nil, closesIntoDefinition_last hmark, closesIntoDefinition_last hmark]
            cases rest <;> rfl
        | cons top inner =>
            obtain ⟨rfl, rfl⟩ := List.cons.inj hstack
            have hinner := ih inner hrest
            cases top with
            | round =>
                rw [List.count_cons_self, closesIntoDefinition_closes hmark,
                  closesIntoDefinition_closes hmark, hinner]
            | _ =>
                have hskips :=
                  closesIntoDefinition_skips (by rw [hmark]; decide) (by rw [hmark]; decide)
                rw [List.count_cons_of_ne (by decide), hskips, hskips, hinner]

/-- Whether a name in front of well-nested tokens starts a definition is decided by them and by the
closing bracket behind them. -/
theorem startsDefinition_closed {tokens : List Token} {stack : List Bracket}
    (h : unclosed stack (marks tokens) = some []) {last : Token} (hlast : isCloser last = true)
    (behind : List Token) :
    startsDefinition (tokens ++ last :: behind) = startsDefinition (tokens ++ [last]) := by
  cases tokens with
  | nil =>
      obtain ⟨-, htext | htext | htext⟩ := text_of_isCloser hlast <;>
        simp [startsDefinition, Token.isSymbol, htext]
  | cons token rest =>
      rw [List.cons_append, List.cons_append, startsDefinition, startsDefinition]
      cases hparen : token.isSymbol "(" with
      | false => rfl
      | true =>
          have hmark : mark? token = some (.opens .round) := mark?_of_isSymbol hparen
          have hcloses : closesIntoDefinition 1 (rest ++ last :: behind) =
              closesIntoDefinition 1 (rest ++ [last]) := by
            rcases unclosed_cases h with ⟨hnone, -⟩ | ⟨b, hopens, hrest⟩ | ⟨b, _, hcloses, -⟩
            · rw [hmark] at hnone
              cases hnone
            · rw [hmark] at hopens
              cases hopens
              exact closesIntoDefinition_closed [] hrest last behind
            · rw [hmark] at hcloses
              cases hcloses
          rw [closesIntoDefinition_opens hmark, closesIntoDefinition_opens hmark, hcloses]

/-- Nothing behind a bracket that closes well-nested tokens makes a difference to them. -/
theorem WellNested.trails {tokens behind : List Token} (h : WellNested (marks tokens))
    {last : Token} (hlast : isCloser last = true) (hbehind : behind.head?.any isBinary = false) :
    Trails behind (tokens ++ [last]) where
  binary := hbehind
  definition := by
    intro rest hrest hne
    rcases List.suffix_concat_iff.1 hrest with rfl | ⟨front, rfl, hfront⟩
    · exact absurd rfl hne
    · obtain ⟨stack, hstack⟩ := h.exists_unclosed hfront
      rw [List.append_assoc]
      exact startsDefinition_closed hstack hlast behind

/-! ## Operands between brackets -/

namespace Bracket

/-- The token that opens a bracket. -/
def opener (b : Bracket) (position : Position) : Token :=
  ⟨.symbol, (Mark.opens b).spelling, position⟩

/-- The token that closes a bracket. -/
def closer (b : Bracket) (position : Position) : Token :=
  ⟨.symbol, (Mark.closes b).spelling, position⟩

/-- Tokens between an opening and a closing bracket. -/
def around (b : Bracket) (first last : Position) (tokens : List Token) : List Token :=
  b.opener first :: (tokens ++ [b.closer last])

/-- The tree of a bracket with some items in it. -/
def node (b : Bracket) (body : Program) (first : Position) : Node :=
  match b with
  | .round => .group body first
  | .square => .array body first
  | .curly => .block ⟨implicitName, body, first⟩

/-- How an operand starts that stands between brackets. -/
def start (b : Bracket) (node : Node) : Start :=
  match b with
  | .round | .square => .primary node
  | .curly => .closed node

theorem eq_of_opens {b b' : Bracket} (h : (Mark.opens b).spelling = (Mark.opens b').spelling) :
    b = b' := by
  revert h
  cases b <;> cases b' <;> decide

theorem isCloser_closer (b : Bracket) (position : Position) :
    isCloser (b.closer position) = true := by
  cases b <;> rfl

theorem nesting_closer (b : Bracket) (position : Position) : nesting [b.closer position] = -1 :=
  nesting_closes (mark?_spelling position (.closes b))

theorem upToBracket (b : Bracket) (siblings : List Sibling) (nodes : List Node) :
    (Reading.items (some (Mark.closes b).spelling) siblings nodes).UpToBracket := by
  cases b <;> simp [Reading.UpToBracket, Mark.spelling]

end Bracket

/-- What an opening bracket starts. -/
theorem Reads.operand_bracket {b : Bracket} {start : Start} {first : Position} {rest : List Token}
    {c c' : Cursor} (h : Reads (.operand .item start) c c')
    (hc : c.rest = b.opener first :: rest) :
    ∃ nodes, start = b.start (b.node ⟨nodes, Cursor.position ⟨rest, c.finish, c.calls⟩⟩ first) ∧
      Reads (.items (some (Mark.closes b).spelling) [] nodes) ⟨rest, c.finish, c.calls⟩ c' ∧
      (b = .square → nodes.countP Node.isBlock ≤ 1) := by
  cases h with
  | block _ hbody =>
      obtain ⟨hfirst, rfl⟩ := List.cons.inj hc
      obtain ⟨-, hspelling, rfl⟩ := Token.mk.inj hfirst
      obtain rfl : .curly = b := Bracket.eq_of_opens hspelling
      exact ⟨_, rfl, hbody, nofun⟩
  | group hbody =>
      obtain ⟨hfirst, rfl⟩ := List.cons.inj hc
      obtain ⟨-, hspelling, rfl⟩ := Token.mk.inj hfirst
      obtain rfl : .round = b := Bracket.eq_of_opens hspelling
      exact ⟨_, rfl, hbody, nofun⟩
  | array hbody hblocks =>
      obtain ⟨hfirst, rfl⟩ := List.cons.inj hc
      obtain ⟨-, hspelling, rfl⟩ := Token.mk.inj hfirst
      obtain rfl : .square = b := Bracket.eq_of_opens hspelling
      exact ⟨_, rfl, hbody, fun _ => hblocks⟩
  | @standIn _ token _ _ _ htoken =>
      have htext : token.text = (Mark.opens b).spelling := congrArg Token.text (List.cons.inj hc).1
      exact absurd htext (htoken.text_ne (by cases b <;> decide))
  | @leading _ op _ _ _ _ _ _ _ _ | @filter _ op _ _ _ _ _ _ _ _ _ _ _ _ _ _ _ =>
      have hspelling : op.spelling = (Mark.opens b).spelling :=
        congrArg Token.text (List.cons.inj hc).1
      exact absurd hspelling (by cases op <;> cases b <;> decide)
  | _ => cases hc

/-- A bracket is an operand wherever it stands, but that a block does not start behind a binary
operator. -/
theorem reads_bracketed {b : Bracket} {place : Place} {rest : List Token} {finish : Position}
    {calls : CallTable} {nodes : List Node} {c : Cursor} (hplace : b = .curly → place ≠ .right)
    (hbody : Reads (.items (some (Mark.closes b).spelling) [] nodes) ⟨rest, finish, calls⟩ c)
    (hblocks : b = .square → nodes.countP Node.isBlock ≤ 1) (first : Position) :
    Reads (.operand place
        (b.start (b.node ⟨nodes, Cursor.position ⟨rest, finish, calls⟩⟩ first)))
      ⟨b.opener first :: rest, finish, calls⟩ c := by
  cases b with
  | round => exact .group hbody
  | square => exact .array hbody (hblocks rfl)
  | curly => exact .block (hplace rfl) hbody

section Delimited

variable {b : Bracket} {tokens : List Token} {first last : Position} {finish : Position}
  {calls calls' : CallTable} {nodes : List Node} {node : Node} {c : Cursor}

/-- Items between brackets end with the last bracket, if the brackets among them match: the tokens
from any earlier one on close more brackets than they open, those behind the items do not. -/
theorem Reads.rest_eq_nil_of_wellNested
    (h : Reads (.items (some (Mark.closes b).spelling) [] nodes)
      ⟨tokens ++ [b.closer last], finish, calls⟩ c)
    (hnested : WellNested (marks tokens)) : c.rest = [] := by
  by_contra hne
  have hsettles := h.settles (b.upToBracket [] nodes) hne
  obtain hnil | ⟨rest, hrest, hsuffix⟩ := List.suffix_concat_iff.1 h.suffix
  · exact hne hnil
  · obtain ⟨stack, hstack⟩ := hnested.exists_unclosed hsuffix
    have hclosed : nesting rest + stack.length = 0 := nesting_of_unclosed hstack
    rw [Settles, hrest, nesting_append, nesting_append, b.nesting_closer,
      hnested.nesting_eq_zero] at hsettles
    simp only [Reading.owed, Option.isSome_some, if_true] at hsettles
    omega

/-- The items between brackets are read in the same way whatever stands behind the last one. -/
theorem Reads.delimited {behind : List Token}
    (h : Reads (.items (some (Mark.closes b).spelling) [] nodes)
      ⟨tokens ++ [b.closer last], finish, calls⟩ c)
    (hnested : WellNested (marks tokens)) (hbehind : behind.head?.any isBinary = false)
    (finish' : Position) :
    Reads (.items (some (Mark.closes b).spelling) [] nodes)
      ⟨tokens ++ [b.closer last] ++ behind, finish', calls⟩ ⟨behind, finish', c.calls⟩ := by
  obtain ⟨rest, finish₁, calls₁⟩ := c
  obtain rfl : rest = [] := h.rest_eq_nil_of_wellNested hnested
  have hsettles : Settles (.items (some (Mark.closes b).spelling) [] nodes)
      ⟨tokens ++ [b.closer last], finish, calls⟩ ⟨[], finish₁, calls₁⟩ := by
    rw [Settles, nesting_append, b.nesting_closer, hnested.nesting_eq_zero]
    rfl
  exact h.followed ⟨hnested.trails (b.isCloser_closer last) hbehind, hsettles, .inr (.inl rfl)⟩
    finish'

/-- No operator stands behind a bracket at the end of the tokens. -/
theorem Reads.expression_around
    (h : Reads (.expression .lowest .item node) ⟨b.around first last tokens, finish, calls⟩ c)
    (hnested : WellNested (marks tokens)) :
    ∃ nodes, Reads (.items (some (Mark.closes b).spelling) [] nodes)
        ⟨tokens ++ [b.closer last], finish, calls⟩ c ∧
      node = b.node ⟨nodes, Cursor.position ⟨tokens ++ [b.closer last], finish, calls⟩⟩ first ∧
      (b = .square → nodes.countP Node.isBlock ≤ 1) := by
  cases h with
  | closed hoperand =>
      obtain ⟨nodes, hstart, hbody, hblocks⟩ := hoperand.operand_bracket rfl
      refine ⟨nodes, hbody, ?_, hblocks⟩
      cases b <;> cases hstart
      rfl
  -- The items end with the tokens, so no operator is left to be read.
  | @primary _ _ _ _ _ c₁ _ hoperand hoperators =>
      obtain ⟨nodes, hstart, hbody, hblocks⟩ := hoperand.operand_bracket rfl
      obtain ⟨rest, finish₁, calls₁⟩ := c₁
      obtain rfl : rest = [] := hbody.rest_eq_nil_of_wellNested hnested
      cases hoperators with
      | stop _ =>
          refine ⟨nodes, hbody, ?_, hblocks⟩
          cases b <;> cases hstart <;> rfl
  | implicit hoperand _ =>
      obtain ⟨nodes, hstart, -⟩ := hoperand.operand_bracket rfl
      cases b <;> cases hstart

theorem Reads.items_nil {siblings : List Sibling} {c' : Cursor}
    (h : Reads (.items none siblings nodes) c c') (hrest : c.rest = []) :
    nodes = (siblings.map (·.node)).reverse ∧ c' = c := by
  cases h with
  | done => exact ⟨rfl, rfl⟩
  | comma _ _ _ | next _ _ _ _ => cases hrest

/-- A program that is a bracket is the tree of the items between the brackets. -/
theorem Reads.items_around
    (h : Reads (.items none [] [node]) ⟨b.around first last tokens, finish, calls⟩ c)
    (hnested : WellNested (marks tokens)) :
    Reads (.expression .lowest .item node) ⟨b.around first last tokens, finish, calls⟩ c := by
  have hcomma : (b.opener first).isSymbol "," = false := by cases b <;> rfl
  have hfold : (b.opener first).isSymbol "\\" = false := by cases b <;> rfl
  obtain ⟨node', c₁, hread, hrest⟩ := Reads.exists_first h rfl hcomma hfold
  obtain ⟨nodes, hbody, -⟩ := Reads.expression_around hread hnested
  obtain ⟨hnodes, rfl⟩ := hrest.items_nil (hbody.rest_eq_nil_of_wellNested hnested)
  obtain rfl := List.singleton_inj.1 hnodes
  exact hread

/-- A bracket that is a program of its own is an operand wherever it stands. -/
theorem reads_delimited {start : Position} {place : Place} {behind : List Token}
    (h : parse (b.around first last tokens) calls = (.ok ⟨[node], start⟩, calls'))
    (hnested : WellNested (marks tokens)) (hplace : b = .curly → place ≠ .right)
    (hbehind : behind.head?.any isBinary = false) (finish : Position) :
    Reads (.operand place (b.start node)) ⟨b.around first last tokens ++ behind, finish, calls⟩
      ⟨behind, finish, calls'⟩ := by
  obtain ⟨c, hreads, hcalls⟩ := reads_of_parse (congrArg Prod.fst h)
  obtain rfl : calls' = c.calls := (congrArg Prod.snd h).symm.trans hcalls
  obtain ⟨nodes, hbody, rfl, hblocks⟩ := (hreads.items_around hnested).expression_around hnested
  have hoperand := reads_bracketed hplace (hbody.delimited hnested hbehind finish) hblocks first
  have hposition : Cursor.position ⟨tokens ++ [b.closer last] ++ behind, finish, calls⟩ =
      Cursor.position ⟨tokens ++ [b.closer last], (Cursor.start (b.around first last tokens)
        calls).finish, calls⟩ := by
    cases tokens <;> rfl
  rw [hposition] at hoperand
  exact hoperand

end Delimited

end Terse.Grammar
