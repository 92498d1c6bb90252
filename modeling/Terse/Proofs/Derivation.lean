import Mathlib.Data.List.Infix
import Terse.Grammar.Items
import Terse.Proofs.Grouping

/-!
# What the grammar reads

`Reads` says, without a bound on the number of levels and without an order of attempts, what each
rule of the grammar makes of the tokens in front of it: from a cursor it arrives at a result and at
another cursor.  There is one constructor for each way in which a rule can succeed.

Proofs about accepted programs go by induction on `Reads`, and proofs that a program is accepted
give a derivation.  That the rules succeed exactly as `Reads` says is shown in `Totality`, which
leads from runs to derivations, and in `Completeness`, which leads back.

* The rules call each other, so `Reads` is one relation.  A `Reading` is a rule with its arguments
  and its result; what a rule is given, such as a left operand or the items before it, is part of
  it.
* Where a rule decides by what comes next, the decision is a hypothesis of its own, such as
  `opensBlock`, `StandsIn`, `Stops` or `StandsAlone`.  They keep the constructors of one rule apart.
* The head of a definition has no rule.  It is looked for by counting brackets, and then read; both
  agree on what the head is (`startsDefinition_header`, `startsDefinition_params`).
* The combinator of a fold or a zip is read from tokens of its own, with a name on either side.
  Only the table of known functions goes in and comes out.

The last part says how far a rule gets: the tokens that are left are a suffix of the tokens that
there were, and an item takes at least one.
-/

namespace Terse

/-! ## Heads of definitions -/

/-- Names with commas between them in any number, as the parameters of a definition. -/
inductive ParamList : List Token → List Param → Prop where
  | nil : ParamList [] []
  | comma (position : Position) {tokens : List Token} {params : List Param}
      (hrest : ParamList tokens params) : ParamList (⟨.symbol, ",", position⟩ :: tokens) params
  | name (name : String) (position : Position) {tokens : List Token} {params : List Param}
      (hrest : ParamList tokens params) :
      ParamList (⟨.name, name, position⟩ :: tokens) (⟨name, position⟩ :: params)

/-- What stands between the name and the body of a definition: `:=`, or parameters in brackets and
`:=`. -/
inductive Header : List Token → List Param → Prop where
  | bare (position : Position) : Header [⟨.symbol, ":=", position⟩] []
  | listed (opening closing assign : Position) {tokens : List Token} {params : List Param}
      (hparams : ParamList tokens params) :
      Header (⟨.symbol, "(", opening⟩ :: (tokens ++
        [⟨.symbol, ")", closing⟩, ⟨.symbol, ":=", assign⟩])) params

/-! ## Tokens that decide -/

namespace Token

theorem kind_of_isSymbol {token : Token} {spelling : String}
    (h : token.isSymbol spelling = true) : token.kind = .symbol := by
  simpa using (Bool.and_eq_true_iff.1 h).1

theorem eq_of_isSymbol {token : Token} {spelling : String} (h : token.isSymbol spelling = true) :
    token = ⟨.symbol, spelling, token.position⟩ := by
  have hkind := kind_of_isSymbol h
  have htext : token.text = spelling := by simpa using (Bool.and_eq_true_iff.1 h).2
  rw [← hkind, ← htext]

theorem eq_leading {token : Token} {op : LeadingOp} (hkind : token.kind = .symbol)
    (h : LeadingOp.ofSpelling? token.text = some op) : token = op.token token.position := by
  have hspelling : op.spelling = token.text := by simpa using List.find?_some h
  rw [LeadingOp.token, hspelling, ← hkind]

theorem eq_binary {token : Token} {op : BinaryOp} (hkind : token.kind = .symbol)
    (h : BinaryOp.ofSpelling? token.text = some op) : token = op.token token.position := by
  have hspelling : op.spelling = token.text := by simpa using List.find?_some h
  rw [BinaryOp.token, hspelling, ← hkind]

/-- The base conversion has a second spelling, the other trailing operators have one. -/
theorem eq_trailing {token : Token} {op : TrailingOp} (hkind : token.kind = .symbol)
    (h : TrailingOp.ofSpelling? token.text = some op) (hop : op.plain = true) :
    token = op.token token.position := by
  unfold TrailingOp.ofSpelling? at h
  split at h
  · obtain rfl := Option.some.inj h
    cases hop
  · have hspelling : op.spelling = token.text := by simpa using List.find?_some h
    rw [TrailingOp.token, hspelling, ← hkind]

/-- A binary operator is spelled by a token. -/
theorem exists_of_isBinary {token : Token} (h : Grammar.isBinary token = true) :
    ∃ op : BinaryOp, token = op.token token.position := by
  obtain ⟨hkind, hspelling⟩ := Bool.and_eq_true_iff.1 h
  obtain ⟨op, hop⟩ := Option.isSome_iff_exists.1 hspelling
  exact ⟨op, eq_binary (by simpa using hkind) hop⟩

/-- Tokens that start with a symbol. -/
theorem exists_of_head_isSymbol {tokens : List Token} {spelling : String}
    (h : tokens.head?.any (·.isSymbol spelling) = true) :
    ∃ position rest, tokens = ⟨.symbol, spelling, position⟩ :: rest := by
  cases tokens with
  | nil => cases h
  | cons token rest => exact ⟨token.position, rest, congrArg (· :: rest) (eq_of_isSymbol h)⟩

end Token

theorem BinaryOp.isBinary_token (op : BinaryOp) (position : Position) :
    Grammar.isBinary (op.token position) = true := by
  simp [Grammar.isBinary, BinaryOp.token, BinaryOp.ofSpelling?_spelling]

/-- The operator behind a left operand that a token spells. -/
def Token.follower? (token : Token) : Option Follower :=
  if token.kind = .symbol then
    ((BinaryOp.ofSpelling? token.text).map BinaryOp.follower).or
      ((TrailingOp.ofSpelling? token.text).map TrailingOp.follower)
  else none

namespace Grammar

/-- The place of the next token, or of the end. -/
def Cursor.position (cursor : Cursor) : Position :=
  match cursor.rest with
  | token :: _ => token.position
  | [] => cursor.finish

/-- Whether a name in front of some tokens starts a block. -/
def opensBlock (place : Place) (rest : List Token) : Bool :=
  place ≠ .right && rest.head?.any (·.isSymbol "\x7b")

/-- An operand is left out in front of a token. -/
structure StandsIn (place : Place) (token : Token) : Prop where
  symbol : token.kind = .symbol
  cases : token.text = "\x7b" ∧ place = .right ∨ token.text = "\\" ∨
    LeadingOp.ofSpelling? token.text = none ∧
      ((BinaryOp.ofSpelling? token.text).isSome = true ∨
        (TrailingOp.ofSpelling? token.text).isSome = true) ∨
    place ≠ .item ∧ (isCloser token = true ∨ token.text = ",")

/-- The operators behind a left operand end here. -/
def Stops (bound : Bound) (force : Bool) (rest : List Token) : Prop :=
  ∀ token ∈ rest.head?, ∀ o ∈ token.follower?,
    (force || bound.admits o.precedence o.chains) = false

/-- The item in front of a token does not become its left operand. -/
def StandsAlone (token : Token) (siblings : List Sibling) : Prop :=
  ∀ precedence ∈ adoptingPrecedence? token, ∀ previous ∈ siblings.head?,
    adoptable precedence previous.node = false

/-- The tokens of a combinator between the names of its operands. -/
def operandsAround (tokens : List Token) (position : Position) : List Token :=
  ⟨.name, leftName, position⟩ :: (tokens ++ [⟨.name, rightName, position⟩])

/-! ## Derivations -/

/-- A rule of the grammar together with what it reads. -/
inductive Reading where
  | expression (bound : Bound) (place : Place) (node : Node)
  | operators (left : Node) (bound : Bound) (force : Bool) (node : Node)
  | items (closer : Option String) (siblings : List Sibling) (nodes : List Node)
  | item (token : Token) (siblings siblings' : List Sibling)
  | operand (place : Place) (start : Start)
  | arguments (count : Nat) (args : List Node)
  | combinator (tokens : List Token) (position : Position) (combinator : Combinator)

/-- A rule reads something between two cursors. -/
inductive Reads : Reading → Cursor → Cursor → Prop where
  -- Operands.
  | absent {place : Place} {finish : Position} {calls : CallTable} :
      Reads (.operand place (.implicit (.implicit finish))) ⟨[], finish, calls⟩ ⟨[], finish, calls⟩
  | standIn {place : Place} {token : Token} {rest : List Token} {finish : Position}
      {calls : CallTable} (htoken : StandsIn place token) :
      Reads (.operand place (.implicit (.implicit token.position)))
        ⟨token :: rest, finish, calls⟩ ⟨token :: rest, finish, calls⟩
  | text {place : Place} {quote : Quote} {text : String} {position : Position} {rest : List Token}
      {finish : Position} {calls : CallTable} :
      Reads (.operand place (.primary (.text text quote position)))
        ⟨⟨.text quote, text, position⟩ :: rest, finish, calls⟩ ⟨rest, finish, calls⟩
  | numeral {place : Place} {text : String} {position : Position} {rest : List Token}
      {finish : Position} {calls : CallTable} :
      Reads (.operand place (.primary (.numeral text position)))
        ⟨⟨.numeral, text, position⟩ :: rest, finish, calls⟩ ⟨rest, finish, calls⟩
  | var {place : Place} {name : String} {position : Position} {rest : List Token}
      {finish : Position} {calls : CallTable} (hblock : opensBlock place rest = false)
      (hdefinition : startsDefinition rest = false) (hname : calls.find? name = none) :
      Reads (.operand place (.primary (.var name position)))
        ⟨⟨.name, name, position⟩ :: rest, finish, calls⟩ ⟨rest, finish, calls⟩
  | call {place : Place} {name : String} {position : Position} {rest : List Token}
      {finish : Position} {calls : CallTable} {count : Nat} {args : List Node} {c : Cursor}
      (hblock : opensBlock place rest = false) (hdefinition : startsDefinition rest = false)
      (hname : calls.find? name = some count)
      (hargs : Reads (.arguments count args) ⟨rest, finish, calls⟩ c) :
      Reads (.operand place (.primary (.call name args position)))
        ⟨⟨.name, name, position⟩ :: rest, finish, calls⟩ c
  | define {place : Place} {name : String} {position : Position} {header rest : List Token}
      {params : List Param} {finish : Position} {calls : CallTable} {body : Node} {c : Cursor}
      (hheader : Header header params)
      (hbody : Reads (.expression .lowest .operand body)
        ⟨rest, finish, calls.insert name params.length⟩ c) :
      Reads (.operand place (.closed (.define name params body position)))
        ⟨⟨.name, name, position⟩ :: (header ++ rest), finish, calls⟩ c
  | namedBlock {place : Place} {name : String} {position bracePosition : Position}
      {rest : List Token} {finish : Position} {calls : CallTable} {nodes : List Node} {c : Cursor}
      (hplace : place ≠ .right)
      (hbody : Reads (.items (some "\x7d") [] nodes) ⟨rest, finish, calls⟩ c) :
      Reads (.operand place (.closed (.block
          ⟨name, ⟨nodes, Cursor.position ⟨rest, finish, calls⟩⟩, position⟩)))
        ⟨⟨.name, name, position⟩ :: ⟨.symbol, "\x7b", bracePosition⟩ :: rest, finish, calls⟩ c
  | block {place : Place} {position : Position} {rest : List Token} {finish : Position}
      {calls : CallTable} {nodes : List Node} {c : Cursor} (hplace : place ≠ .right)
      (hbody : Reads (.items (some "\x7d") [] nodes) ⟨rest, finish, calls⟩ c) :
      Reads (.operand place (.closed (.block
          ⟨implicitName, ⟨nodes, Cursor.position ⟨rest, finish, calls⟩⟩, position⟩)))
        ⟨⟨.symbol, "\x7b", position⟩ :: rest, finish, calls⟩ c
  | group {place : Place} {position : Position} {rest : List Token} {finish : Position}
      {calls : CallTable} {nodes : List Node} {c : Cursor}
      (hbody : Reads (.items (some ")") [] nodes) ⟨rest, finish, calls⟩ c) :
      Reads (.operand place (.primary (.group
          ⟨nodes, Cursor.position ⟨rest, finish, calls⟩⟩ position)))
        ⟨⟨.symbol, "(", position⟩ :: rest, finish, calls⟩ c
  | array {place : Place} {position : Position} {rest : List Token} {finish : Position}
      {calls : CallTable} {nodes : List Node} {c : Cursor}
      (hbody : Reads (.items (some "]") [] nodes) ⟨rest, finish, calls⟩ c)
      (hblocks : nodes.countP Node.isBlock ≤ 1) :
      Reads (.operand place (.primary (.array
          ⟨nodes, Cursor.position ⟨rest, finish, calls⟩⟩ position)))
        ⟨⟨.symbol, "[", position⟩ :: rest, finish, calls⟩ c
  | leading {place : Place} {op : LeadingOp} {position : Position} {rest : List Token}
      {finish : Position} {calls : CallTable} {arg : Node} {c : Cursor} (hop : op.plain = true)
      (harg : Reads (.expression (.level op.precedence) .operand arg) ⟨rest, finish, calls⟩ c) :
      Reads (.operand place (.primary (.leading op arg .none position)))
        ⟨op.token position :: rest, finish, calls⟩ c
  | filter {place : Place} {op : LeadingOp} {position bracePosition : Position} {param : String}
      {naming rest : List Token} {finish : Position} {calls : CallTable} {nodes : List Node}
      {arg : Node} {c₁ c₂ : Cursor} (hop : op = .filter ∨ op = .any)
      (hnaming : naming = [] ∧ param = implicitName ∨
        ∃ namePosition, naming = [⟨.name, param, namePosition⟩])
      (hbody : Reads (.items (some "\x7d") [] nodes) ⟨rest, finish, calls⟩ c₁)
      (harg : Reads (.expression (.level op.precedence) .operand arg) c₁ c₂) :
      Reads (.operand place (.primary (.leading op arg (.filter
          ⟨param, ⟨nodes, Cursor.position ⟨rest, finish, calls⟩⟩, bracePosition⟩) position)))
        ⟨op.token position :: (naming ++ ⟨.symbol, "\x7b", bracePosition⟩ :: rest), finish, calls⟩
        c₂
  -- Arguments.
  | noArguments {c : Cursor} : Reads (.arguments 0 []) c c
  | missing {count : Nat} {args : List Node} {c c₁ : Cursor}
      (hboundary : c.rest.head?.all isCloser = true) (hrest : Reads (.arguments count args) c c₁) :
      Reads (.arguments (count + 1) (.implicit c.position :: args)) c c₁
  | argument {count : Nat} {arg : Node} {args : List Node} {c c₁ c₂ : Cursor}
      (hboundary : c.rest.head?.all isCloser = false)
      (harg : Reads (.expression .highest .argument arg) c c₁)
      (hrest : Reads (.arguments count args) c₁ c₂) :
      Reads (.arguments (count + 1) (arg :: args)) c c₂
  -- Expressions.
  | closed {bound : Bound} {place : Place} {node : Node} {c c₁ : Cursor}
      (hoperand : Reads (.operand place (.closed node)) c c₁) :
      Reads (.expression bound place node) c c₁
  | primary {bound : Bound} {place : Place} {first node : Node} {c c₁ c₂ : Cursor}
      (hoperand : Reads (.operand place (.primary first)) c c₁)
      (hoperators : Reads (.operators first bound false node) c₁ c₂) :
      Reads (.expression bound place node) c c₂
  | implicit {bound : Bound} {place : Place} {first node : Node} {c c₁ c₂ : Cursor}
      (hoperand : Reads (.operand place (.implicit first)) c c₁)
      (hoperators : Reads (.operators first bound true node) c₁ c₂) :
      Reads (.expression bound place node) c c₂
  -- Operators behind a left operand.
  | stop {left : Node} {bound : Bound} {force : Bool} {c : Cursor}
      (hstops : Stops bound force c.rest) : Reads (.operators left bound force left) c c
  | dot {left node : Node} {bound : Bound} {force : Bool} {position namePosition : Position}
      {name : String} {rest : List Token} {finish : Position} {calls : CallTable} {count : Nat}
      {args : List Node} {c₁ c₂ : Cursor}
      (htaken : (force || bound.admits BinaryOp.call.precedence BinaryOp.call.chains) = true)
      (hname : calls.find? name = some (count + 1))
      (hargs : Reads (.arguments count args) ⟨rest, finish, calls⟩ c₁)
      (hrest : Reads (.operators
        (.binary .call left (.call name args namePosition) .none position) bound false node)
        c₁ c₂) :
      Reads (.operators left bound force node)
        ⟨BinaryOp.call.token position :: ⟨.name, name, namePosition⟩ :: rest, finish, calls⟩ c₂
  | zipWith {left right node : Node} {bound : Bound} {force : Bool} {op : BinaryOp}
      {position opPosition : Position} {rest : List Token} {finish : Position} {calls : CallTable}
      {combinator : Combinator} {c₁ c₂ c₃ : Cursor}
      (htaken : (force || bound.admits BinaryOp.zip.precedence BinaryOp.zip.chains) = true)
      (hcombinator : Reads (.combinator [op.token opPosition] position combinator)
        ⟨rest, finish, calls⟩ c₁)
      (hboundary : c₁.rest.head?.all isCloser = false)
      (hright : Reads (.expression (.level BinaryOp.zip.precedence) .right right) c₁ c₂)
      (hrest : Reads (.operators (.binary .zip left right (.zip combinator) position) bound false
        node) c₂ c₃) :
      Reads (.operators left bound force node)
        ⟨BinaryOp.zip.token position :: op.token opPosition :: rest, finish, calls⟩ c₃
  | binary {left right node : Node} {bound : Bound} {force : Bool} {op : BinaryOp}
      {position : Position} {rest : List Token} {finish : Position} {calls : CallTable}
      {c₁ c₂ : Cursor} (htaken : (force || bound.admits op.precedence op.chains) = true)
      (hcall : op ≠ .call) (hzip : op = .zip → rest.head?.any isBinary = false)
      (hright : Reads (.expression (.level op.precedence) .right right) ⟨rest, finish, calls⟩ c₁)
      (hrest : Reads (.operators (.binary op left right .none position) bound false node) c₁ c₂) :
      Reads (.operators left bound force node) ⟨op.token position :: rest, finish, calls⟩ c₂
  | trailing {left node : Node} {bound : Bound} {force : Bool} {op : TrailingOp}
      {position : Position} {rest : List Token} {finish : Position} {calls : CallTable} {c : Cursor}
      (htaken : (force || bound.admits op.precedence true) = true) (hop : op.plain = true)
      (hrest : Reads (.operators (.trailing op left .none position) bound false node)
        ⟨rest, finish, calls⟩ c) :
      Reads (.operators left bound force node) ⟨op.token position :: rest, finish, calls⟩ c
  | base {left node : Node} {bound : Bound} {force : Bool} {spelling word : String}
      {position wordPosition : Position} {width : Nat} {codes : List BaseCode}
      {numerals rest : List Token} {finish : Position} {calls : CallTable} {c : Cursor}
      (htaken : (force || bound.admits TrailingOp.base.precedence true) = true)
      (hop : TrailingOp.ofSpelling? spelling = some .base)
      (hwidth : numerals = [] ∧ width = 0 ∨ ∃ digits widthPosition,
        numerals = [⟨.numeral, digits, widthPosition⟩] ∧ readWidth? digits = some width)
      (hcodes : word.toList.mapM BaseCode.ofChar? = some codes)
      (hrest : Reads (.operators (.trailing .base left (.base width codes) position) bound false
        node) ⟨rest, finish, calls⟩ c) :
      Reads (.operators left bound force node)
        ⟨⟨.symbol, spelling, position⟩ :: (numerals ++ ⟨.name, word, wordPosition⟩ :: rest), finish,
          calls⟩ c
  -- Items.
  | done {closer : Option String} {siblings : List Sibling} {finish : Position}
      {calls : CallTable} :
      Reads (.items closer siblings (siblings.map (·.node)).reverse) ⟨[], finish, calls⟩
        ⟨[], finish, calls⟩
  | close {spelling : String} {siblings : List Sibling} {token : Token} {rest : List Token}
      {finish : Position} {calls : CallTable} (htoken : token.isSymbol spelling = true) :
      Reads (.items (some spelling) siblings (siblings.map (·.node)).reverse)
        ⟨token :: rest, finish, calls⟩ ⟨rest, finish, calls⟩
  | comma {closer : Option String} {siblings : List Sibling} {nodes : List Node} {token : Token}
      {rest : List Token} {finish : Position} {calls : CallTable} {c : Cursor}
      (hclose : closer.any token.isSymbol = false) (hcomma : token.isSymbol "," = true)
      (hrest : Reads (.items closer siblings nodes) ⟨rest, finish, calls⟩ c) :
      Reads (.items closer siblings nodes) ⟨token :: rest, finish, calls⟩ c
  | next {closer : Option String} {siblings siblings' : List Sibling} {nodes : List Node}
      {token : Token} {rest : List Token} {finish : Position} {calls : CallTable} {c₁ c₂ : Cursor}
      (hclose : closer.any token.isSymbol = false) (hcomma : token.isSymbol "," = false)
      (hitem : Reads (.item token siblings siblings') ⟨token :: rest, finish, calls⟩ c₁)
      (hrest : Reads (.items closer siblings' nodes) c₁ c₂) :
      Reads (.items closer siblings nodes) ⟨token :: rest, finish, calls⟩ c₂
  | fresh {token : Token} {siblings : List Sibling} {node : Node} {rest : List Token}
      {finish : Position} {calls : CallTable} {c : Cursor} (hfold : token.isSymbol "\\" = false)
      (halone : StandsAlone token siblings)
      (hread : Reads (.expression .lowest .item node) ⟨token :: rest, finish, calls⟩ c)
      (hprogress : c.rest.length ≠ (token :: rest).length) :
      Reads (.item token siblings (⟨node, token :: rest, c.rest⟩ :: siblings))
        ⟨token :: rest, finish, calls⟩ c
  | adopt {token : Token} {previous : Sibling} {others : List Sibling} {precedence : Nat}
      {node : Node} {rest : List Token} {finish : Position} {calls : CallTable} {c : Cursor}
      (hfold : token.isSymbol "\\" = false) (hop : adoptingPrecedence? token = some precedence)
      (hadopt : adoptable precedence previous.node = true)
      (hread : Reads (.operators previous.node .lowest true node)
        ⟨token :: rest, finish, calls⟩ c) :
      Reads (.item token (previous :: others) (⟨node, previous.start, c.rest⟩ :: others))
        ⟨token :: rest, finish, calls⟩ c
  | fold {token : Token} {siblings siblings₁ siblings₂ : List Sibling} {map : Option Block}
      {start₁ start₂ : List Token} {arg node : Node} {rest : List Token} {finish : Position}
      {calls : CallTable} {c₁ c₂ : Cursor} (hfold : token.isSymbol "\\" = true)
      (hmap : takeMap (token :: rest) siblings = (map, start₁, siblings₁))
      (hcombinator : takeCombinator start₁ siblings₁ = (none, start₂, siblings₂))
      (harg : Reads (.expression (.level 0) .operand arg) ⟨rest, finish, calls⟩ c₁)
      (hoperators : Reads (.operators (.leading .fold arg (.fold map none) token.position)
        .lowest false node) c₁ c₂) :
      Reads (.item token siblings (⟨node, start₂, c₂.rest⟩ :: siblings₂))
        ⟨token :: rest, finish, calls⟩ c₂
  | foldWith {token : Token} {siblings siblings₁ siblings₂ : List Sibling} {map : Option Block}
      {start₁ start₂ tokens : List Token} {combinator : Combinator} {arg node : Node}
      {rest : List Token} {finish : Position} {calls : CallTable} {c₁ c₂ c₃ : Cursor}
      (hfold : token.isSymbol "\\" = true)
      (hmap : takeMap (token :: rest) siblings = (map, start₁, siblings₁))
      (hcombinator : takeCombinator start₁ siblings₁ = (some tokens, start₂, siblings₂))
      (hread : Reads (.combinator tokens token.position combinator) ⟨rest, finish, calls⟩ c₁)
      (harg : Reads (.expression (.level 0) .operand arg) c₁ c₂)
      (hoperators : Reads (.operators (.leading .fold arg (.fold map (some combinator))
        token.position) .lowest false node) c₂ c₃) :
      Reads (.item token siblings (⟨node, start₂, c₃.rest⟩ :: siblings₂))
        ⟨token :: rest, finish, calls⟩ c₃
  -- Combinators, which are read from tokens of their own.
  | combinator {tokens : List Token} {position : Position} {expr : Node} {c c₁ : Cursor}
      (hread : Reads (.items none [] [expr]) ⟨operandsAround tokens position, position, c.calls⟩
        c₁) :
      Reads (.combinator tokens position ⟨expr, position⟩) c { c with calls := c₁.calls }

/-! ## Where a definition starts -/

/-- Brackets are counted from an opening one on, so that none closes while none is open. -/
theorem closesIntoDefinition_ne_none (depth : Nat) (tokens : List Token) :
    closesIntoDefinition (depth + 1) tokens ≠ none := by
  induction tokens generalizing depth with
  | nil => exact Option.some_ne_none _
  | cons token rest ih =>
      unfold closesIntoDefinition
      split
      · exact ih (depth + 1)
      split
      -- A closing bracket ends the count only where it closes the first one.
      · cases depth with
        | zero => exact Option.some_ne_none _
        | succ depth => exact ih depth
      · exact ih depth

theorem closesIntoDefinition_params {tokens : List Token} {params : List Param}
    (h : ParamList tokens params) (depth : Nat) (rest : List Token) :
    closesIntoDefinition depth (tokens ++ rest) = closesIntoDefinition depth rest := by
  induction h with
  | nil => rfl
  | comma position _ ih => exact ih
  | name name position _ ih => exact ih

theorem readParams_params {tokens : List Token} {params : List Param}
    (h : ParamList tokens params) (error : SyntaxError) (closing : Position) (rest : List Token) :
    readParams error (tokens ++ ⟨.symbol, ")", closing⟩ :: rest) = .ok (params, rest) := by
  induction h with
  | nil => rfl
  | comma position _ ih => exact ih
  | name name position _ ih => simp [readParams, Token.isSymbol, ih]

/-- Parameters end at a closing bracket, or with the tokens. -/
theorem readParams_cases {error : SyntaxError} {tokens behind : List Token} {params : List Param}
    (h : readParams error tokens = .ok (params, behind)) :
    (ParamList tokens params ∧ behind = []) ∨
      ∃ listed closing, ParamList listed params ∧
        tokens = listed ++ ⟨.symbol, ")", closing⟩ :: behind := by
  -- By the recursion over the parameters: the end, a bracket, a comma or a name.
  fun_induction readParams error tokens generalizing params with
  | case1 =>
      simp only [Except.ok.injEq, Prod.mk.injEq] at h
      obtain ⟨rfl, rfl⟩ := h
      exact .inl ⟨.nil, rfl⟩
  | case2 token rest hclosing =>
      simp only [Except.ok.injEq, Prod.mk.injEq] at h
      obtain ⟨rfl, rfl⟩ := h
      exact .inr ⟨[], token.position, .nil, congrArg (· :: rest) (Token.eq_of_isSymbol hclosing)⟩
  | case3 token rest _ hcomma ih =>
      rw [Token.eq_of_isSymbol hcomma]
      rcases ih h with ⟨hparams, hbehind⟩ | ⟨listed, closing, hparams, rfl⟩
      · exact .inl ⟨.comma _ hparams, hbehind⟩
      · exact .inr ⟨_, closing, .comma _ hparams, rfl⟩
  | case4 token rest _ _ hkind params' behind' hread ih =>
      simp only [Except.ok.injEq, Prod.mk.injEq] at h
      obtain ⟨rfl, rfl⟩ := h
      have htoken : token = ⟨.name, token.text, token.position⟩ := by rw [← hkind]
      rcases ih hread with ⟨hparams, hbehind⟩ | ⟨listed, closing, hparams, rfl⟩
      · refine .inl ⟨?_, hbehind⟩
        rw [htoken]
        exact .name _ _ hparams
      · refine .inr ⟨token :: listed, closing, ?_, rfl⟩
        rw [htoken]
        exact .name _ _ hparams
  | case5 | case6 => cases h

/-- A name in front of the head of a definition starts a definition. -/
theorem startsDefinition_header {header : List Token} {params : List Param}
    (h : Header header params) (rest : List Token) : startsDefinition (header ++ rest) = true := by
  cases h with
  | bare position => rfl
  | listed opening closing assign hparams =>
      simp [startsDefinition, closesIntoDefinition, Token.isSymbol,
        closesIntoDefinition_params hparams]

/-- Where a definition starts, its parameters end in front of `:=`. -/
theorem startsDefinition_params {error : SyntaxError} {opening : Position}
    {tokens behind : List Token} {params : List Param}
    (hstarts : startsDefinition (⟨.symbol, "(", opening⟩ :: tokens) = true)
    (hread : readParams error tokens = .ok (params, behind)) :
    ∃ listed closing assign rest, ParamList listed params ∧
      tokens = listed ++ ⟨.symbol, ")", closing⟩ :: behind ∧
      behind = ⟨.symbol, ":=", assign⟩ :: rest := by
  have hcloses : closesIntoDefinition 1 tokens = some true := by
    simpa [startsDefinition, closesIntoDefinition, Token.isSymbol] using hstarts
  -- Parameters without a closing bracket would not have been taken for a definition.
  rcases readParams_cases hread with ⟨hparams, -⟩ | ⟨listed, closing, hparams, rfl⟩
  · have hopen := closesIntoDefinition_params hparams 1 []
    rw [List.append_nil, hcloses] at hopen
    cases hopen
  · rw [closesIntoDefinition_params hparams] at hcloses
    have hassign : behind.head?.any (·.isSymbol ":=") = true := Option.some.inj hcloses
    obtain ⟨assign, rest, rfl⟩ := Token.exists_of_head_isSymbol hassign
    exact ⟨listed, closing, assign, rest, hparams, rfl, rfl⟩

/-! ## What a fold takes from the items before it -/

/-- A fold takes nothing as its map, or the block right before it. -/
theorem takeMap_cases {start start' : List Token} {siblings others : List Sibling}
    {map : Option Block} (h : takeMap start siblings = (map, start', others)) :
    map = none ∧ start' = start ∧ others = siblings ∨
      ∃ block stop, map = some block ∧ siblings = ⟨.block block, start', stop⟩ :: others := by
  unfold takeMap at h
  split at h
  · rename_i block first stop rest
    simp only [Prod.mk.injEq] at h
    obtain ⟨rfl, rfl, rfl⟩ := h
    exact .inr ⟨block, stop, rfl, rfl⟩
  · simp only [Prod.mk.injEq] at h
    obtain ⟨rfl, rfl, rfl⟩ := h
    exact .inl ⟨rfl, rfl, rfl⟩

/-- A fold takes nothing as its combinator, or an item that starts with a binary operator. -/
theorem takeCombinator_cases {start start' : List Token} {siblings others : List Sibling}
    {tokens : Option (List Token)}
    (h : takeCombinator start siblings = (tokens, start', others)) :
    tokens = none ∧ start' = start ∧ others = siblings ∨
      ∃ sibling, tokens = some sibling.tokens ∧ start' = sibling.start ∧
        siblings = sibling :: others ∧ sibling.start.head?.any isBinary = true := by
  cases siblings with
  | nil =>
      simp only [takeCombinator, Prod.mk.injEq] at h
      obtain ⟨rfl, rfl, rfl⟩ := h
      exact .inl ⟨rfl, rfl, rfl⟩
  | cons sibling rest =>
      simp only [takeCombinator] at h
      split at h
      · rename_i hbinary
        simp only [Prod.mk.injEq] at h
        obtain ⟨rfl, rfl, rfl⟩ := h
        exact .inr ⟨sibling, rfl, rfl, rfl, hbinary⟩
      · simp only [Prod.mk.injEq] at h
        obtain ⟨rfl, rfl, rfl⟩ := h
        exact .inl ⟨rfl, rfl, rfl⟩

/-- What a fold takes leaves the first item where it is, if that is neither a block right before the
fold nor starts with a binary operator. -/
theorem exists_of_taken {start start₁ start₂ : List Token}
    {newer siblings₁ siblings₂ : List Sibling} {first : Sibling} {map : Option Block}
    {tokens : Option (List Token)}
    (hbinary : first.start.head?.any isBinary = false)
    (hblock : newer = [] → first.node.isBlock = false)
    (hmap : takeMap start (newer ++ [first]) = (map, start₁, siblings₁))
    (hcombinator : takeCombinator start₁ siblings₁ = (tokens, start₂, siblings₂)) :
    ∃ newer₂, siblings₂ = newer₂ ++ [first] := by
  -- At most the newest item is taken as the map, and then the newest of the others.
  obtain ⟨newer₁, rfl⟩ : ∃ newer₁, siblings₁ = newer₁ ++ [first] := by
    rcases takeMap_cases hmap with ⟨-, -, rfl⟩ | ⟨block, stop, -, htaken⟩
    · exact ⟨newer, rfl⟩
    · cases newer with
      | nil =>
          obtain ⟨rfl, -⟩ := List.cons.inj htaken
          cases hblock rfl
      | cons _ newer => exact ⟨newer, (List.cons.inj htaken).2.symm⟩
  rcases takeCombinator_cases hcombinator with ⟨-, -, rfl⟩ | ⟨taken, -, -, htaken, hop⟩
  · exact ⟨newer₁, rfl⟩
  · cases newer₁ with
    | nil =>
        obtain ⟨rfl, -⟩ := List.cons.inj htaken
        rw [hbinary] at hop
        cases hop
    | cons _ newer₁ => exact ⟨newer₁, (List.cons.inj htaken).2.symm⟩

/-- The tokens from the first one of an item on are its own and those behind it. -/
theorem Sibling.start_eq {sibling : Sibling} (h : sibling.stop <:+ sibling.start) :
    sibling.start = sibling.tokens ++ sibling.stop := by
  rw [Sibling.tokens, List.suffix_iff_eq_append.1 h]

/-! ## How far a rule gets -/

theorem suffix_behind (before : List Token) (token : Token) (rest : List Token) :
    rest <:+ before ++ token :: rest :=
  (List.suffix_cons _ _).trans (List.suffix_append _ _)

/-- What is left behind a rule is a suffix of what there was. -/
theorem Reads.suffix {reading : Reading} {c c' : Cursor} (h : Reads reading c c') :
    c'.rest <:+ c.rest := by
  induction h with
  | absent | standIn _ | noArguments | stop _ | done | combinator _ _ => exact List.suffix_rfl
  | text | numeral | var _ _ _ | close _ => exact List.suffix_cons _ _
  | call _ _ _ _ ih | block _ _ ih | group _ ih | array _ _ ih | leading _ _ ih | comma _ _ _ ih
  | trailing _ _ _ ih => exact ih.trans (List.suffix_cons _ _)
  | define _ _ ih => exact ih.trans ((List.suffix_append _ _).trans (List.suffix_cons _ _))
  | namedBlock _ _ ih =>
      exact ih.trans ((List.suffix_cons _ _).trans (List.suffix_cons _ _))
  | filter _ _ _ _ ihbody iharg =>
      exact iharg.trans (ihbody.trans ((suffix_behind _ _ _).trans (List.suffix_cons _ _)))
  | missing _ _ ih => exact ih
  | argument _ _ _ iharg ihrest => exact ihrest.trans iharg
  | closed _ ih | adopt _ _ _ _ ih | fresh _ _ _ _ ih => exact ih
  | primary _ _ ihoperand ihoperators => exact ihoperators.trans ihoperand
  | implicit _ _ ihoperand ihoperators => exact ihoperators.trans ihoperand
  | dot _ _ _ _ ihargs ihrest =>
      exact ihrest.trans (ihargs.trans ((List.suffix_cons _ _).trans (List.suffix_cons _ _)))
  | zipWith _ _ _ _ _ ihcombinator ihright ihrest =>
      exact ihrest.trans (ihright.trans (ihcombinator.trans
        ((List.suffix_cons _ _).trans (List.suffix_cons _ _))))
  | binary _ _ _ _ _ ihright ihrest =>
      exact ihrest.trans (ihright.trans (List.suffix_cons _ _))
  | base _ _ _ _ _ ih => exact ih.trans ((suffix_behind _ _ _).trans (List.suffix_cons _ _))
  | next _ _ _ _ ihitem ihrest => exact ihrest.trans ihitem
  | fold _ _ _ _ _ iharg ihoperators =>
      exact ihoperators.trans (iharg.trans (List.suffix_cons _ _))
  | foldWith _ _ _ _ _ _ ihread iharg ihoperators =>
      exact ihoperators.trans (iharg.trans (ihread.trans (List.suffix_cons _ _)))

/-- As many arguments are read as the function takes. -/
theorem Reads.length_arguments {count : Nat} {args : List Node} {c c' : Cursor}
    (h : Reads (.arguments count args) c c') : args.length = count := by
  induction count generalizing args c with
  | zero =>
      cases h
      rfl
  | succ count ih =>
      cases h with
      | missing _ hrest => exact congrArg (· + 1) (ih hrest)
      | argument _ _ hrest => exact congrArg (· + 1) (ih hrest)

/-- Operators behind a left operand leave everything as it is, or take at least one token. -/
theorem Reads.operators_cases {left node : Node} {bound : Bound} {force : Bool} {c c' : Cursor}
    (h : Reads (.operators left bound force node) c c') :
    c' = c ∧ Stops bound force c.rest ∨
      ∃ token rest, c.rest = token :: rest ∧ c'.rest <:+ rest := by
  cases h with
  | stop hstops => exact .inl ⟨rfl, hstops⟩
  | dot _ _ hargs hrest =>
      exact .inr ⟨_, _, rfl, hrest.suffix.trans (hargs.suffix.trans (List.suffix_cons _ _))⟩
  | zipWith _ hcombinator _ hright hrest =>
      exact .inr ⟨_, _, rfl, hrest.suffix.trans (hright.suffix.trans
        (hcombinator.suffix.trans (List.suffix_cons _ _)))⟩
  | binary _ _ _ hright hrest => exact .inr ⟨_, _, rfl, hrest.suffix.trans hright.suffix⟩
  | trailing _ _ hrest => exact .inr ⟨_, _, rfl, hrest.suffix⟩
  | base _ _ _ _ hrest => exact .inr ⟨_, _, rfl, hrest.suffix.trans (suffix_behind _ _ _)⟩

/-- A token that takes the item in front of it as its left operand spells an operator. -/
theorem exists_follower?_of_adopting {token : Token} {precedence : Nat}
    (h : adoptingPrecedence? token = some precedence) : ∃ o, token.follower? = some o := by
  unfold adoptingPrecedence? at h
  split at h
  · rename_i hsymbol
    have hkind : token.kind = .symbol := by simpa using (Bool.and_eq_true_iff.1 hsymbol).1
    rw [Token.follower?, if_pos hkind]
    cases hbinary : BinaryOp.ofSpelling? token.text with
    | some op => exact ⟨op.follower, rfl⟩
    | none =>
        cases htrailing : TrailingOp.ofSpelling? token.text with
        | some op => exact ⟨op.follower, rfl⟩
        | none => simp [hbinary, htrailing] at h
  · cases h

/-- An item takes at least its first token. -/
theorem Reads.item_progress {token first : Token} {siblings siblings' : List Sibling}
    {rest : List Token} {finish : Position} {calls : CallTable} {c : Cursor}
    (h : Reads (.item token siblings siblings') ⟨first :: rest, finish, calls⟩ c) :
    c.rest <:+ rest := by
  cases h with
  | fresh _ _ hread hprogress =>
      rcases List.suffix_cons_iff.1 hread.suffix with hsame | hsuffix
      · exact absurd (congrArg List.length hsame) hprogress
      · exact hsuffix
  -- The operator that takes the item before it is always taken, so the operators do not stop.
  | adopt _ hop _ hread =>
      rcases hread.operators_cases with ⟨-, hstops⟩ | ⟨_, _, heq, hsuffix⟩
      · obtain ⟨o, ho⟩ := exists_follower?_of_adopting hop
        exact absurd (hstops _ rfl o ho) (by simp)
      · obtain ⟨-, rfl⟩ := List.cons.inj heq
        exact hsuffix
  | fold _ _ _ harg hoperators => exact hoperators.suffix.trans harg.suffix
  | foldWith _ _ _ hread harg hoperators =>
      exact hoperators.suffix.trans (harg.suffix.trans hread.suffix)

/-- A token that neither closes the items nor is a comma starts an item. -/
theorem Reads.exists_next {closer : Option String} {siblings : List Sibling} {nodes : List Node}
    {token : Token} {rest : List Token} {finish : Position} {calls : CallTable} {c : Cursor}
    (h : Reads (.items closer siblings nodes) ⟨token :: rest, finish, calls⟩ c)
    (hclose : closer.any token.isSymbol = false) (hcomma : token.isSymbol "," = false) :
    ∃ siblings' c₁, Reads (.item token siblings siblings') ⟨token :: rest, finish, calls⟩ c₁ ∧
      Reads (.items closer siblings' nodes) c₁ c := by
  cases h with
  | close htoken =>
      rw [Option.any_some, htoken] at hclose
      cases hclose
  | comma _ hcomma' _ =>
      rw [hcomma] at hcomma'
      cases hcomma'
  | next _ _ hitem hrest => exact ⟨_, _, hitem, hrest⟩

/-- The first item is a fresh one, unless it is a fold. -/
theorem Reads.exists_first {closer : Option String} {nodes : List Node} {token : Token}
    {rest : List Token} {finish : Position} {calls : CallTable} {c : Cursor}
    (h : Reads (.items closer [] nodes) ⟨token :: rest, finish, calls⟩ c)
    (hclose : closer.any token.isSymbol = false) (hcomma : token.isSymbol "," = false)
    (hfold : token.isSymbol "\\" = false) :
    ∃ node c₁, Reads (.expression .lowest .item node) ⟨token :: rest, finish, calls⟩ c₁ ∧
      Reads (.items closer [⟨node, token :: rest, c₁.rest⟩] nodes) c₁ c := by
  obtain ⟨siblings', c₁, hitem, hrest⟩ := h.exists_next hclose hcomma
  cases hitem with
  | fresh _ _ hread _ => exact ⟨_, c₁, hread, hrest⟩
  | fold hfold' _ _ _ _ | foldWith hfold' _ _ _ _ _ =>
      rw [hfold] at hfold'
      cases hfold'

end Grammar

end Terse
