import Terse.Proofs.Derivation
import Terse.Proofs.Printing

/-!
# Reading does not depend on places

The grammar looks at what tokens are and how they are spelled, but not at where they stand.  So
tokens that are spelled alike are read alike: whatever is read from the one can be read from the
other, with a tree that differs only in its places.

## Strategy

The statement for a single rule is `Reading.Recurs`.  What a rule is given (a left operand, items
before it) may be moved in any way; what it finds is determined up to places.  `Recurring` says this
for every cursor that is like the one of the derivation, and it is shown by induction on the
derivation, with one lemma for each rule.

* Tokens that are spelled alike are taken apart in the same way (`Spelled.exists_cons`,
  `Spelled.exists_append`), and every test that the rules make gives the same answer for them.
* A rule leaves two cursors alike, so the next rule can be applied to where the first one ended.
* The combinator of a fold is read again from tokens of an item before.  So items that are alike
  have tokens that are spelled alike (`Sibling.Alike`), besides nodes that are the same up to
  places.

The result is used for wrapped programs, whose tokens all stand one column further.
-/

namespace Terse

section Unplaced

variable (position : Position)

@[simp] theorem Node.unplaced_text (text : String) (quote : Quote) :
    (Node.text text quote position).unplaced = .text text quote .start := rfl

@[simp] theorem Node.unplaced_numeral (text : String) :
    (Node.numeral text position).unplaced = .numeral text .start := rfl

@[simp] theorem Node.unplaced_call (name : String) (args : List Node) :
    (Node.call name args position).unplaced = .call name (args.map Node.unplaced) .start :=
  congrArg (Node.call name · .start) (unplacedAll_eq_map args)

@[simp] theorem Node.unplaced_define (name : String) (params : List Param) (body : Node) :
    (Node.define name params body position).unplaced =
      .define name (params.map fun param => ⟨param.name, .start⟩) body.unplaced .start := rfl

@[simp] theorem Program.unplaced_mk (items : List Node) :
    (⟨items, position⟩ : Program).unplaced = ⟨items.map Node.unplaced, .start⟩ :=
  congrArg (Program.mk · .start) (unplacedAll_eq_map items)

@[simp] theorem Block.unplaced_mk (param : String) (body : Program) :
    (⟨param, body, position⟩ : Block).unplaced = ⟨param, body.unplaced, .start⟩ := rfl

@[simp] theorem Extra.unplaced_none : Extra.none.unplaced = .none := rfl

@[simp] theorem Extra.unplaced_base (width : Nat) (codes : List BaseCode) :
    (Extra.base width codes).unplaced = .base width codes := rfl

@[simp] theorem Extra.unplaced_fold (map : Option Block) (combinator : Option Combinator) :
    (Extra.fold map combinator).unplaced =
      .fold (map.map Block.unplaced) (combinator.map Combinator.unplaced) := by
  cases map <;> cases combinator <;> rfl

end Unplaced

/-! ## Tokens that are spelled alike -/

/-- The tokens of two lists are spelled alike, whatever their places. -/
def Spelled (tokens' tokens : List Token) : Prop := tokens'.map Token.form = tokens.map Token.form

namespace Spelled

variable {tokens' tokens more' more : List Token}

theorem refl (tokens : List Token) : Spelled tokens tokens := rfl

theorem length_eq (h : Spelled tokens' tokens) : tokens'.length = tokens.length := by
  simpa using congrArg List.length h

theorem eq_nil (h : Spelled tokens' []) : tokens' = [] := List.map_eq_nil_iff.1 h

theorem cons (kind : Token.Kind) (text : String) (position' position : Position)
    (h : Spelled tokens' tokens) :
    Spelled (⟨kind, text, position'⟩ :: tokens') (⟨kind, text, position⟩ :: tokens) :=
  congrArg ((kind, text) :: ·) h

theorem append (h : Spelled tokens' tokens) (hmore : Spelled more' more) :
    Spelled (tokens' ++ more') (tokens ++ more) := by
  rw [Spelled, List.map_append, List.map_append, h, hmore]

theorem exists_cons {token : Token} (h : Spelled tokens' (token :: tokens)) :
    ∃ position rest', tokens' = ⟨token.kind, token.text, position⟩ :: rest' ∧
      Spelled rest' tokens :=
  exists_of_map_form h

theorem exists_append (h : Spelled tokens' (tokens ++ more)) :
    ∃ front behind, tokens' = front ++ behind ∧ Spelled front tokens ∧ Spelled behind more := by
  rw [Spelled, List.map_append] at h
  exact List.map_eq_append_iff.1 h

theorem exists_singleton {token : Token} (h : Spelled tokens' [token]) :
    ∃ position, tokens' = [⟨token.kind, token.text, position⟩] := by
  obtain ⟨position, rest', rfl, hrest⟩ := h.exists_cons
  exact ⟨position, by rw [hrest.eq_nil]⟩

/-- Whether there is a next token and what it is. -/
theorem any_head? (h : Spelled tokens' tokens) (test : Token → Bool)
    (htest : ∀ kind text position position',
      test ⟨kind, text, position⟩ = test ⟨kind, text, position'⟩) :
    tokens'.head?.any test = tokens.head?.any test := by
  cases tokens with
  | nil => rw [h.eq_nil]
  | cons token rest =>
      obtain ⟨position, rest', rfl, -⟩ := h.exists_cons
      exact htest _ _ _ _

theorem all_head? (h : Spelled tokens' tokens) (test : Token → Bool)
    (htest : ∀ kind text position position',
      test ⟨kind, text, position⟩ = test ⟨kind, text, position'⟩) :
    tokens'.head?.all test = tokens.head?.all test := by
  cases tokens with
  | nil => rw [h.eq_nil]
  | cons token rest =>
      obtain ⟨position, rest', rfl, -⟩ := h.exists_cons
      exact htest _ _ _ _

end Spelled

theorem ParamList.spelled {tokens' tokens : List Token} {params : List Param}
    (hparams : ParamList tokens params) (h : Spelled tokens' tokens) :
    ∃ params', ParamList tokens' params' ∧ params'.map (·.name) = params.map (·.name) := by
  induction hparams generalizing tokens' with
  | nil => exact ⟨[], h.eq_nil ▸ .nil, rfl⟩
  | comma position _ ih =>
      obtain ⟨position', rest', rfl, hrest⟩ := h.exists_cons
      obtain ⟨params', hparams', hnames⟩ := ih hrest
      exact ⟨params', .comma position' hparams', hnames⟩
  | name name position _ ih =>
      obtain ⟨position', rest', rfl, hrest⟩ := h.exists_cons
      obtain ⟨params', hparams', hnames⟩ := ih hrest
      exact ⟨_, .name name position' hparams', congrArg (name :: ·) hnames⟩

theorem Header.spelled {tokens' tokens : List Token} {params : List Param}
    (hheader : Header tokens params) (h : Spelled tokens' tokens) :
    ∃ params', Header tokens' params' ∧ params'.map (·.name) = params.map (·.name) := by
  cases hheader with
  | bare position =>
      obtain ⟨position', rfl⟩ := h.exists_singleton
      exact ⟨[], .bare position', rfl⟩
  | listed opening closing assign hparams =>
      obtain ⟨opening', inner, rfl, hinner⟩ := h.exists_cons
      obtain ⟨listed, behind, rfl, hlisted, hbehind⟩ := hinner.exists_append
      obtain ⟨closing', last, rfl, hlast⟩ := hbehind.exists_cons
      obtain ⟨assign', rfl⟩ := hlast.exists_singleton
      obtain ⟨params', hparams', hnames⟩ := hparams.spelled hlisted
      exact ⟨params', .listed opening' closing' assign' hparams', hnames⟩

namespace Grammar

theorem closesIntoDefinition_spelled {tokens' tokens : List Token} (h : Spelled tokens' tokens)
    (depth : Nat) : closesIntoDefinition depth tokens' = closesIntoDefinition depth tokens := by
  induction tokens generalizing tokens' depth with
  | nil => rw [h.eq_nil]
  | cons token rest ih =>
      -- The head of a definition is looked for by counting brackets, in step in both lists.
      obtain ⟨position, rest', rfl, hrest⟩ := h.exists_cons
      have hassign := hrest.any_head? (·.isSymbol ":=") fun _ _ _ _ => rfl
      unfold closesIntoDefinition
      simp only [ih hrest, hassign]
      rfl

theorem startsDefinition_spelled {tokens' tokens : List Token} (h : Spelled tokens' tokens) :
    startsDefinition tokens' = startsDefinition tokens := by
  have hcloses := closesIntoDefinition_spelled h 0
  cases tokens with
  | nil => rw [h.eq_nil]
  | cons token rest =>
      obtain ⟨position, rest', rfl, hrest⟩ := h.exists_cons
      simp only [startsDefinition, hcloses]
      rfl

theorem opensBlock_spelled {tokens' tokens : List Token} (h : Spelled tokens' tokens)
    (place : Place) : opensBlock place tokens' = opensBlock place tokens := by
  rw [opensBlock, opensBlock, h.any_head? _ fun _ _ _ _ => rfl]

theorem Stops.spelled {bound : Bound} {force : Bool} {tokens' tokens : List Token}
    (hstops : Stops bound force tokens) (h : Spelled tokens' tokens) :
    Stops bound force tokens' := by
  cases tokens with
  | nil =>
      rw [h.eq_nil]
      exact hstops
  | cons token rest =>
      obtain ⟨position, rest', rfl, -⟩ := h.exists_cons
      rintro _ ⟨⟩ o ho
      exact hstops token rfl o ho

theorem operandsAround_spelled {tokens' tokens : List Token} (h : Spelled tokens' tokens)
    (position' position : Position) :
    Spelled (operandsAround tokens' position') (operandsAround tokens position) :=
  .cons _ _ _ _ (h.append (.cons _ _ _ _ (.refl [])))

/-! ## Cursors and items that are alike -/

/-- Two cursors stand in front of tokens that are spelled alike, and know the same functions. -/
structure Cursor.Alike (c' c : Cursor) : Prop where
  rest : Spelled c'.rest c.rest
  calls : c'.calls = c.calls

theorem Cursor.Alike.exists_nil {c : Cursor} {finish : Position} {calls : CallTable}
    (h : c.Alike ⟨[], finish, calls⟩) : ∃ finish', c = ⟨[], finish', calls⟩ := by
  obtain ⟨rest, finish', calls'⟩ := c
  obtain ⟨hrest, rfl⟩ := h
  obtain rfl : rest = [] := hrest.eq_nil
  exact ⟨finish', rfl⟩

theorem Cursor.Alike.exists_cons {c : Cursor} {token : Token} {rest : List Token}
    {finish : Position} {calls : CallTable} (h : c.Alike ⟨token :: rest, finish, calls⟩) :
    ∃ position rest' finish',
      c = ⟨⟨token.kind, token.text, position⟩ :: rest', finish', calls⟩ ∧ Spelled rest' rest := by
  obtain ⟨tokens, finish', calls'⟩ := c
  obtain ⟨hrest, rfl⟩ := h
  obtain ⟨position, rest', rfl, hspelled⟩ := Spelled.exists_cons hrest
  exact ⟨position, rest', finish', rfl, hspelled⟩

/-- Two items that were read are alike. -/
structure Sibling.Alike (s' s : Sibling) : Prop where
  node : s'.node.unplaced = s.node.unplaced
  start : Spelled s'.start s.start
  stop : Spelled s'.stop s.stop

theorem Sibling.Alike.tokens {s' s : Sibling} (h : s'.Alike s) : Spelled s'.tokens s.tokens := by
  rw [Spelled, Sibling.tokens, Sibling.tokens, List.map_take, List.map_take, h.start,
    h.start.length_eq, h.stop.length_eq]

/-- Items that were read are alike, one by one. -/
abbrev AlikeAll : List Sibling → List Sibling → Prop := List.Forall₂ Sibling.Alike

theorem AlikeAll.nodes {siblings' siblings : List Sibling} (h : AlikeAll siblings' siblings) :
    (siblings'.map (·.node)).reverse.map Node.unplaced =
      (siblings.map (·.node)).reverse.map Node.unplaced := by
  rw [List.map_reverse, List.map_reverse]
  congr 1
  induction h with
  | nil => rfl
  | cons hfirst _ ih => simp only [List.map_cons, hfirst.node, ih]

theorem eq_block_of_unplaced {n : Node} {b : Block} (h : n.unplaced = (Node.block b).unplaced) :
    ∃ b', n = .block b' ∧ b'.unplaced = b.unplaced := by
  cases n with
  | block b' => exact ⟨b', rfl, Node.block.inj h⟩
  | _ => cases h

theorem adoptable_of_unplaced {n' n : Node} (h : n'.unplaced = n.unplaced) (precedence : Nat) :
    adoptable precedence n' = adoptable precedence n := by
  have hforget (n : Node) : adoptable precedence n.unplaced = adoptable precedence n := by
    cases n <;> rfl
  rw [← hforget, h, hforget]

theorem StandsAlone.alike {token : Token} {siblings' siblings : List Sibling}
    (halone : StandsAlone token siblings) (h : AlikeAll siblings' siblings) (position : Position) :
    StandsAlone ⟨token.kind, token.text, position⟩ siblings' := by
  intro precedence hprecedence previous hprevious
  cases h with
  | nil => cases hprevious
  | cons hfirst _ =>
      obtain rfl := Option.some.inj hprevious
      rw [adoptable_of_unplaced hfirst.node]
      exact halone precedence hprecedence _ rfl

/-- A fold takes a map from items that are alike. -/
theorem takeMap_alike {start' start start₁ : List Token}
    {siblings' siblings siblings₁ : List Sibling} {map : Option Block}
    (htake : takeMap start siblings = (map, start₁, siblings₁)) (hstart : Spelled start' start)
    (h : AlikeAll siblings' siblings) :
    ∃ map' start₁' siblings₁', takeMap start' siblings' = (map', start₁', siblings₁') ∧
      map'.map Block.unplaced = map.map Block.unplaced ∧ Spelled start₁' start₁ ∧
      AlikeAll siblings₁' siblings₁ := by
  -- Whether the last item is a block can be told without its places.
  rcases takeMap_cases htake with ⟨rfl, rfl, rfl⟩ | ⟨block, stop, rfl, rfl⟩
  · cases h with
    | nil => exact ⟨none, start', [], rfl, rfl, hstart, .nil⟩
    | @cons first' first rest' rest hfirst hrest =>
        refine ⟨none, start', first' :: rest', ?_, rfl, hstart, .cons hfirst hrest⟩
        obtain ⟨node', first', stop'⟩ := first'
        cases node' with
        | block b' =>
            obtain ⟨b, hb, -⟩ := eq_block_of_unplaced hfirst.node.symm
            obtain ⟨node, _, _⟩ := first
            obtain rfl : node = .block b := hb
            cases htake
        | _ => rfl
  · cases h with
    | @cons first' _ rest' _ hfirst hrest =>
        obtain ⟨b', hb', hunplaced⟩ := eq_block_of_unplaced hfirst.node
        obtain ⟨node', first', stop'⟩ := first'
        obtain rfl : node' = .block b' := hb'
        exact ⟨some b', first', rest', rfl, congrArg some hunplaced, hfirst.start, hrest⟩

/-- A fold takes a combinator from items that are alike, or none. -/
theorem takeCombinator_alike {start' start start₁ : List Token}
    {siblings' siblings siblings₁ : List Sibling} {tokens : Option (List Token)}
    (htake : takeCombinator start siblings = (tokens, start₁, siblings₁))
    (hstart : Spelled start' start) (h : AlikeAll siblings' siblings) :
    ∃ tokens' start₁' siblings₁', takeCombinator start' siblings' = (tokens', start₁', siblings₁') ∧
      Option.Rel Spelled tokens' tokens ∧ Spelled start₁' start₁ ∧
      AlikeAll siblings₁' siblings₁ := by
  cases h with
  | nil =>
      cases htake
      exact ⟨none, start', [], rfl, .none, hstart, .nil⟩
  | @cons first' first rest' rest hfirst hrest =>
      have hbinary := hfirst.start.any_head? isBinary fun _ _ _ _ => rfl
      simp only [takeCombinator] at htake ⊢
      rw [hbinary]
      split at htake
      · cases htake
        exact ⟨_, _, _, if_pos ‹_›, .some hfirst.tokens, hfirst.start, hrest⟩
      · cases htake
        exact ⟨_, _, _, if_neg ‹_›, .none, hstart, .cons hfirst hrest⟩

/-! ## Derivations elsewhere -/

/-- How an operand starts, without its places. -/
def Start.unplaced : Start → Start
  | .primary node => .primary node.unplaced
  | .closed node => .closed node.unplaced
  | .implicit node => .implicit node.unplaced

/-- From a cursor a rule reads what a reading says, places apart, and arrives at a cursor like
another one. -/
def Reading.Recurs (c c₁ : Cursor) : Reading → Prop
  | .expression bound place node => ∃ node' c', node'.unplaced = node.unplaced ∧ c'.Alike c₁ ∧
      Reads (.expression bound place node') c c'
  | .operators left bound force node => ∀ left', left'.unplaced = left.unplaced →
      ∃ node' c', node'.unplaced = node.unplaced ∧ c'.Alike c₁ ∧
        Reads (.operators left' bound force node') c c'
  | .items closer siblings nodes => ∀ siblings', AlikeAll siblings' siblings →
      ∃ nodes' c', nodes'.map Node.unplaced = nodes.map Node.unplaced ∧ c'.Alike c₁ ∧
        Reads (.items closer siblings' nodes') c c'
  | .item _ siblings after => ∀ token ∈ c.rest.head?, ∀ siblings', AlikeAll siblings' siblings →
      ∃ after' c', AlikeAll after' after ∧ c'.Alike c₁ ∧
        Reads (.item token siblings' after') c c'
  | .operand place start => ∃ start' c', start'.unplaced = start.unplaced ∧ c'.Alike c₁ ∧
      Reads (.operand place start') c c'
  | .arguments count args => ∃ args' c', args'.map Node.unplaced = args.map Node.unplaced ∧
      c'.Alike c₁ ∧ Reads (.arguments count args') c c'
  | .combinator tokens _ made => ∀ tokens', Spelled tokens' tokens → ∀ position,
      ∃ made' c', made'.unplaced = made.unplaced ∧ c'.Alike c₁ ∧
        Reads (.combinator tokens' position made') c c'

/-- A rule reads the same, places apart, wherever it stands in front of tokens that are spelled
alike. -/
def Recurring (reading : Reading) (c c₁ : Cursor) : Prop :=
  ∀ d : Cursor, d.Alike c → reading.Recurs d c₁

/-! Rules look at kinds and spellings of tokens; only the nodes that they make have places.  So
there is one lemma for each rule that uses others: its tokens are found again one by one, and what
the other rules read from there is put together as before. -/

namespace Recurring

variable {place : Place} {bound : Bound} {force : Bool} {name : String} {token : Token}
  {position position₁ finish : Position} {rest tokens : List Token} {calls : CallTable}
  {nodes args : List Node} {arg body first left right node : Node}
  {siblings siblings₁ siblings₂ : List Sibling} {combinator : Combinator} {count : Nat}
  {c c₁ c₂ c₃ : Cursor}

/-- The items between brackets, with no items before them. -/
theorem enclosed {closer : Option String}
    (h : Recurring (.items closer [] nodes) ⟨rest, finish, calls⟩ c) {rest' : List Token}
    (hrest : Spelled rest' rest) (finish' : Position) :
    ∃ nodes' d, nodes'.map Node.unplaced = nodes.map Node.unplaced ∧ d.Alike c ∧
      Reads (.items closer [] nodes') ⟨rest', finish', calls⟩ d :=
  h ⟨rest', finish', calls⟩ ⟨hrest, rfl⟩ [] .nil

/-! ### Operands -/

theorem call (hblock : opensBlock place rest = false) (hdefinition : startsDefinition rest = false)
    (hname : calls.find? name = some count)
    (hargs : Recurring (.arguments count args) ⟨rest, finish, calls⟩ c) :
    Recurring (.operand place (.primary (.call name args position)))
      ⟨⟨.name, name, position⟩ :: rest, finish, calls⟩ c := by
  intro d hd
  obtain ⟨position', rest', finish', rfl, hrest⟩ := hd.exists_cons
  obtain ⟨args', d₁, hargs', hd₁, hreads⟩ := hargs ⟨rest', finish', _⟩ ⟨hrest, rfl⟩
  rw [← opensBlock_spelled hrest] at hblock
  rw [← startsDefinition_spelled hrest] at hdefinition
  refine ⟨_, d₁, ?_, hd₁, .call hblock hdefinition hname hreads⟩
  simp [Start.unplaced, hargs']

theorem define {header : List Token} {params : List Param} (hheader : Header header params)
    (hbody : Recurring (.expression .lowest .operand body)
      ⟨rest, finish, calls.insert name params.length⟩ c) :
    Recurring (.operand place (.closed (.define name params body position)))
      ⟨⟨.name, name, position⟩ :: (header ++ rest), finish, calls⟩ c := by
  intro d hd
  obtain ⟨position', behind, finish', rfl, hbehind⟩ := hd.exists_cons
  obtain ⟨header', rest', rfl, hspelled, hrest⟩ := hbehind.exists_append
  obtain ⟨params', hheader', hnames⟩ := hheader.spelled hspelled
  obtain ⟨body', d₁, hbody', hd₁, hreads⟩ := hbody ⟨rest', finish', _⟩ ⟨hrest, rfl⟩
  -- The body is read with as many parameters under the name of the function.
  have hlength := congrArg List.length hnames
  rw [List.length_map, List.length_map] at hlength
  rw [← hlength] at hreads
  have hparams := congrArg (List.map fun name => Param.mk name .start) hnames
  simp only [List.map_map, Function.comp_def] at hparams
  refine ⟨_, d₁, ?_, hd₁, .define hheader' hreads⟩
  simp [Start.unplaced, hbody', hparams]

theorem namedBlock (hplace : place ≠ .right)
    (hbody : Recurring (.items (some "\x7d") [] nodes) ⟨rest, finish, calls⟩ c) :
    Recurring (.operand place (.closed (.block
        ⟨name, ⟨nodes, Cursor.position ⟨rest, finish, calls⟩⟩, position⟩)))
      ⟨⟨.name, name, position⟩ :: ⟨.symbol, "\x7b", position₁⟩ :: rest, finish, calls⟩ c := by
  intro d hd
  obtain ⟨position', behind, finish', rfl, hbehind⟩ := hd.exists_cons
  obtain ⟨brace, rest', rfl, hrest⟩ := hbehind.exists_cons
  obtain ⟨nodes', d₁, hnodes, hd₁, hreads⟩ := hbody.enclosed hrest finish'
  refine ⟨_, d₁, ?_, hd₁, .namedBlock hplace hreads⟩
  simp [Start.unplaced, hnodes]

theorem block (hplace : place ≠ .right)
    (hbody : Recurring (.items (some "\x7d") [] nodes) ⟨rest, finish, calls⟩ c) :
    Recurring (.operand place (.closed (.block
        ⟨implicitName, ⟨nodes, Cursor.position ⟨rest, finish, calls⟩⟩, position⟩)))
      ⟨⟨.symbol, "\x7b", position⟩ :: rest, finish, calls⟩ c := by
  intro d hd
  obtain ⟨position', rest', finish', rfl, hrest⟩ := hd.exists_cons
  obtain ⟨nodes', d₁, hnodes, hd₁, hreads⟩ := hbody.enclosed hrest finish'
  refine ⟨_, d₁, ?_, hd₁, .block hplace hreads⟩
  simp [Start.unplaced, hnodes]

theorem group (hbody : Recurring (.items (some ")") [] nodes) ⟨rest, finish, calls⟩ c) :
    Recurring (.operand place (.primary (.group
        ⟨nodes, Cursor.position ⟨rest, finish, calls⟩⟩ position)))
      ⟨⟨.symbol, "(", position⟩ :: rest, finish, calls⟩ c := by
  intro d hd
  obtain ⟨position', rest', finish', rfl, hrest⟩ := hd.exists_cons
  obtain ⟨nodes', d₁, hnodes, hd₁, hreads⟩ := hbody.enclosed hrest finish'
  refine ⟨_, d₁, ?_, hd₁, .group hreads⟩
  simp [Start.unplaced, hnodes]

theorem array (hbody : Recurring (.items (some "]") [] nodes) ⟨rest, finish, calls⟩ c)
    (hblocks : nodes.countP Node.isBlock ≤ 1) :
    Recurring (.operand place (.primary (.array
        ⟨nodes, Cursor.position ⟨rest, finish, calls⟩⟩ position)))
      ⟨⟨.symbol, "[", position⟩ :: rest, finish, calls⟩ c := by
  intro d hd
  obtain ⟨position', rest', finish', rfl, hrest⟩ := hd.exists_cons
  obtain ⟨nodes', d₁, hnodes, hd₁, hreads⟩ := hbody.enclosed hrest finish'
  rw [← countP_isBlock_of_unplaced hnodes] at hblocks
  refine ⟨_, d₁, ?_, hd₁, .array hreads hblocks⟩
  simp [Start.unplaced, hnodes]

theorem leading {op : LeadingOp} (hop : op.plain = true)
    (harg : Recurring (.expression (.level op.precedence) .operand arg) ⟨rest, finish, calls⟩ c) :
    Recurring (.operand place (.primary (.leading op arg .none position)))
      ⟨op.token position :: rest, finish, calls⟩ c := by
  intro d hd
  obtain ⟨position', rest', finish', rfl, hrest⟩ := hd.exists_cons
  obtain ⟨arg', d₁, harg', hd₁, hreads⟩ := harg ⟨rest', finish', _⟩ ⟨hrest, rfl⟩
  refine ⟨_, d₁, ?_, hd₁, .leading hop hreads⟩
  simp [Start.unplaced, harg']

theorem filter {op : LeadingOp} {param : String} {naming : List Token}
    (hop : op = .filter ∨ op = .any)
    (hnaming : naming = [] ∧ param = implicitName ∨
      ∃ namePosition, naming = [⟨.name, param, namePosition⟩])
    (hbody : Recurring (.items (some "\x7d") [] nodes) ⟨rest, finish, calls⟩ c₁)
    (harg : Recurring (.expression (.level op.precedence) .operand arg) c₁ c₂) :
    Recurring (.operand place (.primary (.leading op arg (.filter
        ⟨param, ⟨nodes, Cursor.position ⟨rest, finish, calls⟩⟩, position₁⟩) position)))
      ⟨op.token position :: (naming ++ ⟨.symbol, "\x7b", position₁⟩ :: rest), finish, calls⟩
      c₂ := by
  intro d hd
  obtain ⟨position', behind, finish', rfl, hbehind⟩ := hd.exists_cons
  obtain ⟨naming', more, rfl, hnaming', hmore⟩ := hbehind.exists_append
  obtain ⟨brace, rest', rfl, hrest⟩ := hmore.exists_cons
  -- The parameter is named in both places, or in neither.
  have hparam : naming' = [] ∧ param = implicitName ∨
      ∃ namePosition, naming' = [⟨.name, param, namePosition⟩] := by
    rcases hnaming with ⟨rfl, hparam⟩ | ⟨namePosition, rfl⟩
    · exact .inl ⟨hnaming'.eq_nil, hparam⟩
    · exact .inr hnaming'.exists_singleton
  obtain ⟨nodes', d₁, hnodes, hd₁, hbody'⟩ := hbody.enclosed hrest finish'
  obtain ⟨arg', d₂, harg', hd₂, hreads⟩ := harg d₁ hd₁
  refine ⟨_, d₂, ?_, hd₂, .filter hop hparam hbody' hreads⟩
  simp [Start.unplaced, harg', hnodes]

/-! ### Arguments and expressions -/

theorem missing (hboundary : c.rest.head?.all isCloser = true)
    (hrest : Recurring (.arguments count args) c c₁) :
    Recurring (.arguments (count + 1) (.implicit c.position :: args)) c c₁ := by
  intro d hd
  obtain ⟨args', d₁, hargs, hd₁, hreads⟩ := hrest d hd
  rw [← hd.rest.all_head? _ fun _ _ _ _ => rfl] at hboundary
  refine ⟨_, d₁, ?_, hd₁, .missing hboundary hreads⟩
  exact congrArg (Node.implicit .start :: ·) hargs

theorem argument (hboundary : c.rest.head?.all isCloser = false)
    (harg : Recurring (.expression .highest .argument arg) c c₁)
    (hrest : Recurring (.arguments count args) c₁ c₂) :
    Recurring (.arguments (count + 1) (arg :: args)) c c₂ := by
  intro d hd
  obtain ⟨arg', d₁, harg', hd₁, hreads⟩ := harg d hd
  obtain ⟨args', d₂, hargs, hd₂, hmore⟩ := hrest d₁ hd₁
  rw [← hd.rest.all_head? _ fun _ _ _ _ => rfl] at hboundary
  refine ⟨_, d₂, ?_, hd₂, .argument hboundary hreads hmore⟩
  rw [List.map_cons, List.map_cons, harg', hargs]

theorem closed (hoperand : Recurring (.operand place (.closed node)) c c₁) :
    Recurring (.expression bound place node) c c₁ := by
  intro d hd
  obtain ⟨start', d₁, hstart, hd₁, hreads⟩ := hoperand d hd
  cases start' with
  | closed node' => exact ⟨node', d₁, Start.closed.inj hstart, hd₁, .closed hreads⟩
  | primary | implicit => cases hstart

theorem primary (hoperand : Recurring (.operand place (.primary first)) c c₁)
    (hoperators : Recurring (.operators first bound false node) c₁ c₂) :
    Recurring (.expression bound place node) c c₂ := by
  intro d hd
  obtain ⟨start', d₁, hstart, hd₁, hreads⟩ := hoperand d hd
  cases start' with
  | primary first' =>
      obtain ⟨node', d₂, hnode, hd₂, hmore⟩ := hoperators d₁ hd₁ first' (Start.primary.inj hstart)
      exact ⟨node', d₂, hnode, hd₂, .primary hreads hmore⟩
  | closed | implicit => cases hstart

theorem implicit (hoperand : Recurring (.operand place (.implicit first)) c c₁)
    (hoperators : Recurring (.operators first bound true node) c₁ c₂) :
    Recurring (.expression bound place node) c c₂ := by
  intro d hd
  obtain ⟨start', d₁, hstart, hd₁, hreads⟩ := hoperand d hd
  cases start' with
  | implicit first' =>
      obtain ⟨node', d₂, hnode, hd₂, hmore⟩ := hoperators d₁ hd₁ first' (Start.implicit.inj hstart)
      exact ⟨node', d₂, hnode, hd₂, .implicit hreads hmore⟩
  | primary | closed => cases hstart

/-! ### Operators behind a left operand -/

theorem dot (htaken : (force || bound.admits BinaryOp.call.precedence BinaryOp.call.chains) = true)
    (hname : calls.find? name = some (count + 1))
    (hargs : Recurring (.arguments count args) ⟨rest, finish, calls⟩ c₁)
    (hrest : Recurring (.operators (.binary .call left (.call name args position₁) .none position)
      bound false node) c₁ c₂) :
    Recurring (.operators left bound force node)
      ⟨BinaryOp.call.token position :: ⟨.name, name, position₁⟩ :: rest, finish, calls⟩ c₂ := by
  intro d hd left' hleft
  obtain ⟨position', behind, finish', rfl, hbehind⟩ := hd.exists_cons
  obtain ⟨position₁', rest', rfl, hspelled⟩ := hbehind.exists_cons
  obtain ⟨args', d₁, hargs', hd₁, hreads⟩ := hargs ⟨rest', finish', _⟩ ⟨hspelled, rfl⟩
  obtain ⟨node', d₂, hnode, hd₂, hmore⟩ := hrest d₁ hd₁
    (.binary .call left' (.call name args' position₁') .none position')
    (by simp [hleft, hargs'])
  exact ⟨node', d₂, hnode, hd₂, .dot htaken hname hreads hmore⟩

theorem zipWith {op : BinaryOp}
    (htaken : (force || bound.admits BinaryOp.zip.precedence BinaryOp.zip.chains) = true)
    (hcombinator : Recurring (.combinator [op.token position₁] position combinator)
      ⟨rest, finish, calls⟩ c₁)
    (hboundary : c₁.rest.head?.all isCloser = false)
    (hright : Recurring (.expression (.level BinaryOp.zip.precedence) .right right) c₁ c₂)
    (hrest : Recurring (.operators (.binary .zip left right (.zip combinator) position) bound false
      node) c₂ c₃) :
    Recurring (.operators left bound force node)
      ⟨BinaryOp.zip.token position :: op.token position₁ :: rest, finish, calls⟩ c₃ := by
  intro d hd left' hleft
  obtain ⟨position', behind, finish', rfl, hbehind⟩ := hd.exists_cons
  obtain ⟨position₁', rest', rfl, hspelled⟩ := hbehind.exists_cons
  -- The combinator is made at the place of the zip, which has moved as well.
  obtain ⟨made', d₁, hmade, hd₁, hmake⟩ := hcombinator ⟨rest', finish', _⟩ ⟨hspelled, rfl⟩
    [op.token position₁'] rfl position'
  obtain ⟨right', d₂, hright', hd₂, hreads⟩ := hright d₁ hd₁
  obtain ⟨node', d₃, hnode, hd₃, hmore⟩ := hrest d₂ hd₂
    (.binary .zip left' right' (.zip made') position') (by simp [hleft, hright', hmade])
  rw [← hd₁.rest.all_head? _ fun _ _ _ _ => rfl] at hboundary
  exact ⟨node', d₃, hnode, hd₃, .zipWith htaken hmake hboundary hreads hmore⟩

theorem binary {op : BinaryOp} (htaken : (force || bound.admits op.precedence op.chains) = true)
    (hcall : op ≠ .call) (hzip : op = .zip → rest.head?.any isBinary = false)
    (hright : Recurring (.expression (.level op.precedence) .right right) ⟨rest, finish, calls⟩ c₁)
    (hrest : Recurring (.operators (.binary op left right .none position) bound false node) c₁ c₂) :
    Recurring (.operators left bound force node) ⟨op.token position :: rest, finish, calls⟩
      c₂ := by
  intro d hd left' hleft
  obtain ⟨position', rest', finish', rfl, hspelled⟩ := hd.exists_cons
  obtain ⟨right', d₁, hright', hd₁, hreads⟩ := hright ⟨rest', finish', _⟩ ⟨hspelled, rfl⟩
  obtain ⟨node', d₂, hnode, hd₂, hmore⟩ := hrest d₁ hd₁
    (.binary op left' right' .none position') (by simp [hleft, hright'])
  rw [← hspelled.any_head? _ fun _ _ _ _ => rfl] at hzip
  exact ⟨node', d₂, hnode, hd₂, .binary htaken hcall hzip hreads hmore⟩

theorem trailing {op : TrailingOp} (htaken : (force || bound.admits op.precedence true) = true)
    (hop : op.plain = true)
    (hrest : Recurring (.operators (.trailing op left .none position) bound false node)
      ⟨rest, finish, calls⟩ c) :
    Recurring (.operators left bound force node) ⟨op.token position :: rest, finish, calls⟩ c := by
  intro d hd left' hleft
  obtain ⟨position', rest', finish', rfl, hspelled⟩ := hd.exists_cons
  obtain ⟨node', d₁, hnode, hd₁, hreads⟩ := hrest ⟨rest', finish', _⟩ ⟨hspelled, rfl⟩
    (.trailing op left' .none position') (by simp [hleft])
  exact ⟨node', d₁, hnode, hd₁, .trailing htaken hop hreads⟩

theorem base {spelling word : String} {width : Nat} {codes : List BaseCode} {numerals : List Token}
    (htaken : (force || bound.admits TrailingOp.base.precedence true) = true)
    (hop : TrailingOp.ofSpelling? spelling = some .base)
    (hwidth : numerals = [] ∧ width = 0 ∨ ∃ digits widthPosition,
      numerals = [⟨.numeral, digits, widthPosition⟩] ∧ readWidth? digits = some width)
    (hcodes : word.toList.mapM BaseCode.ofChar? = some codes)
    (hrest : Recurring (.operators (.trailing .base left (.base width codes) position) bound false
      node) ⟨rest, finish, calls⟩ c) :
    Recurring (.operators left bound force node)
      ⟨⟨.symbol, spelling, position⟩ :: (numerals ++ ⟨.name, word, position₁⟩ :: rest), finish,
        calls⟩ c := by
  intro d hd left' hleft
  obtain ⟨position', behind, finish', rfl, hbehind⟩ := hd.exists_cons
  obtain ⟨numerals', more, rfl, hnumerals, hmore⟩ := hbehind.exists_append
  obtain ⟨position₁', rest', rfl, hspelled⟩ := hmore.exists_cons
  obtain ⟨node', d₁, hnode, hd₁, hreads⟩ := hrest ⟨rest', finish', _⟩ ⟨hspelled, rfl⟩
    (.trailing .base left' (.base width codes) position') (by simp [hleft])
  refine ⟨node', d₁, hnode, hd₁, .base htaken hop ?_ hcodes hreads⟩
  rcases hwidth with ⟨rfl, hzero⟩ | ⟨digits, widthPosition, rfl, hdigits⟩
  · exact .inl ⟨hnumerals.eq_nil, hzero⟩
  · obtain ⟨widthPosition', hnumeral⟩ := hnumerals.exists_singleton
    exact .inr ⟨digits, widthPosition', hnumeral, hdigits⟩

/-! ### Items -/

theorem comma {closer : Option String} (hclose : closer.any token.isSymbol = false)
    (hcomma : token.isSymbol "," = true)
    (hrest : Recurring (.items closer siblings nodes) ⟨rest, finish, calls⟩ c) :
    Recurring (.items closer siblings nodes) ⟨token :: rest, finish, calls⟩ c := by
  intro d hd siblings' hsiblings
  obtain ⟨position', rest', finish', rfl, hspelled⟩ := hd.exists_cons
  obtain ⟨nodes', d₁, hnodes, hd₁, hreads⟩ :=
    hrest ⟨rest', finish', _⟩ ⟨hspelled, rfl⟩ siblings' hsiblings
  exact ⟨nodes', d₁, hnodes, hd₁, .comma hclose hcomma hreads⟩

theorem next {closer : Option String} (hclose : closer.any token.isSymbol = false)
    (hcomma : token.isSymbol "," = false)
    (hitem : Recurring (.item token siblings siblings₁) ⟨token :: rest, finish, calls⟩ c₁)
    (hrest : Recurring (.items closer siblings₁ nodes) c₁ c₂) :
    Recurring (.items closer siblings nodes) ⟨token :: rest, finish, calls⟩ c₂ := by
  intro d hd siblings' hsiblings
  obtain ⟨position', rest', finish', rfl, -⟩ := hd.exists_cons
  obtain ⟨after', d₁, hafter, hd₁, hitem'⟩ := hitem _ hd _ rfl siblings' hsiblings
  obtain ⟨nodes', d₂, hnodes, hd₂, hreads⟩ := hrest d₁ hd₁ after' hafter
  exact ⟨nodes', d₂, hnodes, hd₂, .next hclose hcomma hitem' hreads⟩

theorem fresh (hfold : token.isSymbol "\\" = false) (halone : StandsAlone token siblings)
    (hread : Recurring (.expression .lowest .item node) ⟨token :: rest, finish, calls⟩ c)
    (hprogress : c.rest.length ≠ (token :: rest).length) :
    Recurring (.item token siblings (⟨node, token :: rest, c.rest⟩ :: siblings))
      ⟨token :: rest, finish, calls⟩ c := by
  intro d hd token' htoken siblings' hsiblings
  obtain ⟨position', rest', finish', rfl, -⟩ := hd.exists_cons
  obtain rfl := Option.some.inj htoken
  obtain ⟨node', d₁, hnode, hd₁, hreads⟩ := hread _ hd
  refine ⟨_, d₁, .cons ⟨hnode, hd.rest, hd₁.rest⟩ hsiblings, hd₁,
    .fresh hfold (halone.alike hsiblings position') hreads ?_⟩
  rw [hd₁.rest.length_eq, hd.rest.length_eq]
  exact hprogress

theorem adopt {previous : Sibling} {others : List Sibling} {precedence : Nat}
    (hfold : token.isSymbol "\\" = false) (hop : adoptingPrecedence? token = some precedence)
    (hadopt : adoptable precedence previous.node = true)
    (hread : Recurring (.operators previous.node .lowest true node)
      ⟨token :: rest, finish, calls⟩ c) :
    Recurring (.item token (previous :: others) (⟨node, previous.start, c.rest⟩ :: others))
      ⟨token :: rest, finish, calls⟩ c := by
  intro d hd token' htoken siblings' hsiblings
  obtain ⟨position', rest', finish', rfl, -⟩ := hd.exists_cons
  obtain rfl := Option.some.inj htoken
  cases hsiblings with
  | @cons previous' _ others' _ hprevious hothers =>
      obtain ⟨node', d₁, hnode, hd₁, hreads⟩ := hread _ hd previous'.node hprevious.node
      rw [← adoptable_of_unplaced hprevious.node] at hadopt
      exact ⟨⟨node', previous'.start, d₁.rest⟩ :: others', d₁,
        .cons ⟨hnode, hprevious.start, hd₁.rest⟩ hothers, hd₁,
        .adopt hfold (by exact hop) hadopt hreads⟩

theorem fold {map : Option Block} {start₁ start₂ : List Token} (hfold : token.isSymbol "\\" = true)
    (hmap : takeMap (token :: rest) siblings = (map, start₁, siblings₁))
    (hcombinator : takeCombinator start₁ siblings₁ = (none, start₂, siblings₂))
    (harg : Recurring (.expression (.level 0) .operand arg) ⟨rest, finish, calls⟩ c₁)
    (hoperators : Recurring (.operators (.leading .fold arg (.fold map none) token.position)
      .lowest false node) c₁ c₂) :
    Recurring (.item token siblings (⟨node, start₂, c₂.rest⟩ :: siblings₂))
      ⟨token :: rest, finish, calls⟩ c₂ := by
  intro d hd token' htoken siblings' hsiblings
  obtain ⟨position', rest', finish', rfl, hspelled⟩ := hd.exists_cons
  obtain rfl := Option.some.inj htoken
  obtain ⟨map', start₁', siblings₁', hmap', hunplaced, hstart₁, hsiblings₁⟩ :=
    takeMap_alike hmap hd.rest hsiblings
  obtain ⟨tokens', start₂', siblings₂', hcombinator', htokens, hstart₂, hsiblings₂⟩ :=
    takeCombinator_alike hcombinator hstart₁ hsiblings₁
  cases htokens
  obtain ⟨arg', d₁, harg', hd₁, hreads⟩ := harg ⟨rest', finish', _⟩ ⟨hspelled, rfl⟩
  obtain ⟨node', d₂, hnode, hd₂, hmore⟩ := hoperators d₁ hd₁
    (.leading .fold arg' (.fold map' none) position') (by simp [harg', hunplaced])
  exact ⟨_, d₂, .cons ⟨hnode, hstart₂, hd₂.rest⟩ hsiblings₂, hd₂,
    .fold hfold hmap' hcombinator' hreads hmore⟩

theorem foldWith {map : Option Block} {start₁ start₂ : List Token}
    (hfold : token.isSymbol "\\" = true)
    (hmap : takeMap (token :: rest) siblings = (map, start₁, siblings₁))
    (hcombinator : takeCombinator start₁ siblings₁ = (some tokens, start₂, siblings₂))
    (hread : Recurring (.combinator tokens token.position combinator) ⟨rest, finish, calls⟩ c₁)
    (harg : Recurring (.expression (.level 0) .operand arg) c₁ c₂)
    (hoperators : Recurring (.operators (.leading .fold arg (.fold map (some combinator))
      token.position) .lowest false node) c₂ c₃) :
    Recurring (.item token siblings (⟨node, start₂, c₃.rest⟩ :: siblings₂))
      ⟨token :: rest, finish, calls⟩ c₃ := by
  intro d hd token' htoken siblings' hsiblings
  obtain ⟨position', rest', finish', rfl, hspelled⟩ := hd.exists_cons
  obtain rfl := Option.some.inj htoken
  obtain ⟨map', start₁', siblings₁', hmap', hunplaced, hstart₁, hsiblings₁⟩ :=
    takeMap_alike hmap hd.rest hsiblings
  obtain ⟨tokens', start₂', siblings₂', hcombinator', htokens, hstart₂, hsiblings₂⟩ :=
    takeCombinator_alike hcombinator hstart₁ hsiblings₁
  -- The item of the combinator has moved with its tokens.
  cases htokens with
  | some htokens =>
      obtain ⟨made', d₁, hmade, hd₁, hmake⟩ :=
        hread ⟨rest', finish', _⟩ ⟨hspelled, rfl⟩ _ htokens position'
      obtain ⟨arg', d₂, harg', hd₂, hreads⟩ := harg d₁ hd₁
      obtain ⟨node', d₃, hnode, hd₃, hmore⟩ := hoperators d₂ hd₂
        (.leading .fold arg' (.fold map' (some made')) position')
        (by simp [harg', hunplaced, hmade])
      exact ⟨_, d₃, .cons ⟨hnode, hstart₂, hd₃.rest⟩ hsiblings₂, hd₃,
        .foldWith hfold hmap' hcombinator' hmake hreads hmore⟩

/-- A combinator has tokens of its own, which are spelled alike between the names of its
operands. -/
theorem ofCombinator {expr : Node} (hread : Recurring (.items none [] [expr])
      ⟨operandsAround tokens position, position, c.calls⟩ c₁) :
    Recurring (.combinator tokens position ⟨expr, position⟩) c { c with calls := c₁.calls } := by
  intro d hd tokens' htokens position'
  obtain ⟨nodes', d₁, hnodes, hd₁, hreads⟩ :=
    hread ⟨operandsAround tokens' position', position', d.calls⟩
      ⟨operandsAround_spelled htokens _ _, hd.calls⟩ [] .nil
  obtain ⟨expr', rfl, hexpr⟩ := List.map_eq_singleton_iff.1 hnodes
  refine ⟨⟨expr', position'⟩, { d with calls := d₁.calls }, ?_, ⟨hd.rest, hd₁.calls⟩,
    .combinator hreads⟩
  exact congrArg (Combinator.mk · .start) hexpr

end Recurring

/-- What a rule reads from some tokens, it reads from tokens that are spelled alike. -/
theorem Reads.recurs {reading : Reading} {c c₁ : Cursor} (h : Reads reading c c₁) :
    Recurring reading c c₁ := by
  induction h with
  -- Operands.
  | absent =>
      intro d hd
      obtain ⟨finish, rfl⟩ := hd.exists_nil
      exact ⟨_, _, by rfl, hd, .absent⟩
  | standIn htoken =>
      intro d hd
      obtain ⟨position, rest', finish, rfl, hrest⟩ := hd.exists_cons
      exact ⟨_, _, by rfl, hd, .standIn ⟨htoken.symbol, htoken.cases⟩⟩
  | text =>
      intro d hd
      obtain ⟨position, rest', finish, rfl, hrest⟩ := hd.exists_cons
      exact ⟨_, ⟨rest', finish, _⟩, by rfl, ⟨hrest, rfl⟩, .text⟩
  | numeral =>
      intro d hd
      obtain ⟨position, rest', finish, rfl, hrest⟩ := hd.exists_cons
      exact ⟨_, ⟨rest', finish, _⟩, by rfl, ⟨hrest, rfl⟩, .numeral⟩
  | var hblock hdefinition hname =>
      intro d hd
      obtain ⟨position, rest', finish, rfl, hrest⟩ := hd.exists_cons
      rw [← opensBlock_spelled hrest] at hblock
      rw [← startsDefinition_spelled hrest] at hdefinition
      exact ⟨_, ⟨rest', finish, _⟩, by rfl, ⟨hrest, rfl⟩, .var hblock hdefinition hname⟩
  | call hblock hdefinition hname _ ih => exact .call hblock hdefinition hname ih
  | define hheader _ ih => exact .define hheader ih
  | namedBlock hplace _ ih => exact .namedBlock hplace ih
  | block hplace _ ih => exact .block hplace ih
  | group _ ih => exact .group ih
  | array _ hblocks ih => exact .array ih hblocks
  | leading hop _ ih => exact .leading hop ih
  | filter hop hnaming _ _ ihbody iharg => exact .filter hop hnaming ihbody iharg
  -- Arguments and expressions.
  | noArguments => exact fun d hd => ⟨[], d, rfl, hd, .noArguments⟩
  | missing hboundary _ ih => exact .missing hboundary ih
  | argument hboundary _ _ iharg ihrest => exact .argument hboundary iharg ihrest
  | closed _ ih => exact .closed ih
  | primary _ _ ihoperand ihoperators => exact .primary ihoperand ihoperators
  | implicit _ _ ihoperand ihoperators => exact .implicit ihoperand ihoperators
  -- Operators behind a left operand.
  | stop hstops =>
      intro d hd left' hleft
      exact ⟨left', d, hleft, hd, .stop (hstops.spelled hd.rest)⟩
  | dot htaken hname _ _ ihargs ihrest => exact .dot htaken hname ihargs ihrest
  | zipWith htaken _ hboundary _ _ ihcombinator ihright ihrest =>
      exact .zipWith htaken ihcombinator hboundary ihright ihrest
  | binary htaken hcall hzip _ _ ihright ihrest => exact .binary htaken hcall hzip ihright ihrest
  | trailing htaken hop _ ih => exact .trailing htaken hop ih
  | base htaken hop hwidth hcodes _ ih => exact .base htaken hop hwidth hcodes ih
  -- Items.
  | done =>
      intro d hd siblings' hsiblings
      obtain ⟨finish, rfl⟩ := hd.exists_nil
      exact ⟨_, _, hsiblings.nodes, hd, .done⟩
  | close htoken =>
      intro d hd siblings' hsiblings
      obtain ⟨position, rest', finish, rfl, hrest⟩ := hd.exists_cons
      exact ⟨_, ⟨rest', finish, _⟩, hsiblings.nodes, ⟨hrest, rfl⟩, .close htoken⟩
  | comma hclose hcomma _ ih => exact .comma hclose hcomma ih
  | next hclose hcomma _ _ ihitem ihrest => exact .next hclose hcomma ihitem ihrest
  | fresh hfold halone _ hprogress ih => exact .fresh hfold halone ih hprogress
  | adopt hfold hop hadopt _ ih => exact .adopt hfold hop hadopt ih
  | fold hfold hmap hcombinator _ _ iharg ihoperators =>
      exact .fold hfold hmap hcombinator iharg ihoperators
  | foldWith hfold hmap hcombinator _ _ _ ihread iharg ihoperators =>
      exact .foldWith hfold hmap hcombinator ihread iharg ihoperators
  | combinator _ ih => exact .ofCombinator ih

end Grammar

end Terse
