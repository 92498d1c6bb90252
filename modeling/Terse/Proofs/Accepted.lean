import Terse.Proofs.Depth
import Terse.Proofs.Walk

/-!
# Trees that the grammar builds

`Node.Built` lists the shapes of nodes that reading can give: which operators carry what, which
nodes can be left and right operands, and how many arguments a call has.  The last part refers to a
signature, a relation between names and numbers of arguments.  If it contains the table of known
functions and the heads of all definitions in the tokens, then everything that is read is built
according to it (`parse_built`), also the combinators of folds, which are read from tokens that were
read before.

## Strategy

By induction on the derivation, with one lemma of `Builds` for each rule.  Three invariants are
carried along:

* the table of known functions stays within the signature (`Listed`);
* the tokens that are left define only functions of the signature (`Fits`), which holds of every
  suffix of tokens of which it holds;
* the items that were read keep the tokens they started with (`Kept`), because a fold may read them
  again as its combinator.

For such a combinator the names of two operands are put around the tokens.  These could in principle
complete the head of a definition that is not there in the program.  They do not: a head starts with
a symbol that is not a binary operator, whereas the tokens of a combinator start with a binary
operator, and it ends with a symbol, whereas the last token is a name (`defines_of_operandsAround`).
-/

namespace Terse

/-- Whether a node is a fold. -/
def Node.isFold : Node → Bool
  | .leading .fold _ _ _ => true
  | _ => false

/-- A tree that the grammar builds, where functions have numbers of arguments according to a
signature. -/
inductive Node.Built (signature : String → Nat → Prop) : Node → Prop where
  | text (text : String) (quote : Quote) (position : Position) :
      Built signature (.text text quote position)
  | numeral (text : String) (position : Position) : Built signature (.numeral text position)
  | var (name : String) (position : Position) : Built signature (.var name position)
  | call {name : String} {args : List Node} (position : Position)
      (hname : signature name args.length) (hargs : ∀ arg ∈ args, Built signature arg) :
      Built signature (.call name args position)
  | define {name : String} {params : List Param} {body : Node} (position : Position)
      (hname : signature name params.length) (hbody : Built signature body) :
      Built signature (.define name params body position)
  | group {body : Program} (position : Position) (hbody : ∀ n ∈ body.items, Built signature n) :
      Built signature (.group body position)
  | block {b : Block} (hbody : ∀ n ∈ b.body.items, Built signature n) :
      Built signature (.block b)
  | array {body : Program} (position : Position) (hbody : ∀ n ∈ body.items, Built signature n)
      (hblocks : body.items.countP Node.isBlock ≤ 1) : Built signature (.array body position)
  | leading {op : LeadingOp} {arg : Node} (position : Position) (hop : op.plain = true)
      (harg : Built signature arg) : Built signature (.leading op arg .none position)
  | filter {op : LeadingOp} {arg : Node} {b : Block} (position : Position)
      (hop : op = .filter ∨ op = .any) (hbody : ∀ n ∈ b.body.items, Built signature n)
      (harg : Built signature arg) : Built signature (.leading op arg (.filter b) position)
  | fold {arg : Node} {map : Option Block} {combinator : Option Combinator} (position : Position)
      (hmap : ∀ b ∈ map, ∀ n ∈ b.body.items, Built signature n)
      (hcombinator : ∀ c ∈ combinator, Built signature c.expr) (harg : Built signature arg) :
      Built signature (.leading .fold arg (.fold map combinator) position)
  | dot {left : Node} {name : String} {args : List Node} (callPosition position : Position)
      (hname : signature name (args.length + 1)) (hargs : ∀ arg ∈ args, Built signature arg)
      (hleft : Built signature left) (hopen : left.canBeLeft = true) :
      Built signature (.binary .call left (.call name args callPosition) .none position)
  | zipWith {left right : Node} {c : Combinator} (position : Position)
      (hcombinator : Built signature c.expr) (hleft : Built signature left)
      (hopen : left.canBeLeft = true) (hright : Built signature right)
      (hblock : right.isBlock = false) (hfold : right.isFold = false) :
      Built signature (.binary .zip left right (.zip c) position)
  | binary {op : BinaryOp} {left right : Node} (position : Position) (hop : op ≠ .call)
      (hleft : Built signature left) (hopen : left.canBeLeft = true)
      (hright : Built signature right) (hblock : right.isBlock = false)
      (hfold : right.isFold = false) : Built signature (.binary op left right .none position)
  | trailing {op : TrailingOp} {arg : Node} (position : Position) (hop : op.plain = true)
      (harg : Built signature arg) (hopen : arg.canBeLeft = true) :
      Built signature (.trailing op arg .none position)
  | base {arg : Node} {width : Nat} {codes : List BaseCode} (position : Position)
      (hcodes : codes ≠ []) (harg : Built signature arg) (hopen : arg.canBeLeft = true) :
      Built signature (.trailing .base arg (.base width codes) position)

/-! ## What tokens say about functions -/

/-- A function is defined by the tokens: its name stands in front of the head of a definition. -/
def Defines (tokens : List Token) (name : String) (count : Nat) : Prop :=
  ∃ before position header params rest, Header header params ∧ params.length = count ∧
    tokens = before ++ ⟨.name, name, position⟩ :: (header ++ rest)

/-- The tokens define functions according to a signature, and no name is empty. -/
structure Fits (signature : String → Nat → Prop) (tokens : List Token) : Prop where
  defines : ∀ name count, Defines tokens name count → signature name count
  names : ∀ token ∈ tokens, token.kind = .name → token.text ≠ ""

variable {signature : String → Nat → Prop}

theorem Defines.of_suffix {tokens tokens' : List Token} {name : String} {count : Nat}
    (h : Defines tokens' name count) (hsuffix : tokens' <:+ tokens) :
    Defines tokens name count := by
  obtain ⟨before, position, header, params, rest, hheader, hcount, rfl⟩ := h
  obtain ⟨front, rfl⟩ := hsuffix
  exact ⟨front ++ before, position, header, params, rest, hheader, hcount, by simp⟩

theorem Fits.of_suffix {tokens tokens' : List Token} (h : Fits signature tokens)
    (hsuffix : tokens' <:+ tokens) : Fits signature tokens' :=
  ⟨fun name count hdefines => h.defines name count (hdefines.of_suffix hsuffix),
    fun token htoken => h.names token (hsuffix.subset htoken)⟩

/-- The head of a definition starts with a symbol that is not a binary operator, and ends with a
symbol. -/
theorem Header.ends {header : List Token} {params : List Param} (h : Header header params) :
    (∃ first rest, header = first :: rest ∧ first.kind = .symbol ∧
        Grammar.isBinary first = false) ∧
      ∃ front last, header = front ++ [last] ∧ last.kind = .symbol := by
  cases h with
  | bare position => exact ⟨⟨_, _, rfl, rfl, rfl⟩, [], _, rfl, rfl⟩
  | @listed opening closing assign tokens _ _ =>
      exact ⟨⟨_, _, rfl, rfl, rfl⟩,
        ⟨.symbol, "(", opening⟩ :: (tokens ++ [⟨.symbol, ")", closing⟩]), ⟨.symbol, ":=", assign⟩,
        by simp, rfl⟩

namespace Grammar

/-- No definition is made up by the names around a combinator. -/
theorem defines_of_operandsAround {tokens start : List Token} (htokens : tokens <+: start)
    (hbinary : start.head?.any isBinary = true) {position : Position} {name : String} {count : Nat}
    (h : Defines (operandsAround tokens position) name count) : Defines start name count := by
  obtain ⟨before, namePosition, header, params, rest, hheader, hcount, heq⟩ := h
  obtain ⟨⟨first, others, hfirst, hkind, hplain⟩, front, last, hlast, hlastKind⟩ := hheader.ends
  -- The name in front of the head is the first operand, or one of the tokens.
  cases before with
  | nil =>
      have heq : tokens ++ [⟨.name, rightName, position⟩] = header ++ rest := (List.cons.inj heq).2
      rw [hfirst] at heq
      cases tokens with
      | nil =>
          obtain ⟨rfl, -⟩ := List.cons.inj heq
          cases hkind
      | cons token tokens =>
          obtain ⟨rfl, -⟩ := List.cons.inj heq
          obtain ⟨stop, rfl⟩ := htokens
          rw [List.cons_append, List.head?_cons, Option.any_some, hplain] at hbinary
          cases hbinary
  | cons _ before =>
      have heq : tokens ++ [⟨.name, rightName, position⟩] =
          before ++ ⟨.name, name, namePosition⟩ :: (header ++ rest) := (List.cons.inj heq).2
      rcases List.eq_nil_or_concat' rest with rfl | ⟨rest, token, rfl⟩
      · -- The last token of the head would be the name of the right operand.
        rw [List.append_nil, hlast, ← List.cons_append, ← List.append_assoc] at heq
        obtain ⟨-, hsame⟩ := List.append_inj' heq rfl
        obtain ⟨rfl, -⟩ := List.cons.inj hsame
        cases hlastKind
      · rw [← List.append_assoc, ← List.cons_append, ← List.append_assoc] at heq
        obtain ⟨rfl, -⟩ := List.append_inj' heq rfl
        obtain ⟨stop, rfl⟩ := htokens
        exact ⟨before, namePosition, header, params, rest ++ stop, hheader, hcount, by simp⟩

theorem fits_operandsAround {tokens start : List Token} (h : Fits signature start)
    (htokens : tokens <+: start) (hbinary : start.head?.any isBinary = true) (position : Position) :
    Fits signature (operandsAround tokens position) := by
  refine ⟨fun name count hdefines =>
    h.defines name count (defines_of_operandsAround htokens hbinary hdefines), ?_⟩
  intro token htoken _
  simp only [Grammar.operandsAround, List.mem_cons, List.mem_append, List.not_mem_nil,
    or_false] at htoken
  rcases htoken with rfl | htoken | rfl
  · exact (by decide : leftName ≠ "")
  · exact h.names token (htokens.subset htoken) ‹_›
  · exact (by decide : rightName ≠ "")

/-! ## What is read is built -/

/-- Every function of the table has a number of arguments according to the signature. -/
def Listed (signature : String → Nat → Prop) (calls : CallTable) : Prop :=
  ∀ name count, calls.find? name = some count → signature name count

/-- An item that was read, with tokens that can be read again. -/
structure Kept (signature : String → Nat → Prop) (sibling : Sibling) : Prop where
  node : sibling.node.Built signature
  start : Fits signature sibling.start

/-- What a rule goes on from is built, and what it reads again fits. -/
def Reading.Given (signature : String → Nat → Prop) : Reading → Prop
  | .operators left _ _ _ => left.Built signature ∧ left.canBeLeft = true
  | .items _ siblings _ | .item _ siblings _ => ∀ s ∈ siblings, Kept signature s
  | .combinator tokens position _ => Fits signature (operandsAround tokens position)
  | .expression .. | .operand .. | .arguments .. => True

/-- What a rule reads is built. -/
def Reading.Built (signature : String → Nat → Prop) : Reading → Prop
  | .expression _ place node => node.Built signature ∧
      (place = .right → node.isBlock = false ∧ node.isFold = false)
  | .operators left _ _ node => node.Built signature ∧ node.canBeLeft = true ∧
      (left.isFold = false → node.isFold = false)
  | .items _ _ nodes => ∀ n ∈ nodes, n.Built signature
  | .item _ _ siblings => ∀ s ∈ siblings, Kept signature s
  | .operand _ (.primary node) | .operand _ (.implicit node) =>
      node.Built signature ∧ node.canBeLeft = true ∧ node.isFold = false
  | .operand place (.closed node) => node.Built signature ∧ node.isFold = false ∧
      (place = .right → node.isBlock = false)
  | .arguments _ args => ∀ arg ∈ args, arg.Built signature
  | .combinator _ _ c => c.expr.Built signature

theorem isBlock_of_canBeLeft {node : Node} (h : node.canBeLeft = true) : node.isBlock = false := by
  cases node with
  | block b => cases h
  | _ => rfl

theorem isFold_of_plain {op : LeadingOp} (hop : op.plain = true) (arg : Node) (extra : Extra)
    (position : Position) : (Node.leading op arg extra position).isFold = false := by
  cases op with
  | fold => cases hop
  | _ => rfl

theorem codes_ne_nil {word : String} {codes : List BaseCode} (hword : word ≠ "")
    (h : word.toList.mapM BaseCode.ofChar? = some codes) : codes ≠ [] := by
  rintro rfl
  -- A word with a first letter has a first code.
  cases hchars : word.toList with
  | nil => exact hword (String.toList_eq_nil_iff.1 hchars)
  | cons first rest =>
      rw [hchars, List.mapM_cons] at h
      cases hfirst : BaseCode.ofChar? first with
      | none => simp [hfirst] at h
      | some code =>
          cases hrest : rest.mapM BaseCode.ofChar? with
          | none => simp [hfirst, hrest] at h
          | some codes => simp [hfirst, hrest] at h

/-- The map of a fold is the body of a block that was read. -/
theorem takeMap_kept {start start' : List Token} {siblings others : List Sibling}
    {map : Option Block} (h : takeMap start siblings = (map, start', others))
    (hstart : Fits signature start) (hsiblings : ∀ s ∈ siblings, Kept signature s) :
    (∀ b ∈ map, ∀ n ∈ b.body.items, n.Built signature) ∧ Fits signature start' ∧
      ∀ s ∈ others, Kept signature s := by
  rcases takeMap_cases h with ⟨rfl, rfl, rfl⟩ | ⟨block, stop, rfl, rfl⟩
  · exact ⟨by simp, hstart, hsiblings⟩
  · obtain ⟨⟨hblock, hfits⟩, hothers⟩ := List.forall_mem_cons.1 hsiblings
    refine ⟨fun b hb => ?_, hfits, hothers⟩
    obtain rfl := Option.some.inj hb
    cases hblock with
    | block hbody => exact hbody

/-- The combinator of a fold is read from tokens of an item that was read. -/
theorem takeCombinator_kept {start start' : List Token} {siblings others : List Sibling}
    {tokens? : Option (List Token)} (h : takeCombinator start siblings = (tokens?, start', others))
    (hstart : Fits signature start) (hsiblings : ∀ s ∈ siblings, Kept signature s) :
    Fits signature start' ∧ (∀ s ∈ others, Kept signature s) ∧
      ∀ tokens ∈ tokens?, ∀ position, Fits signature (operandsAround tokens position) := by
  rcases takeCombinator_cases h with ⟨rfl, rfl, rfl⟩ | ⟨sibling, rfl, rfl, rfl, hbinary⟩
  · exact ⟨hstart, hsiblings, by simp⟩
  · obtain ⟨⟨-, hfits⟩, hothers⟩ := List.forall_mem_cons.1 hsiblings
    refine ⟨hfits, hothers, fun tokens htokens position => ?_⟩
    obtain rfl := Option.some.inj htokens
    exact fits_operandsAround hfits (List.take_prefix _ _) hbinary position

/-- A rule reads something, and what it reads is built according to a signature that contains the
known functions and those that the tokens define. -/
structure Builds (signature : String → Nat → Prop) (reading : Reading) (c c' : Cursor) : Prop where
  reads : Reads reading c c'
  built : Listed signature c.calls → Fits signature c.rest → reading.Given signature →
    Listed signature c'.calls ∧ reading.Built signature

/-! There is one lemma for each rule that uses others.  A function enters the table of known ones
with the head of its definition, and the tokens that are left always fit, being a suffix of those
that did. -/

namespace Builds

variable {place : Place} {bound : Bound} {force : Bool} {name : String} {token : Token}
  {position position₁ finish : Position} {rest tokens start₁ start₂ : List Token}
  {calls : CallTable} {nodes args : List Node} {arg body first left right node : Node}
  {siblings siblings₁ siblings₂ : List Sibling} {map : Option Block} {combinator : Combinator}
  {count : Nat} {c c₁ c₂ c₃ : Cursor}

/-- The items between brackets, with no items before them. -/
theorem enclosed {closer : Option String} (h : Builds signature (.items closer [] nodes) c c₁)
    (hcalls : Listed signature c.calls) (hfits : Fits signature c.rest) :
    Listed signature c₁.calls ∧ ∀ n ∈ nodes, n.Built signature :=
  h.built hcalls hfits (by simp [Reading.Given])

/-! ### Operands -/

theorem call (hblock : opensBlock place rest = false) (hdefinition : startsDefinition rest = false)
    (hname : calls.find? name = some count)
    (hargs : Builds signature (.arguments count args) ⟨rest, finish, calls⟩ c) :
    Builds signature (.operand place (.primary (.call name args position)))
      ⟨⟨.name, name, position⟩ :: rest, finish, calls⟩ c where
  reads := .call hblock hdefinition hname hargs.reads
  built := by
    intro hcalls hfits _
    obtain ⟨hcalls', hbuilt⟩ :=
      hargs.built hcalls (hfits.of_suffix (List.suffix_cons _ _)) trivial
    obtain rfl := hargs.reads.length_arguments
    exact ⟨hcalls', .call _ (hcalls _ _ hname) hbuilt, rfl, rfl⟩

theorem define {header : List Token} {params : List Param} (hheader : Header header params)
    (hbody : Builds signature (.expression .lowest .operand body)
      ⟨rest, finish, calls.insert name params.length⟩ c) :
    Builds signature (.operand place (.closed (.define name params body position)))
      ⟨⟨.name, name, position⟩ :: (header ++ rest), finish, calls⟩ c where
  reads := .define hheader hbody.reads
  built := by
    intro hcalls hfits _
    -- The function is in the table while its own body is read.
    have hname := hfits.defines _ _ ⟨[], _, _, _, _, hheader, rfl, rfl⟩
    have hrest := hfits.of_suffix ((List.suffix_append _ _).trans (List.suffix_cons _ _))
    obtain ⟨hcalls', hbuilt, -⟩ :=
      hbody.built (Bindings.forall_insert hcalls hname) hrest trivial
    exact ⟨hcalls', .define _ hname hbuilt, rfl, fun _ => rfl⟩

theorem namedBlock (hplace : place ≠ .right)
    (hbody : Builds signature (.items (some "\x7d") [] nodes) ⟨rest, finish, calls⟩ c) :
    Builds signature (.operand place (.closed (.block
        ⟨name, ⟨nodes, Cursor.position ⟨rest, finish, calls⟩⟩, position⟩)))
      ⟨⟨.name, name, position⟩ :: ⟨.symbol, "\x7b", position₁⟩ :: rest, finish, calls⟩ c where
  reads := .namedBlock hplace hbody.reads
  built := by
    intro hcalls hfits _
    have hrest := hfits.of_suffix ((List.suffix_cons _ _).trans (List.suffix_cons _ _))
    obtain ⟨hcalls', hbuilt⟩ := hbody.enclosed hcalls hrest
    exact ⟨hcalls', .block hbuilt, rfl, fun hright => absurd hright hplace⟩

theorem block (hplace : place ≠ .right)
    (hbody : Builds signature (.items (some "\x7d") [] nodes) ⟨rest, finish, calls⟩ c) :
    Builds signature (.operand place (.closed (.block
        ⟨implicitName, ⟨nodes, Cursor.position ⟨rest, finish, calls⟩⟩, position⟩)))
      ⟨⟨.symbol, "\x7b", position⟩ :: rest, finish, calls⟩ c where
  reads := .block hplace hbody.reads
  built := by
    intro hcalls hfits _
    obtain ⟨hcalls', hbuilt⟩ := hbody.enclosed hcalls (hfits.of_suffix (List.suffix_cons _ _))
    exact ⟨hcalls', .block hbuilt, rfl, fun hright => absurd hright hplace⟩

theorem group (hbody : Builds signature (.items (some ")") [] nodes) ⟨rest, finish, calls⟩ c) :
    Builds signature (.operand place (.primary (.group
        ⟨nodes, Cursor.position ⟨rest, finish, calls⟩⟩ position)))
      ⟨⟨.symbol, "(", position⟩ :: rest, finish, calls⟩ c where
  reads := .group hbody.reads
  built := by
    intro hcalls hfits _
    obtain ⟨hcalls', hbuilt⟩ := hbody.enclosed hcalls (hfits.of_suffix (List.suffix_cons _ _))
    exact ⟨hcalls', .group _ hbuilt, rfl, rfl⟩

theorem array (hbody : Builds signature (.items (some "]") [] nodes) ⟨rest, finish, calls⟩ c)
    (hblocks : nodes.countP Node.isBlock ≤ 1) :
    Builds signature (.operand place (.primary (.array
        ⟨nodes, Cursor.position ⟨rest, finish, calls⟩⟩ position)))
      ⟨⟨.symbol, "[", position⟩ :: rest, finish, calls⟩ c where
  reads := .array hbody.reads hblocks
  built := by
    intro hcalls hfits _
    obtain ⟨hcalls', hbuilt⟩ := hbody.enclosed hcalls (hfits.of_suffix (List.suffix_cons _ _))
    exact ⟨hcalls', .array _ hbuilt hblocks, rfl, rfl⟩

theorem leading {op : LeadingOp} (hop : op.plain = true)
    (harg : Builds signature (.expression (.level op.precedence) .operand arg)
      ⟨rest, finish, calls⟩ c) :
    Builds signature (.operand place (.primary (.leading op arg .none position)))
      ⟨op.token position :: rest, finish, calls⟩ c where
  reads := .leading hop harg.reads
  built := by
    intro hcalls hfits _
    obtain ⟨hcalls', hbuilt, -⟩ :=
      harg.built hcalls (hfits.of_suffix (List.suffix_cons _ _)) trivial
    exact ⟨hcalls', .leading _ hop hbuilt, rfl, isFold_of_plain hop _ _ _⟩

theorem filter {op : LeadingOp} {param : String} {naming : List Token}
    (hop : op = .filter ∨ op = .any)
    (hnaming : naming = [] ∧ param = implicitName ∨
      ∃ namePosition, naming = [⟨.name, param, namePosition⟩])
    (hbody : Builds signature (.items (some "\x7d") [] nodes) ⟨rest, finish, calls⟩ c₁)
    (harg : Builds signature (.expression (.level op.precedence) .operand arg) c₁ c₂) :
    Builds signature (.operand place (.primary (.leading op arg (.filter
        ⟨param, ⟨nodes, Cursor.position ⟨rest, finish, calls⟩⟩, position₁⟩) position)))
      ⟨op.token position :: (naming ++ ⟨.symbol, "\x7b", position₁⟩ :: rest), finish, calls⟩
      c₂ where
  reads := .filter hop hnaming hbody.reads harg.reads
  built := by
    intro hcalls hfits _
    have hrest := hfits.of_suffix ((suffix_behind _ _ _).trans (List.suffix_cons _ _))
    obtain ⟨hcalls₁, hnodes⟩ := hbody.enclosed hcalls hrest
    obtain ⟨hcalls₂, hbuilt, -⟩ :=
      harg.built hcalls₁ (hrest.of_suffix hbody.reads.suffix) trivial
    refine ⟨hcalls₂, .filter _ hop hnodes hbuilt, rfl, ?_⟩
    rcases hop with rfl | rfl <;> rfl

/-! ### Arguments and expressions -/

theorem missing (hboundary : c.rest.head?.all isCloser = true)
    (hrest : Builds signature (.arguments count args) c c₁) :
    Builds signature (.arguments (count + 1) (.implicit c.position :: args)) c c₁ where
  reads := .missing hboundary hrest.reads
  built := by
    intro hcalls hfits _
    obtain ⟨hcalls', hbuilt⟩ := hrest.built hcalls hfits trivial
    exact ⟨hcalls', List.forall_mem_cons.2 ⟨.var _ _, hbuilt⟩⟩

theorem argument (hboundary : c.rest.head?.all isCloser = false)
    (harg : Builds signature (.expression .highest .argument arg) c c₁)
    (hrest : Builds signature (.arguments count args) c₁ c₂) :
    Builds signature (.arguments (count + 1) (arg :: args)) c c₂ where
  reads := .argument hboundary harg.reads hrest.reads
  built := by
    intro hcalls hfits _
    obtain ⟨hcalls₁, hbuilt, -⟩ := harg.built hcalls hfits trivial
    obtain ⟨hcalls₂, hmore⟩ :=
      hrest.built hcalls₁ (hfits.of_suffix harg.reads.suffix) trivial
    exact ⟨hcalls₂, List.forall_mem_cons.2 ⟨hbuilt, hmore⟩⟩

theorem closed (hoperand : Builds signature (.operand place (.closed node)) c c₁) :
    Builds signature (.expression bound place node) c c₁ where
  reads := .closed hoperand.reads
  built := by
    intro hcalls hfits _
    obtain ⟨hcalls', hbuilt, hfold, hblock⟩ := hoperand.built hcalls hfits trivial
    exact ⟨hcalls', hbuilt, fun hright => ⟨hblock hright, hfold⟩⟩

theorem primary (hoperand : Builds signature (.operand place (.primary first)) c c₁)
    (hoperators : Builds signature (.operators first bound false node) c₁ c₂) :
    Builds signature (.expression bound place node) c c₂ where
  reads := .primary hoperand.reads hoperators.reads
  built := by
    intro hcalls hfits _
    obtain ⟨hcalls₁, hfirst, hopen, hfold⟩ := hoperand.built hcalls hfits trivial
    obtain ⟨hcalls₂, hbuilt, hopen', hfold'⟩ :=
      hoperators.built hcalls₁ (hfits.of_suffix hoperand.reads.suffix) ⟨hfirst, hopen⟩
    exact ⟨hcalls₂, hbuilt, fun _ => ⟨isBlock_of_canBeLeft hopen', hfold' hfold⟩⟩

theorem implicit (hoperand : Builds signature (.operand place (.implicit first)) c c₁)
    (hoperators : Builds signature (.operators first bound true node) c₁ c₂) :
    Builds signature (.expression bound place node) c c₂ where
  reads := .implicit hoperand.reads hoperators.reads
  built := by
    intro hcalls hfits _
    obtain ⟨hcalls₁, hfirst, hopen, hfold⟩ := hoperand.built hcalls hfits trivial
    obtain ⟨hcalls₂, hbuilt, hopen', hfold'⟩ :=
      hoperators.built hcalls₁ (hfits.of_suffix hoperand.reads.suffix) ⟨hfirst, hopen⟩
    exact ⟨hcalls₂, hbuilt, fun _ => ⟨isBlock_of_canBeLeft hopen', hfold' hfold⟩⟩

/-! ### Operators behind a left operand -/

theorem dot (htaken : (force || bound.admits BinaryOp.call.precedence BinaryOp.call.chains) = true)
    (hname : calls.find? name = some (count + 1))
    (hargs : Builds signature (.arguments count args) ⟨rest, finish, calls⟩ c₁)
    (hrest : Builds signature (.operators
      (.binary .call left (.call name args position₁) .none position) bound false node) c₁ c₂) :
    Builds signature (.operators left bound force node)
      ⟨BinaryOp.call.token position :: ⟨.name, name, position₁⟩ :: rest, finish, calls⟩ c₂ where
  reads := .dot htaken hname hargs.reads hrest.reads
  built := by
    rintro hcalls hfits ⟨hleft, hopen⟩
    have hbehind := hfits.of_suffix ((List.suffix_cons _ _).trans (List.suffix_cons _ _))
    obtain ⟨hcalls₁, hbuilt⟩ := hargs.built hcalls hbehind trivial
    -- The left operand is one argument more.
    obtain rfl := hargs.reads.length_arguments
    obtain ⟨hcalls₂, hnode, hopen', hfold⟩ :=
      hrest.built hcalls₁ (hbehind.of_suffix hargs.reads.suffix)
        ⟨.dot _ _ (hcalls _ _ hname) hbuilt hleft hopen, rfl⟩
    exact ⟨hcalls₂, hnode, hopen', fun _ => hfold rfl⟩

theorem zipWith {op : BinaryOp}
    (htaken : (force || bound.admits BinaryOp.zip.precedence BinaryOp.zip.chains) = true)
    (hcombinator : Builds signature (.combinator [op.token position₁] position combinator)
      ⟨rest, finish, calls⟩ c₁)
    (hboundary : c₁.rest.head?.all isCloser = false)
    (hright : Builds signature (.expression (.level BinaryOp.zip.precedence) .right right) c₁ c₂)
    (hrest : Builds signature (.operators (.binary .zip left right (.zip combinator) position) bound
      false node) c₂ c₃) :
    Builds signature (.operators left bound force node)
      ⟨BinaryOp.zip.token position :: op.token position₁ :: rest, finish, calls⟩ c₃ where
  reads := .zipWith htaken hcombinator.reads hboundary hright.reads hrest.reads
  built := by
    rintro hcalls hfits ⟨hleft, hopen⟩
    have hop := hfits.of_suffix (List.suffix_cons _ _)
    have hbehind := hop.of_suffix (List.suffix_cons _ _)
    have haround :=
      fits_operandsAround hop (List.prefix_append [_] _) (BinaryOp.isBinary_token _ _)
    obtain ⟨hcalls₁, hexpr⟩ := hcombinator.built hcalls hbehind (haround _)
    have hbehind₁ := hbehind.of_suffix hcombinator.reads.suffix
    obtain ⟨hcalls₂, hbuilt, hplace⟩ := hright.built hcalls₁ hbehind₁ trivial
    obtain ⟨hblock, hfold⟩ := hplace rfl
    obtain ⟨hcalls₃, hnode, hopen', hfold'⟩ :=
      hrest.built hcalls₂ (hbehind₁.of_suffix hright.reads.suffix)
        ⟨.zipWith _ hexpr hleft hopen hbuilt hblock hfold, rfl⟩
    exact ⟨hcalls₃, hnode, hopen', fun _ => hfold' rfl⟩

theorem binary {op : BinaryOp} (htaken : (force || bound.admits op.precedence op.chains) = true)
    (hcall : op ≠ .call) (hzip : op = .zip → rest.head?.any isBinary = false)
    (hright : Builds signature (.expression (.level op.precedence) .right right)
      ⟨rest, finish, calls⟩ c₁)
    (hrest : Builds signature (.operators (.binary op left right .none position) bound false node)
      c₁ c₂) :
    Builds signature (.operators left bound force node) ⟨op.token position :: rest, finish, calls⟩
      c₂ where
  reads := .binary htaken hcall hzip hright.reads hrest.reads
  built := by
    rintro hcalls hfits ⟨hleft, hopen⟩
    have hbehind := hfits.of_suffix (List.suffix_cons _ _)
    obtain ⟨hcalls₁, hbuilt, hplace⟩ := hright.built hcalls hbehind trivial
    -- On the right of an operator neither a block nor a fold is read.
    obtain ⟨hblock, hfold⟩ := hplace rfl
    obtain ⟨hcalls₂, hnode, hopen', hfold'⟩ :=
      hrest.built hcalls₁ (hbehind.of_suffix hright.reads.suffix)
        ⟨.binary _ hcall hleft hopen hbuilt hblock hfold, rfl⟩
    exact ⟨hcalls₂, hnode, hopen', fun _ => hfold' rfl⟩

theorem trailing {op : TrailingOp} (htaken : (force || bound.admits op.precedence true) = true)
    (hop : op.plain = true)
    (hrest : Builds signature (.operators (.trailing op left .none position) bound false node)
      ⟨rest, finish, calls⟩ c) :
    Builds signature (.operators left bound force node) ⟨op.token position :: rest, finish, calls⟩
      c where
  reads := .trailing htaken hop hrest.reads
  built := by
    rintro hcalls hfits ⟨hleft, hopen⟩
    obtain ⟨hcalls', hnode, hopen', hfold⟩ := hrest.built hcalls
      (hfits.of_suffix (List.suffix_cons _ _)) ⟨.trailing _ hop hleft hopen, rfl⟩
    exact ⟨hcalls', hnode, hopen', fun _ => hfold rfl⟩

theorem base {spelling word : String} {width : Nat} {codes : List BaseCode} {numerals : List Token}
    (htaken : (force || bound.admits TrailingOp.base.precedence true) = true)
    (hop : TrailingOp.ofSpelling? spelling = some .base)
    (hwidth : numerals = [] ∧ width = 0 ∨ ∃ digits widthPosition,
      numerals = [⟨.numeral, digits, widthPosition⟩] ∧ readWidth? digits = some width)
    (hcodes : word.toList.mapM BaseCode.ofChar? = some codes)
    (hrest : Builds signature (.operators (.trailing .base left (.base width codes) position) bound
      false node) ⟨rest, finish, calls⟩ c) :
    Builds signature (.operators left bound force node)
      ⟨⟨.symbol, spelling, position⟩ :: (numerals ++ ⟨.name, word, position₁⟩ :: rest), finish,
        calls⟩ c where
  reads := .base htaken hop hwidth hcodes hrest.reads
  built := by
    rintro hcalls hfits ⟨hleft, hopen⟩
    -- No name is empty, so there is a code for each letter of one at least.
    have hword : word ≠ "" := hfits.names ⟨.name, word, position₁⟩ (by simp) rfl
    obtain ⟨hcalls', hnode, hopen', hfold⟩ := hrest.built hcalls
      (hfits.of_suffix ((suffix_behind _ _ _).trans (List.suffix_cons _ _)))
      ⟨.base _ (codes_ne_nil hword hcodes) hleft hopen, rfl⟩
    exact ⟨hcalls', hnode, hopen', fun _ => hfold rfl⟩

/-! ### Items -/

theorem built_nodes (hsiblings : ∀ s ∈ siblings, Kept signature s) :
    ∀ n ∈ (siblings.map (·.node)).reverse, n.Built signature := by
  intro n hn
  obtain ⟨s, hs, rfl⟩ := List.mem_map.1 (List.mem_reverse.1 hn)
  exact (hsiblings s hs).node

theorem comma {closer : Option String} (hclose : closer.any token.isSymbol = false)
    (hcomma : token.isSymbol "," = true)
    (hrest : Builds signature (.items closer siblings nodes) ⟨rest, finish, calls⟩ c) :
    Builds signature (.items closer siblings nodes) ⟨token :: rest, finish, calls⟩ c where
  reads := .comma hclose hcomma hrest.reads
  built := by
    intro hcalls hfits hsiblings
    exact hrest.built hcalls (hfits.of_suffix (List.suffix_cons _ _)) hsiblings

theorem next {closer : Option String} (hclose : closer.any token.isSymbol = false)
    (hcomma : token.isSymbol "," = false)
    (hitem : Builds signature (.item token siblings siblings₁) ⟨token :: rest, finish, calls⟩ c₁)
    (hrest : Builds signature (.items closer siblings₁ nodes) c₁ c₂) :
    Builds signature (.items closer siblings nodes) ⟨token :: rest, finish, calls⟩ c₂ where
  reads := .next hclose hcomma hitem.reads hrest.reads
  built := by
    intro hcalls hfits hsiblings
    obtain ⟨hcalls₁, hkept⟩ := hitem.built hcalls hfits hsiblings
    exact hrest.built hcalls₁ (hfits.of_suffix hitem.reads.suffix) hkept

theorem fresh (hfold : token.isSymbol "\\" = false) (halone : StandsAlone token siblings)
    (hread : Builds signature (.expression .lowest .item node) ⟨token :: rest, finish, calls⟩ c)
    (hprogress : c.rest.length ≠ (token :: rest).length) :
    Builds signature (.item token siblings (⟨node, token :: rest, c.rest⟩ :: siblings))
      ⟨token :: rest, finish, calls⟩ c where
  reads := .fresh hfold halone hread.reads hprogress
  built := by
    intro hcalls hfits hsiblings
    obtain ⟨hcalls', hbuilt, -⟩ := hread.built hcalls hfits trivial
    exact ⟨hcalls', List.forall_mem_cons.2 ⟨⟨hbuilt, hfits⟩, hsiblings⟩⟩

theorem adopt {previous : Sibling} {others : List Sibling} {precedence : Nat}
    (hfold : token.isSymbol "\\" = false) (hop : adoptingPrecedence? token = some precedence)
    (hadopt : adoptable precedence previous.node = true)
    (hread : Builds signature (.operators previous.node .lowest true node)
      ⟨token :: rest, finish, calls⟩ c) :
    Builds signature (.item token (previous :: others) (⟨node, previous.start, c.rest⟩ :: others))
      ⟨token :: rest, finish, calls⟩ c where
  reads := .adopt hfold hop hadopt hread.reads
  built := by
    intro hcalls hfits hsiblings
    obtain ⟨hprevious, hothers⟩ := List.forall_mem_cons.1 hsiblings
    -- What may be adopted can be a left operand.
    have hopen := (Bool.and_eq_true_iff.1 hadopt).1
    obtain ⟨hcalls', hbuilt, -⟩ := hread.built hcalls hfits ⟨hprevious.node, hopen⟩
    exact ⟨hcalls', List.forall_mem_cons.2 ⟨⟨hbuilt, hprevious.start⟩, hothers⟩⟩

theorem fold (hfold : token.isSymbol "\\" = true)
    (hmap : takeMap (token :: rest) siblings = (map, start₁, siblings₁))
    (hcombinator : takeCombinator start₁ siblings₁ = (none, start₂, siblings₂))
    (harg : Builds signature (.expression (.level 0) .operand arg) ⟨rest, finish, calls⟩ c₁)
    (hoperators : Builds signature (.operators (.leading .fold arg (.fold map none) token.position)
      .lowest false node) c₁ c₂) :
    Builds signature (.item token siblings (⟨node, start₂, c₂.rest⟩ :: siblings₂))
      ⟨token :: rest, finish, calls⟩ c₂ where
  reads := .fold hfold hmap hcombinator harg.reads hoperators.reads
  built := by
    intro hcalls hfits hsiblings
    obtain ⟨hbody, hstart₁, hsiblings₁⟩ := takeMap_kept hmap hfits hsiblings
    obtain ⟨hstart₂, hsiblings₂, -⟩ := takeCombinator_kept hcombinator hstart₁ hsiblings₁
    have hbehind := hfits.of_suffix (List.suffix_cons _ _)
    obtain ⟨hcalls₁, hbuilt, -⟩ := harg.built hcalls hbehind trivial
    obtain ⟨hcalls₂, hnode, -⟩ :=
      hoperators.built hcalls₁ (hbehind.of_suffix harg.reads.suffix)
        ⟨.fold _ hbody (by simp) hbuilt, rfl⟩
    exact ⟨hcalls₂, List.forall_mem_cons.2 ⟨⟨hnode, hstart₂⟩, hsiblings₂⟩⟩

theorem foldWith (hfold : token.isSymbol "\\" = true)
    (hmap : takeMap (token :: rest) siblings = (map, start₁, siblings₁))
    (hcombinator : takeCombinator start₁ siblings₁ = (some tokens, start₂, siblings₂))
    (hread : Builds signature (.combinator tokens token.position combinator)
      ⟨rest, finish, calls⟩ c₁)
    (harg : Builds signature (.expression (.level 0) .operand arg) c₁ c₂)
    (hoperators : Builds signature (.operators (.leading .fold arg (.fold map (some combinator))
      token.position) .lowest false node) c₂ c₃) :
    Builds signature (.item token siblings (⟨node, start₂, c₃.rest⟩ :: siblings₂))
      ⟨token :: rest, finish, calls⟩ c₃ where
  reads := .foldWith hfold hmap hcombinator hread.reads harg.reads hoperators.reads
  built := by
    intro hcalls hfits hsiblings
    obtain ⟨hbody, hstart₁, hsiblings₁⟩ := takeMap_kept hmap hfits hsiblings
    obtain ⟨hstart₂, hsiblings₂, haround⟩ := takeCombinator_kept hcombinator hstart₁ hsiblings₁
    have hbehind := hfits.of_suffix (List.suffix_cons _ _)
    -- The combinator is read from tokens of an earlier item, not from those that are left.
    obtain ⟨hcalls₁, hexpr⟩ := hread.built hcalls hbehind (haround _ rfl _)
    have hbehind₁ := hbehind.of_suffix hread.reads.suffix
    obtain ⟨hcalls₂, hbuilt, -⟩ := harg.built hcalls₁ hbehind₁ trivial
    obtain ⟨hcalls₃, hnode, -⟩ :=
      hoperators.built hcalls₂ (hbehind₁.of_suffix harg.reads.suffix)
        ⟨.fold _ hbody (fun c hc => Option.some.inj hc ▸ hexpr) hbuilt, rfl⟩
    exact ⟨hcalls₃, List.forall_mem_cons.2 ⟨⟨hnode, hstart₂⟩, hsiblings₂⟩⟩

theorem ofCombinator {expr : Node} (hread : Builds signature (.items none [] [expr])
      ⟨operandsAround tokens position, position, c.calls⟩ c₁) :
    Builds signature (.combinator tokens position ⟨expr, position⟩) c
      { c with calls := c₁.calls } where
  reads := .combinator hread.reads
  built := by
    intro hcalls _ haround
    obtain ⟨hcalls', hbuilt⟩ := hread.enclosed hcalls haround
    exact ⟨hcalls', hbuilt _ List.mem_cons_self⟩

end Builds

/-- Everything that is read is built according to a signature that contains the known functions and
those that the tokens define. -/
theorem Reads.builds {reading : Reading} {c c' : Cursor} (h : Reads reading c c') :
    Builds signature reading c c' := by
  induction h with
  -- Operands.
  | absent => exact ⟨.absent, fun hcalls _ _ => ⟨hcalls, .var _ _, rfl, rfl⟩⟩
  | standIn htoken => exact ⟨.standIn htoken, fun hcalls _ _ => ⟨hcalls, .var _ _, rfl, rfl⟩⟩
  | text => exact ⟨.text, fun hcalls _ _ => ⟨hcalls, .text _ _ _, rfl, rfl⟩⟩
  | numeral => exact ⟨.numeral, fun hcalls _ _ => ⟨hcalls, .numeral _ _, rfl, rfl⟩⟩
  | var hblock hdefinition hname =>
      exact ⟨.var hblock hdefinition hname, fun hcalls _ _ => ⟨hcalls, .var _ _, rfl, rfl⟩⟩
  | call hblock hdefinition hname _ ih => exact .call hblock hdefinition hname ih
  | define hheader _ ih => exact .define hheader ih
  | namedBlock hplace _ ih => exact .namedBlock hplace ih
  | block hplace _ ih => exact .block hplace ih
  | group _ ih => exact .group ih
  | array _ hblocks ih => exact .array ih hblocks
  | leading hop _ ih => exact .leading hop ih
  | filter hop hnaming _ _ ihbody iharg => exact .filter hop hnaming ihbody iharg
  -- Arguments and expressions.
  | noArguments =>
      exact ⟨.noArguments, fun hcalls _ _ => ⟨hcalls, by simp [Reading.Built]⟩⟩
  | missing hboundary _ ih => exact .missing hboundary ih
  | argument hboundary _ _ iharg ihrest => exact .argument hboundary iharg ihrest
  | closed _ ih => exact .closed ih
  | primary _ _ ihoperand ihoperators => exact .primary ihoperand ihoperators
  | implicit _ _ ihoperand ihoperators => exact .implicit ihoperand ihoperators
  -- Operators behind a left operand.
  | stop hstops => exact ⟨.stop hstops, fun hcalls _ ⟨hleft, hopen⟩ => ⟨hcalls, hleft, hopen, id⟩⟩
  | dot htaken hname _ _ ihargs ihrest => exact .dot htaken hname ihargs ihrest
  | zipWith htaken _ hboundary _ _ ihcombinator ihright ihrest =>
      exact .zipWith htaken ihcombinator hboundary ihright ihrest
  | binary htaken hcall hzip _ _ ihright ihrest => exact .binary htaken hcall hzip ihright ihrest
  | trailing htaken hop _ ih => exact .trailing htaken hop ih
  | base htaken hop hwidth hcodes _ ih => exact .base htaken hop hwidth hcodes ih
  -- Items.
  | done => exact ⟨.done, fun hcalls _ hsiblings => ⟨hcalls, Builds.built_nodes hsiblings⟩⟩
  | close htoken =>
      exact ⟨.close htoken, fun hcalls _ hsiblings => ⟨hcalls, Builds.built_nodes hsiblings⟩⟩
  | comma hclose hcomma _ ih => exact .comma hclose hcomma ih
  | next hclose hcomma _ _ ihitem ihrest => exact .next hclose hcomma ihitem ihrest
  | fresh hfold halone _ hprogress ih => exact .fresh hfold halone ih hprogress
  | adopt hfold hop hadopt _ ih => exact .adopt hfold hop hadopt ih
  | fold hfold hmap hcombinator _ _ iharg ihoperators =>
      exact .fold hfold hmap hcombinator iharg ihoperators
  | foldWith hfold hmap hcombinator _ _ _ ihread iharg ihoperators =>
      exact .foldWith hfold hmap hcombinator ihread iharg ihoperators
  | combinator _ ih => exact .ofCombinator ih

/-- A program that is read has only items that are built. -/
theorem parse_built {tokens : List Token} {calls : CallTable} {program : Program}
    (h : (parse tokens calls).1 = .ok program) (hcalls : Listed signature calls)
    (hfits : Fits signature tokens) : ∀ n ∈ program.items, n.Built signature := by
  rcases run_cases tokens calls with ⟨nodes, c, hrun, hreads⟩ | ⟨error, c, hrun⟩
  · rw [parse_of_ok hrun] at h
    obtain rfl := Except.ok.inj h
    exact (hreads.builds.enclosed hcalls hfits).2
  · rw [parse_of_fault hrun] at h
    cases h

end Grammar

end Terse
