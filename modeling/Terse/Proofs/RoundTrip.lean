import Terse.Proofs.Completeness
import Terse.Proofs.Digits
import Terse.Proofs.Printing

/-!
# Printed trees are read back

However the tokens of a fully bracketed program are placed, they are read as the same program, up to
the places in it, and the known functions stay as they are (`parse_print`).

## Strategy

The proof gives a derivation for the tokens, by induction on the tree; `parse_of_reads` then says
what `parse` does with them.  `ReadsBack` is the statement for a single tree, and it depends on the
rank of the tree:

* An atom is an operand of its own.  It is read wherever it stands, as long as nothing follows that
  would make a name at its end a block or a definition (`Clear`).
* An item may be an operator with operands, and it goes on as far as it can.  It is read in front of
  a comma, a closing bracket or the end of the tokens (`Separated`), where no operator can follow.

All operands of a fully bracketed tree are atoms, so no precedence has to be compared.  For the
items of a program or of a bracket it has to be known what stands behind each of them, hence they
are read from the first one on while the tokens behind are known from the items that follow
(`reads_more`).

Places are the reason for the form of the statement: the tokens are only given up to places, and so
is the tree that is read.
-/

namespace Terse

namespace Grammar

/-- What may stand behind an item: nothing, a comma or a closing bracket. -/
def Separated (rest : List Token) : Prop :=
  ∀ token ∈ rest.head?, token.isSymbol "," = true ∨ isCloser token = true

/-- A name in front of these tokens starts neither a block nor a definition. -/
def Clear (rest : List Token) : Prop :=
  ∀ token ∈ rest.head?, token.isSymbol "\x7b" = false ∧ token.isSymbol ":=" = false ∧
    token.isSymbol "(" = false

theorem eq_of_separator {token : Token} (h : token.isSymbol "," = true ∨ isCloser token = true) :
    token.kind = .symbol ∧
      (token.text = "," ∨ token.text = ")" ∨ token.text = "]" ∨ token.text = "\x7d") := by
  simp only [isCloser, Token.isSymbol, Bool.or_eq_true, Bool.and_eq_true, beq_iff_eq] at h
  tauto

theorem Separated.clear {rest : List Token} (h : Separated rest) : Clear rest := by
  intro token htoken
  obtain ⟨hkind, htext⟩ := eq_of_separator (h token htoken)
  rcases htext with htext | htext | htext | htext <;> simp [Token.isSymbol, hkind, htext]

theorem Separated.stops {rest : List Token} (h : Separated rest) (bound : Bound) (force : Bool) :
    Stops bound force rest := by
  intro token htoken o ho
  obtain ⟨hkind, htext⟩ := eq_of_separator (h token htoken)
  have hnone : token.follower? = none := by
    rw [Token.follower?, if_pos hkind]
    rcases htext with htext | htext | htext | htext <;> rw [htext] <;> rfl
  rw [hnone] at ho
  cases ho

theorem clear_binary (op : BinaryOp) (position : Position) (rest : List Token) :
    Clear (op.token position :: rest) := by
  intro token htoken
  obtain rfl := Option.some.inj htoken
  cases op <;> exact ⟨rfl, rfl, rfl⟩

theorem clear_trailing (op : TrailingOp) (position : Position) (rest : List Token) :
    Clear (op.token position :: rest) := by
  intro token htoken
  obtain rfl := Option.some.inj htoken
  cases op <;> exact ⟨rfl, rfl, rfl⟩

theorem Clear.opensBlock {rest : List Token} (h : Clear rest) (place : Place) :
    opensBlock place rest = false := by
  cases rest with
  | nil => simp [Grammar.opensBlock]
  | cons token rest => simp [Grammar.opensBlock, (h token rfl).1]

theorem Clear.startsDefinition {rest : List Token} (h : Clear rest) :
    startsDefinition rest = false := by
  cases rest with
  | nil => rfl
  | cons token rest =>
      obtain ⟨-, hassign, hparen⟩ := h token rfl
      simp [Grammar.startsDefinition, hassign, hparen]

/-- An atom starts neither with a binary operator nor with a closing bracket. -/
theorem not_of_opens_atom {token : Token} (h : Rank.atom.opens token.form = true) :
    isBinary token = false ∧ isCloser token = false := by
  obtain ⟨kind, text, position⟩ := token
  cases kind with
  | symbol =>
      have htext : text = "(" ∨ text = "[" := by simpa [Rank.opens, Token.form] using h
      rcases htext with rfl | rfl <;> exact ⟨rfl, rfl⟩
  | _ => exact ⟨rfl, rfl⟩

/-- An item does not start with a fold, a comma or a closing bracket, nor with an operator that
takes the item before it as its left operand. -/
theorem not_of_opens_item {token : Token} (h : Rank.item.opens token.form = true) :
    token.isSymbol "\\" = false ∧ token.isSymbol "," = false ∧ isCloser token = false ∧
      adoptingPrecedence? token = none := by
  obtain ⟨kind, text, position⟩ := token
  cases kind with
  | symbol =>
      -- The symbols are an opening bracket of each kind, and leading operators.
      simp only [Rank.opens, Token.form, Bool.or_eq_true, beq_iff_eq, or_assoc] at h
      rcases h with rfl | rfl | rfl | hop
      · exact ⟨rfl, rfl, rfl, rfl⟩
      · exact ⟨rfl, rfl, rfl, rfl⟩
      · exact ⟨rfl, rfl, rfl, rfl⟩
      · cases hspelling : LeadingOp.ofSpelling? text with
        | none =>
            rw [hspelling] at hop
            cases hop
        | some op =>
            rw [hspelling] at hop
            obtain rfl : op.spelling = text := by simpa using List.find?_some hspelling
            cases op with
            | fold => cases hop
            | _ => exact ⟨rfl, rfl, rfl, rfl⟩
  | _ => exact ⟨rfl, rfl, rfl, rfl⟩

/-! ## Trees are read back -/

variable {calls : CallTable}

/-- The tokens of a tree are read as the tree, up to places: an atom wherever it stands, and an item
in front of what may stand behind an item. -/
def ReadsBack (calls : CallTable) : Rank → Node → Prop
  | .atom, n => ∀ tokens rest finish, tokens.map Token.form = n.print → Clear rest →
      ∃ n' : Node, n'.unplaced = n.unplaced ∧ ∀ place,
        Reads (.operand place (.primary n')) ⟨tokens ++ rest, finish, calls⟩ ⟨rest, finish, calls⟩
  | .item, n => ∀ tokens rest finish, tokens.map Token.form = n.print → Separated rest →
      ∃ n' : Node, n'.unplaced = n.unplaced ∧
        Reads (.expression .lowest .item n') ⟨tokens ++ rest, finish, calls⟩ ⟨rest, finish, calls⟩

/-- An atom that is read as a whole operand. -/
theorem ReadsBack.expression {n : Node} (h : ReadsBack calls .atom n) {tokens rest : List Token}
    (finish : Position) (htokens : tokens.map Token.form = n.print) (hrest : Separated rest) :
    ∃ n' : Node, n'.unplaced = n.unplaced ∧ ∀ bound place,
      Reads (.expression bound place n') ⟨tokens ++ rest, finish, calls⟩ ⟨rest, finish, calls⟩ := by
  obtain ⟨n', hn', hread⟩ := h tokens rest finish htokens hrest.clear
  exact ⟨n', hn', fun bound place => .primary (hread place) (.stop (hrest.stops bound false))⟩

/-- What ends the items of a program or of a bracket, and what is left behind it. -/
inductive Closes : Option String → List Token → List Token → Prop where
  | done : Closes none [] []
  | bracket {spelling : String} (position : Position) (rest : List Token)
      (hspelling : spelling = ")" ∨ spelling = "]" ∨ spelling = "\x7d") :
      Closes (some spelling) (⟨.symbol, spelling, position⟩ :: rest) rest

namespace Closes

variable {closer : Option String} {rest rest' : List Token}

theorem separated (h : Closes closer rest rest') : Separated rest := by
  cases h with
  | done => exact fun _ h => nomatch h
  | bracket position rest hspelling =>
      intro token htoken
      obtain rfl := Option.some.inj htoken
      rcases hspelling with rfl | rfl | rfl <;> exact .inr rfl

theorem reads (h : Closes closer rest rest') (siblings : List Sibling) (finish : Position) :
    Reads (.items closer siblings (siblings.map (·.node)).reverse) ⟨rest, finish, calls⟩
      ⟨rest', finish, calls⟩ := by
  cases h with
  | done => exact .done
  | bracket position rest _ => exact .close (by simp [Token.isSymbol])

theorem not_any (h : Closes closer rest rest') {token : Token} (htoken : isCloser token = false) :
    closer.any token.isSymbol = false := by
  simp only [isCloser, Bool.or_eq_false_iff] at htoken
  obtain ⟨⟨hparen, hbracket⟩, hbrace⟩ := htoken
  cases h with
  | done => rfl
  | bracket position rest hspelling => rcases hspelling with rfl | rfl | rfl <;> assumption

end Closes

/-! ## Items -/

section Items

variable {closer : Option String} {rest rest' : List Token}

/-- One more item. -/
theorem reads_next {n : Node} (hn : n.Bracketed calls .item) (hback : ReadsBack calls .item n)
    {tokens behind : List Token} (htokens : tokens.map Token.form = n.print)
    (hbehind : Separated behind) (hcloses : Closes closer rest rest') (finish : Position)
    (siblings : List Sibling) :
    ∃ sibling : Sibling, sibling.node.unplaced = n.unplaced ∧ ∀ nodes c,
      Reads (.items closer (sibling :: siblings) nodes) ⟨behind, finish, calls⟩ c →
        Reads (.items closer siblings nodes) ⟨tokens ++ behind, finish, calls⟩ c := by
  obtain ⟨⟨kind, text⟩, more, hprint, hopens⟩ := hn.opens
  obtain ⟨n', hn', hread⟩ := hback tokens behind finish htokens hbehind
  obtain ⟨position, tokens, rfl, -⟩ := exists_of_map_form (htokens.trans hprint)
  rw [List.cons_append] at hread ⊢
  have hopens : Rank.item.opens (Token.form ⟨kind, text, position⟩) = true := hopens
  obtain ⟨hfold, hcomma, hcloser, hadopting⟩ := not_of_opens_item hopens
  refine ⟨⟨n', ⟨kind, text, position⟩ :: (tokens ++ behind), behind⟩, hn', fun nodes c hnodes => ?_⟩
  refine .next (hcloses.not_any hcloser) hcomma (.fresh hfold ?_ hread ?_) hnodes
  · -- No operator at the start of the item takes the item before it as an operand.
    intro precedence hprecedence
    rw [hadopting] at hprecedence
    cases hprecedence
  · -- An item has at least one token, so reading it makes progress.
    change behind.length ≠ _
    rw [List.length_cons, List.length_append]
    omega

/-- Items with commas in front of them. -/
theorem reads_more {items : List Node} (hitems : ∀ n ∈ items, n.Bracketed calls .item)
    (hback : ∀ n ∈ items, ReadsBack calls .item n) (hcloses : Closes closer rest rest')
    {tokens : List Token} (htokens : tokens.map Token.form = printMore items) (finish : Position)
    (siblings : List Sibling) :
    Separated (tokens ++ rest) ∧ ∃ nodes : List Node,
      nodes.map Node.unplaced = items.map Node.unplaced ∧
      Reads (.items closer siblings ((siblings.map (·.node)).reverse ++ nodes))
        ⟨tokens ++ rest, finish, calls⟩ ⟨rest', finish, calls⟩ := by
  induction items generalizing tokens siblings with
  | nil =>
      rw [printMore, List.map_eq_nil_iff] at htokens
      subst htokens
      refine ⟨hcloses.separated, [], rfl, ?_⟩
      rw [List.append_nil]
      exact hcloses.reads siblings finish
  | cons n items ih =>
      obtain ⟨hn, hitems⟩ := List.forall_mem_cons.1 hitems
      obtain ⟨hbackn, hback⟩ := List.forall_mem_cons.1 hback
      obtain ⟨position, tokens, rfl, hmore⟩ := exists_of_map_form htokens
      obtain ⟨first, others, rfl, hfirst, hothers⟩ := List.map_eq_append_iff.1 hmore
      -- What follows the first item is known only from the items behind it, so both are proved
      -- together; the siblings do not matter for the first part.
      have hseparated := (ih hitems hback hothers siblings).1
      obtain ⟨sibling, hsibling, hnext⟩ :=
        reads_next hn hbackn hfirst hseparated hcloses finish siblings
      obtain ⟨-, nodes, hnodes, hread⟩ := ih hitems hback hothers (sibling :: siblings)
      refine ⟨fun token htoken => .inl ?_, sibling.node :: nodes, ?_, ?_⟩
      · obtain rfl := Option.some.inj htoken
        rfl
      · rw [List.map_cons, List.map_cons, hsibling, hnodes]
      · have hcomma : closer.any (⟨.symbol, ",", position⟩ : Token).isSymbol = false :=
          hcloses.not_any rfl
        rw [List.cons_append, List.append_assoc]
        refine .comma hcomma rfl (hnext _ _ ?_)
        simpa using hread

/-- All items up to a closing bracket or the end. -/
theorem reads_items {body : Program} (hitems : ∀ n ∈ body.items, n.Bracketed calls .item)
    (hback : ∀ n ∈ body.items, ReadsBack calls .item n) (hcloses : Closes closer rest rest')
    {tokens : List Token} (htokens : tokens.map Token.form = body.print) (finish : Position) :
    ∃ nodes : List Node, nodes.map Node.unplaced = body.items.map Node.unplaced ∧
      Reads (.items closer [] nodes) ⟨tokens ++ rest, finish, calls⟩ ⟨rest', finish, calls⟩ := by
  obtain ⟨items, position⟩ := body
  cases items with
  | nil =>
      rw [Program.print, List.map_eq_nil_iff] at htokens
      subst htokens
      exact ⟨[], rfl, hcloses.reads [] finish⟩
  | cons n items =>
      obtain ⟨hn, hitems⟩ := List.forall_mem_cons.1 hitems
      obtain ⟨hbackn, hback⟩ := List.forall_mem_cons.1 hback
      obtain ⟨first, others, rfl, hfirst, hothers⟩ := List.map_eq_append_iff.1 htokens
      have hseparated := (reads_more hitems hback hcloses hothers finish []).1
      obtain ⟨sibling, hsibling, hnext⟩ :=
        reads_next hn hbackn hfirst hseparated hcloses finish []
      obtain ⟨-, nodes, hnodes, hread⟩ := reads_more hitems hback hcloses hothers finish [sibling]
      refine ⟨sibling.node :: nodes, ?_, ?_⟩
      · rw [List.map_cons, List.map_cons, hsibling, hnodes]
      · rw [List.append_assoc]
        exact hnext _ _ hread

/-- Items up to the closing bracket that is printed behind them. -/
theorem reads_bracket {body : Program} (hitems : ∀ n ∈ body.items, n.Bracketed calls .item)
    (hback : ∀ n ∈ body.items, ReadsBack calls .item n) {spelling : String}
    (hspelling : spelling = ")" ∨ spelling = "]" ∨ spelling = "\x7d") {tokens : List Token}
    (htokens : tokens.map Token.form = body.print ++ [(.symbol, spelling)]) (rest : List Token)
    (finish : Position) :
    ∃ nodes : List Node, nodes.map Node.unplaced = body.items.map Node.unplaced ∧
      Reads (.items (some spelling) [] nodes) ⟨tokens ++ rest, finish, calls⟩
        ⟨rest, finish, calls⟩ := by
  obtain ⟨inner, closing, rfl, hinner, hclosing⟩ := List.map_eq_append_iff.1 htokens
  obtain ⟨position, rfl⟩ := exists_of_map_single hclosing
  obtain ⟨nodes, hnodes, hread⟩ :=
    reads_items hitems hback (.bracket position rest hspelling) hinner finish
  refine ⟨nodes, hnodes, ?_⟩
  rw [List.append_assoc]
  exact hread

end Items

/-! ## Brackets -/

theorem readsBack_group {body : Program} (hitems : ∀ n ∈ body.items, n.Bracketed calls .item)
    (hback : ∀ n ∈ body.items, ReadsBack calls .item n) (position : Position) :
    ReadsBack calls .atom (.group body position) := by
  intro tokens rest finish htokens _
  obtain ⟨position', tokens, rfl, hmore⟩ := exists_of_map_form htokens
  obtain ⟨nodes, hnodes, hread⟩ := reads_bracket hitems hback (.inl rfl) hmore rest finish
  refine ⟨.group ⟨nodes, Cursor.position ⟨tokens ++ rest, finish, calls⟩⟩ position', ?_,
    fun _ => .group hread⟩
  simp [Program.unplaced_eq _ hnodes]

theorem readsBack_array {body : Program} (hitems : ∀ n ∈ body.items, n.Bracketed calls .item)
    (hback : ∀ n ∈ body.items, ReadsBack calls .item n)
    (hblocks : body.items.countP Node.isBlock ≤ 1) (position : Position) :
    ReadsBack calls .atom (.array body position) := by
  intro tokens rest finish htokens _
  obtain ⟨position', tokens, rfl, hmore⟩ := exists_of_map_form htokens
  obtain ⟨nodes, hnodes, hread⟩ := reads_bracket hitems hback (.inr (.inl rfl)) hmore rest finish
  refine ⟨.array ⟨nodes, Cursor.position ⟨tokens ++ rest, finish, calls⟩⟩ position', ?_,
    fun _ => .array hread ((countP_isBlock_of_unplaced hnodes).trans_le hblocks)⟩
  simp [Program.unplaced_eq _ hnodes]

theorem readsBack_block {b : Block} (hitems : ∀ n ∈ b.body.items, n.Bracketed calls .item)
    (hback : ∀ n ∈ b.body.items, ReadsBack calls .item n) : ReadsBack calls .item (.block b) := by
  intro tokens rest finish htokens _
  obtain ⟨naming, brace, inner, rfl, hnaming, hinner⟩ := exists_of_map_block htokens
  obtain ⟨nodes, hnodes, hread⟩ := reads_bracket hitems hback (.inr (.inr rfl)) hinner rest finish
  have hunplaced (position : Position) :
      (Node.block ⟨b.param, ⟨nodes, Cursor.position ⟨inner ++ rest, finish, calls⟩⟩,
        position⟩).unplaced = (Node.block b).unplaced := by
    simp [Block.unplaced_eq _ _ hnodes]
  rw [List.append_assoc, List.cons_append]
  -- A block that is not named has the parameter `_`.
  rcases hnaming with ⟨rfl, hparam⟩ | ⟨position, rfl⟩
  · refine ⟨_, hunplaced brace, ?_⟩
    rw [hparam]
    exact .closed (.block (by decide) hread)
  · exact ⟨_, hunplaced position, .closed (.namedBlock (by decide) hread)⟩

/-! ## Operators -/

theorem readsBack_leading {op : LeadingOp} {arg : Node} (hop : op.plain = true)
    (harg : ReadsBack calls .atom arg) (position : Position) :
    ReadsBack calls .item (.leading op arg .none position) := by
  intro tokens rest finish htokens hrest
  obtain ⟨position', tokens, rfl, hmore⟩ := exists_of_map_form htokens
  obtain ⟨arg', harg', hread⟩ := harg.expression finish hmore hrest
  refine ⟨.leading op arg' .none position', ?_, ?_⟩
  · simp [harg']
  · exact .primary (.leading hop (hread _ _)) (.stop (hrest.stops _ _))

theorem readsBack_filter {op : LeadingOp} {arg : Node} {b : Block}
    (hop : op = .filter ∨ op = .any) (hitems : ∀ n ∈ b.body.items, n.Bracketed calls .item)
    (hback : ∀ n ∈ b.body.items, ReadsBack calls .item n) (harg : ReadsBack calls .atom arg)
    (position : Position) : ReadsBack calls .item (.leading op arg (.filter b) position) := by
  intro tokens rest finish htokens hrest
  obtain ⟨position', tokens, rfl, hmore⟩ := exists_of_map_form htokens
  obtain ⟨block, operand, rfl, hblock, hoperand⟩ := List.map_eq_append_iff.1 hmore
  obtain ⟨naming, brace, inner, rfl, hnaming, hinner⟩ := exists_of_map_block hblock
  obtain ⟨nodes, hnodes, hbody⟩ :=
    reads_bracket hitems hback (.inr (.inr rfl)) hinner (operand ++ rest) finish
  obtain ⟨arg', harg', hread⟩ := harg.expression finish hoperand hrest
  refine ⟨.leading op arg' (.filter ⟨b.param, ⟨nodes,
    Cursor.position ⟨inner ++ (operand ++ rest), finish, calls⟩⟩, brace⟩) position', ?_, ?_⟩
  · simp [harg', Block.unplaced_eq _ _ hnodes]
  · simp only [List.cons_append, List.append_assoc]
    exact .primary (.filter hop hnaming hbody (hread _ _)) (.stop (hrest.stops _ _))

/-- The first token of an atom. -/
theorem exists_of_map_atom {n : Node} (hn : n.Bracketed calls .atom) {tokens : List Token}
    (htokens : tokens.map Token.form = n.print) :
    ∃ token rest, tokens = token :: rest ∧ isBinary token = false ∧ isCloser token = false := by
  obtain ⟨⟨kind, text⟩, more, hprint, hopens⟩ := hn.opens
  obtain ⟨position, rest, rfl, -⟩ := exists_of_map_form (htokens.trans hprint)
  have hopens : Rank.atom.opens (Token.form ⟨kind, text, position⟩) = true := hopens
  exact ⟨_, rest, rfl, not_of_opens_atom hopens⟩

theorem readsBack_binary {op : BinaryOp} {left right : Node} (hop : op ≠ .call)
    (hleft : ReadsBack calls .atom left) (hright : ReadsBack calls .atom right)
    (hatom : right.Bracketed calls .atom) (position : Position) :
    ReadsBack calls .item (.binary op left right .none position) := by
  intro tokens rest finish htokens hrest
  obtain ⟨first, others, rfl, hfirst, hothers⟩ := List.map_eq_append_iff.1 htokens
  obtain ⟨position', second, rfl, hsecond⟩ := exists_of_map_form hothers
  obtain ⟨left', hleft', hreadLeft⟩ :=
    hleft first _ finish hfirst (clear_binary op position' (second ++ rest))
  obtain ⟨right', hright', hreadRight⟩ := hright.expression finish hsecond hrest
  have hoperator : Reads (.operators left' .lowest false (.binary op left' right' .none position'))
      ⟨op.token position' :: (second ++ rest), finish, calls⟩ ⟨rest, finish, calls⟩ := by
    refine .binary rfl hop (fun _ => ?_) (hreadRight _ _) (.stop (hrest.stops _ _))
    -- An operator behind `@` would be its combinator, but an atom does not start with one.
    obtain ⟨token, tokens, rfl, hbinary, -⟩ := exists_of_map_atom hatom hsecond
    exact hbinary
  refine ⟨.binary op left' right' .none position', ?_, ?_⟩
  · simp [hleft', hright']
  · rw [List.append_assoc]
    exact .primary (hreadLeft .item) hoperator

/-- The combinator of a zip is read from its operator. -/
theorem reads_combinator {op : BinaryOp} (hop : op ≠ .call) (hleft : calls.find? leftName = none)
    (hright : calls.find? rightName = none) (opPosition position : Position) (rest : List Token)
    (finish : Position) :
    Reads (.combinator [op.token opPosition] position
        ⟨.binary op (.var leftName position) (.var rightName position) .none opPosition, position⟩)
      ⟨rest, finish, calls⟩ ⟨rest, finish, calls⟩ := by
  -- The tokens are `#left`, the operator and `#right`; both names are read as variables, since
  -- neither is the name of a function.
  have hdone : Separated [] := fun _ h => nomatch h
  have hoperand : Reads (.expression (.level op.precedence) .right (.var rightName position))
      ⟨[⟨.name, rightName, position⟩], position, calls⟩ ⟨[], position, calls⟩ :=
    .primary (.var rfl rfl hright) (.stop (hdone.stops _ _))
  have hexpression : Reads (.expression .lowest .item
      (.binary op (.var leftName position) (.var rightName position) .none opPosition))
      ⟨operandsAround [op.token opPosition] position, position, calls⟩ ⟨[], position, calls⟩ := by
    have hclear := clear_binary op opPosition [⟨.name, rightName, position⟩]
    exact .primary (.var (hclear.opensBlock .item) hclear.startsDefinition hleft)
      (.binary rfl hop (fun _ => rfl) hoperand (.stop (hdone.stops _ _)))
  have halone : StandsAlone ⟨.name, leftName, position⟩ [] := fun _ _ _ h => nomatch h
  have hitems : Reads (.items none []
      [.binary op (.var leftName position) (.var rightName position) .none opPosition])
      ⟨operandsAround [op.token opPosition] position, position, calls⟩ ⟨[], position, calls⟩ :=
    .next rfl rfl (.fresh rfl halone hexpression (by simp)) .done
  exact Reads.combinator (c := ⟨rest, finish, calls⟩) hitems

theorem readsBack_zipWith {op : BinaryOp} {left right : Node} (hop : op ≠ .call)
    (hleftName : calls.find? leftName = none) (hrightName : calls.find? rightName = none)
    (hleft : ReadsBack calls .atom left) (hright : ReadsBack calls .atom right)
    (hatom : right.Bracketed calls .atom)
    (position leftPosition rightPosition opPosition combinatorPosition : Position) :
    ReadsBack calls .item (.binary .zip left right (.zip
      ⟨.binary op (.var leftName leftPosition) (.var rightName rightPosition) .none opPosition,
        combinatorPosition⟩) position) := by
  intro tokens rest finish htokens hrest
  obtain ⟨first, others, rfl, hfirst, hothers⟩ := List.map_eq_append_iff.1 htokens
  obtain ⟨zipPosition, others, rfl, hcombined⟩ := exists_of_map_form hothers
  obtain ⟨opPosition', second, rfl, hsecond⟩ := exists_of_map_form hcombined
  have hclear := clear_binary .zip zipPosition (op.token opPosition' :: (second ++ rest))
  obtain ⟨left', hleft', hreadLeft⟩ := hleft first _ finish hfirst hclear
  obtain ⟨right', hright', hreadRight⟩ := hright.expression finish hsecond hrest
  have hcombinator := reads_combinator hop hleftName hrightName opPosition' zipPosition
    (second ++ rest) finish
  have hoperator : Reads (.operators left' .lowest false (.binary .zip left' right' (.zip
      ⟨.binary op (.var leftName zipPosition) (.var rightName zipPosition) .none opPosition',
        zipPosition⟩) zipPosition))
      ⟨BinaryOp.zip.token zipPosition :: op.token opPosition' :: (second ++ rest), finish, calls⟩
      ⟨rest, finish, calls⟩ := by
    refine .zipWith rfl hcombinator ?_ (hreadRight _ _) (.stop (hrest.stops _ _))
    -- A combinator needs a right operand behind it, which an atom is.
    obtain ⟨token, tokens, rfl, -, hcloser⟩ := exists_of_map_atom hatom hsecond
    exact hcloser
  have hread := Reads.primary (hreadLeft .item) hoperator
  refine ⟨_, ?_, by rw [List.append_assoc]; exact hread⟩
  simp [hleft', hright']

theorem readsBack_trailing {op : TrailingOp} {arg : Node} (hop : op.plain = true)
    (harg : ReadsBack calls .atom arg) (position : Position) :
    ReadsBack calls .item (.trailing op arg .none position) := by
  intro tokens rest finish htokens hrest
  obtain ⟨first, others, rfl, hfirst, hothers⟩ := List.map_eq_append_iff.1 htokens
  obtain ⟨position', rfl⟩ := exists_of_map_single hothers
  obtain ⟨arg', harg', hread⟩ := harg first _ finish hfirst (clear_trailing op position' rest)
  have hoperator : Reads (.operators arg' .lowest false (.trailing op arg' .none position'))
      ⟨op.token position' :: rest, finish, calls⟩ ⟨rest, finish, calls⟩ :=
    .trailing rfl hop (.stop (hrest.stops _ _))
  refine ⟨.trailing op arg' .none position', ?_, ?_⟩
  · simp [harg']
  · rw [List.append_assoc]
    exact .primary (hread .item) hoperator

theorem mapM_letter {codes : List BaseCode}
    (h : ∀ code ∈ codes, ∃ c, BaseCode.ofChar? c = some code) :
    (codes.map BaseCode.letter).mapM BaseCode.ofChar? = some codes := by
  induction codes with
  | nil => rfl
  | cons code codes ih =>
      obtain ⟨⟨c, hc⟩, hcodes⟩ := List.forall_mem_cons.1 h
      rw [List.map_cons, List.mapM_cons, BaseCode.letter_of_ofChar? hc, hc, ih hcodes]
      rfl

/-- A width is read back from its digits, which do not start with a sign. -/
theorem readWidth?_chars {width : Nat} (h : Word.holds width = true) :
    readWidth? (String.ofList (Digits.chars 10 width)) = some width := by
  have hunsigned (digits : List Char) : Digits.chars 10 width ≠ '+' :: digits := by
    intro hplus
    have hdigit := Digits.isDigit_chars width '+' (hplus ▸ List.mem_cons_self)
    exact absurd hdigit (by decide)
  -- As the digits do not start with a sign, they are what is read.
  simp only [readWidth?, String.toList_ofList, Digits.readPlainDigits?_chars]
  simp [Option.filter, h]

theorem readsBack_base {arg : Node} {width : Nat} {codes : List BaseCode}
    (hwidth : Word.holds width = true)
    (hletters : ∀ code ∈ codes, ∃ c, BaseCode.ofChar? c = some code)
    (harg : ReadsBack calls .atom arg) (position : Position) :
    ReadsBack calls .item (.trailing .base arg (.base width codes) position) := by
  intro tokens rest finish htokens hrest
  obtain ⟨first, others, rfl, hfirst, hothers⟩ := List.map_eq_append_iff.1 htokens
  obtain ⟨position', others, rfl, hdirective⟩ := exists_of_map_form hothers
  obtain ⟨widthPosition, others, rfl, hword⟩ := exists_of_map_form hdirective
  obtain ⟨wordPosition, rfl⟩ := exists_of_map_single hword
  obtain ⟨arg', harg', hread⟩ := harg first _ finish hfirst (clear_trailing .base position' _)
  have hdigits : readWidth? (String.ofList (Digits.chars 10 width)) = some width :=
    readWidth?_chars hwidth
  have hcodes : (String.ofList (codes.map BaseCode.letter)).toList.mapM BaseCode.ofChar? =
      some codes := by
    rw [String.toList_ofList, mapM_letter hletters]
  have hoperator : Reads (.operators arg' .lowest false
        (.trailing .base arg' (.base width codes) position'))
      ⟨TrailingOp.base.token position' ::
        ([⟨.numeral, String.ofList (Digits.chars 10 width), widthPosition⟩] ++
          ⟨.name, String.ofList (codes.map BaseCode.letter), wordPosition⟩ :: rest), finish, calls⟩
      ⟨rest, finish, calls⟩ :=
    .base rfl (TrailingOp.ofSpelling?_spelling .base) (.inr ⟨_, _, rfl, hdigits⟩) hcodes
      (.stop (hrest.stops _ _))
  refine ⟨.trailing .base arg' (.base width codes) position', ?_, ?_⟩
  · simp [harg']
  · rw [List.append_assoc]
    exact .primary (hread .item) hoperator

/-! ## Whole programs -/

/-- Every fully bracketed tree is read back. -/
theorem readsBack_of_bracketed {rank : Rank} {n : Node} (h : n.Bracketed calls rank)
    (hleftName : calls.find? leftName = none) (hrightName : calls.find? rightName = none) :
    ReadsBack calls rank n := by
  induction h with
  | text text quote _ =>
      intro tokens rest finish htokens _
      obtain ⟨position, rfl⟩ := exists_of_map_single htokens
      exact ⟨.text text quote position, rfl, fun _ => .text⟩
  | numeral text _ =>
      intro tokens rest finish htokens _
      obtain ⟨position, rfl⟩ := exists_of_map_single htokens
      exact ⟨.numeral text position, rfl, fun _ => .numeral⟩
  | @var name _ hname =>
      intro tokens rest finish htokens hrest
      obtain ⟨position, rfl⟩ := exists_of_map_single htokens
      exact ⟨.var name position, rfl, fun place =>
        .var (hrest.opensBlock place) hrest.startsDefinition hname⟩
  | group position hbody ih => exact readsBack_group hbody ih position
  | array position hbody hblocks ih => exact readsBack_array hbody ih hblocks position
  -- An atom that is an item is read as an operand with no operator behind it.
  | atom _ ih =>
      intro tokens rest finish htokens hrest
      obtain ⟨n', hn', hread⟩ := ih.expression finish htokens hrest
      exact ⟨n', hn', hread _ _⟩
  | block hbody ih => exact readsBack_block hbody ih
  | leading position hop _ ih => exact readsBack_leading hop ih position
  | filter position hop hbody _ ihbody iharg =>
      exact readsBack_filter hop hbody ihbody iharg position
  | binary position hop _ hright ihleft ihright =>
      exact readsBack_binary hop ihleft ihright hright position
  | zipWith position _ _ _ _ hop _ hright ihleft ihright =>
      exact readsBack_zipWith hop hleftName hrightName ihleft ihright hright position _ _ _ _
  | trailing position hop _ ih => exact readsBack_trailing hop ih position
  | base position hwidth _ hletters _ ih => exact readsBack_base hwidth hletters ih position

end Grammar

open Grammar in
/-- A fully bracketed program is read back from its tokens, however they are placed, up to places,
and leaves the known functions as they are. -/
theorem parse_print {calls : CallTable} {program : Program}
    (hprogram : ∀ n ∈ program.items, n.Bracketed calls .item)
    (hleftName : calls.find? leftName = none) (hrightName : calls.find? rightName = none)
    {tokens : List Token} (htokens : tokens.map Token.form = program.print) :
    ∃ program', parse tokens calls = (.ok program', calls) ∧
      program'.unplaced = program.unplaced := by
  have hback : ∀ n ∈ program.items, ReadsBack calls .item n :=
    fun n hn => readsBack_of_bracketed (hprogram n hn) hleftName hrightName
  obtain ⟨nodes, hnodes, hread⟩ := reads_items hprogram hback .done htokens _
  rw [List.append_nil] at hread
  exact ⟨_, parse_of_reads hread, Program.unplaced_eq _ hnodes⟩

namespace Bracketing

/-- The known functions: one with an argument. -/
def calls : CallTable := [("f", 1)]

/-- The block `x{x*2}`. -/
def generator : Block :=
  ⟨"x", ⟨[.binary .multiply (.var "x" .start) (.numeral "2" .start) .none .start], .start⟩, .start⟩

/-- The block `{_}`. -/
def condition : Block := ⟨implicitName, ⟨[.var implicitName .start], .start⟩, .start⟩

/-- The program `-(a),${_}[1,x{x*2}],a@+b,"9";4bd`. -/
def program : Program :=
  ⟨[.leading .negate (.group ⟨[.var "a" .start], .start⟩ .start) .none .start,
    .leading .filter (.array ⟨[.numeral "1" .start, .block generator], .start⟩ .start)
      (.filter condition) .start,
    .binary .zip (.var "a" .start) (.var "b" .start) (.zip ⟨.binary .add (.var leftName .start)
      (.var rightName .start) .none .start, .start⟩) .start,
    .trailing .base (.text "9" .double .start) (.base 4 [.format 2, .decimal]) .start], .start⟩

def tokens : List Token := program.print.map fun (kind, text) => ⟨kind, text, .start⟩

theorem bracketed : ∀ n ∈ program.items, n.Bracketed calls .item := by
  have hgenerator : (Node.block generator).Bracketed calls .item :=
    .block (List.forall_mem_singleton.2 (.binary _ (by decide) (.var _ rfl) (.numeral _ _)))
  have hcondition : ∀ n ∈ condition.body.items, n.Bracketed calls .item :=
    List.forall_mem_singleton.2 (.atom (.var _ rfl))
  have harray : (Node.array ⟨[.numeral "1" .start, .block generator], .start⟩ .start).Bracketed
      calls .atom :=
    .array _ (List.forall_mem_cons.2 ⟨.atom (.numeral _ _), List.forall_mem_singleton.2 hgenerator⟩)
      (by decide)
  refine List.forall_mem_cons.2 ⟨?_, List.forall_mem_cons.2 ⟨?_, List.forall_mem_cons.2 ⟨?_,
    List.forall_mem_singleton.2 ?_⟩⟩⟩
  · exact .leading _ rfl (.group _ (List.forall_mem_singleton.2 (.atom (.var _ rfl))))
  · exact .filter _ (.inl rfl) hcondition harray
  · exact .zipWith _ _ _ _ _ (by decide) (.var _ rfl) (.var _ rfl)
  · have hletters : ∀ code ∈ [BaseCode.format 2, .decimal], ∃ c, BaseCode.ofChar? c = some code :=
      List.forall_mem_cons.2 ⟨⟨'b', rfl⟩, List.forall_mem_singleton.2 ⟨'d', rfl⟩⟩
    exact .base _ (by decide) (by decide) hletters (.text _ _ _)

/-- The program is read back from its tokens. -/
theorem parse_tokens_print :
    tokens.map (·.text) = ["-", "(", "a", ")", ",", "$", "\x7b", "_", "\x7d", "[", "1", ",", "x",
        "\x7b", "x", "*", "2", "\x7d", "]", ",", "a", "@", "+", "b", ",", "9", ";", "4", "bd"] ∧
      ∃ program', parse tokens calls = (.ok program', calls) ∧
        program'.unplaced = program.unplaced := by
  have htokens : tokens.map Token.form = program.print := by
    simp [tokens, Token.form, Function.comp_def]
  exact ⟨by decide +kernel, parse_print bracketed rfl rfl htokens⟩

end Bracketing

end Terse
