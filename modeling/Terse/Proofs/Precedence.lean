import Terse.Grammar.Items
import Terse.Proofs.Grouping

/-!
# Reading flat expressions

The grammar reads a flat expression as the grouped tree of its tokens (`parse_flat`).  The main
lemma says what reading an expression does on the tokens of a grouped tree, followed by anything
that the tree is not open to: it arrives at the tree, and goes on with the operators that follow.
So the tree that is read is the only grouped tree with these tokens.

## Strategy

The rule for an expression works from left to right.  It reads the leftmost operand and then takes
one operator after another, each with what it has read so far as the left operand.  So the operators
on the left side of a tree (`Node.leftSpine`) are met in the loop over operators, and those on its
right side (`Node.rightSpine`) are met while an operand is read.  `expression_inOrder` says this by
induction on the tree:

* the bound that holds where the tree is read has to admit all operators on its left side;
* what follows the tree must not bind tighter than an operator on its right side (`Ends`), as that
  operator would take it;
* a right operand is read with the precedence of its operator as the bound, and it ends where the
  whole tree ends.

A tree is grouped if these conditions hold of all its parts, which is where the rules about
precedence and chaining come in (`Terse.Proofs.Grouping`).

Each operator on the left side takes one level, and each operand starts again one level down.
Reading nests no deeper than twice the number of tokens, so the depth that `parse` takes suffices.
-/

namespace Terse

/-! ## What may follow a tree -/

/-- What may stand behind a tree: nothing, or an operator that binds tighter than none of the
precedences in `spine`. -/
inductive Ends (spine : List Nat) : List Token → Prop where
  | done : Ends spine []
  | binary (op : BinaryOp) (position : Position) (rest : List Token)
      (hop : ∀ m ∈ spine, ¬ op.follower.Binds m) : Ends spine (op.token position :: rest)
  | trailing (op : TrailingOp) (position : Position) (rest : List Token)
      (hop : ∀ m ∈ spine, ¬ op.follower.Binds m) : Ends spine (op.token position :: rest)

namespace Ends

variable {spine : List Nat} {rest : List Token}

theorem mono {spine' : List Nat} (h : Ends spine rest) (hsub : ∀ m ∈ spine', m ∈ spine) :
    Ends spine' rest := by
  cases h with
  | done => exact .done
  | binary op position rest hop => exact .binary op position rest fun m hm => hop m (hsub m hm)
  | trailing op position rest hop => exact .trailing op position rest fun m hm => hop m (hsub m hm)

/-- A name in front of what may stand behind a tree starts neither a block nor a definition. -/
theorem head_not (h : Ends spine rest) (spelling : String)
    (hspelling : spelling = "\x7b" ∨ spelling = ":=" ∨ spelling = "(") :
    rest.head?.any (·.isSymbol spelling) = false := by
  cases h with
  | done => rfl
  | binary op position rest _ =>
      rcases hspelling with rfl | rfl | rfl <;> cases op <;> rfl
  | trailing op position rest _ =>
      rcases hspelling with rfl | rfl | rfl <;> cases op <;> rfl

end Ends

theorem LeadingOp.spelling_ne_bracket {op : LeadingOp} (hop : op.plain = true) :
    op.spelling ≠ "(" ∧ op.spelling ≠ "[" ∧ op.spelling ≠ "\x7b" ∧ op.spelling ≠ "\\" := by
  revert hop
  cases op <;> decide

theorem TrailingOp.binary_ofSpelling?_spelling (op : TrailingOp) :
    BinaryOp.ofSpelling? op.spelling = none := by
  cases op <;> decide

namespace Grammar

/-! ## The rules on operands and operators -/

variable {D : Nat} {bound : Bound} {place : Place} {left : Node} {rest : List Token}
  {finish : Position} {calls : CallTable}

theorem admits_level_iff (o : Follower) (m : Nat) :
    (Bound.level m).admits o.precedence o.chains = true ↔ o.Binds m := by
  simp [Bound.admits, Follower.Binds]

theorem bind_ok {α β : Type} {x : Parse α} {f : α → Parse β} {a : α} {cursor cursor' : Cursor}
    (hx : x cursor = .ok a cursor') : (x >>= f) cursor = f a cursor' := by
  simp only [bind, EStateM.bind, hx]

/-- The operators behind a left operand, where a binary operator follows. -/
theorem operators_binary (op : BinaryOp) (position : Position) :
    (ofDepth (D + 1)).operators left bound false ⟨op.token position :: rest, finish, calls⟩ =
      if bound.admits op.precedence op.chains = true then
        (binary (ofDepth D) left op (op.token position) >>= fun node =>
          (ofDepth D).operators node bound false) ⟨rest, finish, calls⟩
      else .ok left ⟨op.token position :: rest, finish, calls⟩ := by
  have hspelling : BinaryOp.ofSpelling? (op.token position).text = some op :=
    BinaryOp.ofSpelling?_spelling op
  have hpeek : peek ⟨op.token position :: rest, finish, calls⟩ =
      .ok (some (op.token position)) ⟨op.token position :: rest, finish, calls⟩ := rfl
  show readOperators (ofDepth D) left bound false _ = _
  rw [readOperators, bind_ok hpeek]
  simp only [hspelling, Bool.false_or]
  rw [if_pos (show (op.token position).kind = .symbol from rfl)]
  cases bound.admits op.precedence op.chains with
  | true => rfl
  | false => rfl

/-- The operators behind a left operand, where a trailing operator follows. -/
theorem operators_trailing (op : TrailingOp) (position : Position) :
    (ofDepth (D + 1)).operators left bound false ⟨op.token position :: rest, finish, calls⟩ =
      if bound.admits op.precedence true = true then
        (trailing left op (op.token position) >>= fun node =>
          (ofDepth D).operators node bound false) ⟨rest, finish, calls⟩
      else .ok left ⟨op.token position :: rest, finish, calls⟩ := by
  have hbinary : BinaryOp.ofSpelling? (op.token position).text = none :=
    op.binary_ofSpelling?_spelling
  have hspelling : TrailingOp.ofSpelling? (op.token position).text = some op :=
    TrailingOp.ofSpelling?_spelling op
  have hpeek : peek ⟨op.token position :: rest, finish, calls⟩ =
      .ok (some (op.token position)) ⟨op.token position :: rest, finish, calls⟩ := rfl
  show readOperators (ofDepth D) left bound false _ = _
  rw [readOperators, bind_ok hpeek]
  simp only [hbinary, hspelling, Bool.false_or]
  rw [if_pos (show (op.token position).kind = .symbol from rfl)]
  cases bound.admits op.precedence true with
  | true => rfl
  | false => rfl

/-- A plain binary operator that is admitted takes its right operand. -/
theorem operators_of_right {op : BinaryOp} {position : Position} {right : Node} {cursor : Cursor}
    (hop : op.plain = true) (hadmits : bound.admits op.precedence op.chains = true)
    (hright : (ofDepth D).expression (.level op.precedence) .right ⟨rest, finish, calls⟩ =
      .ok right cursor) :
    (ofDepth (D + 1)).operators left bound false ⟨op.token position :: rest, finish, calls⟩ =
      (ofDepth D).operators (.binary op left right .none position) bound false cursor := by
  have hcall : op ≠ .call := by rintro rfl; cases hop
  have hzip : op ≠ .zip := by rintro rfl; cases hop
  have hbinary : binary (ofDepth D) left op (op.token position) ⟨rest, finish, calls⟩ =
      .ok (.binary op left right .none position) cursor := by
    have hextra : (pure .none : Parse Extra) ⟨rest, finish, calls⟩ =
      .ok .none ⟨rest, finish, calls⟩ := rfl
    rw [binary, if_neg hcall, if_neg hzip, bind_ok hextra]
    exact bind_ok hright
  rw [operators_binary, if_pos hadmits, bind_ok hbinary]

/-- A plain trailing operator that is admitted is put behind its operand. -/
theorem operators_of_trailing {op : TrailingOp} {position : Position} (hop : op.plain = true)
    (hadmits : bound.admits op.precedence true = true) :
    (ofDepth (D + 1)).operators left bound false ⟨op.token position :: rest, finish, calls⟩ =
      (ofDepth D).operators (.trailing op left .none position) bound false
        ⟨rest, finish, calls⟩ := by
  have hbase : op ≠ .base := by rintro rfl; cases hop
  have htrailing : trailing left op (op.token position) ⟨rest, finish, calls⟩ =
      .ok (.trailing op left .none position) ⟨rest, finish, calls⟩ := by
    rw [trailing, if_neg hbase]
    rfl
  rw [operators_trailing, if_pos hadmits, bind_ok htrailing]

/-- An operand ends where nothing follows that binds tighter than the operator before it. -/
theorem operators_of_ends {spine : List Nat} {m : Nat} (hends : Ends spine rest) (hm : m ∈ spine) :
    (ofDepth (D + 1)).operators left (.level m) false ⟨rest, finish, calls⟩ =
      .ok left ⟨rest, finish, calls⟩ := by
  cases hends with
  | done => rfl
  | binary op position rest hop =>
      have hrefused : ¬ (Bound.level m).admits op.precedence op.chains = true :=
        fun hadmits => hop m hm ((admits_level_iff op.follower m).1 hadmits)
      rw [operators_binary, if_neg hrefused]
  | trailing op position rest hop =>
      have hrefused : ¬ (Bound.level m).admits op.precedence true = true :=
        fun hadmits => hop m hm ((admits_level_iff op.follower m).1 hadmits)
      rw [operators_trailing, if_neg hrefused]

theorem expression_text (text : String) (quote : Quote) (position : Position) :
    (ofDepth (D + 1)).expression bound place
        ⟨⟨.text quote, text, position⟩ :: rest, finish, calls⟩ =
      (ofDepth D).operators (.text text quote position) bound false ⟨rest, finish, calls⟩ := rfl

theorem expression_numeral (text : String) (position : Position) :
    (ofDepth (D + 1)).expression bound place ⟨⟨.numeral, text, position⟩ :: rest, finish, calls⟩ =
      (ofDepth D).operators (.numeral text position) bound false ⟨rest, finish, calls⟩ := rfl

/-- A name that is not the name of a function is a variable in front of operators. -/
theorem expression_var {name : String} {spine : List Nat} (position : Position)
    (hname : calls.find? name = none) (hends : Ends spine rest) :
    (ofDepth (D + 1)).expression bound place ⟨⟨.name, name, position⟩ :: rest, finish, calls⟩ =
      (ofDepth D).operators (.var name position) bound false ⟨rest, finish, calls⟩ := by
  have hbrace := hends.head_not "\x7b" (.inl rfl)
  have hdefinition : startsDefinition rest = false := by
    have hassign := hends.head_not ":=" (.inr (.inl rfl))
    have hopen := hends.head_not "(" (.inr (.inr rfl))
    cases rest with
    | nil => rfl
    | cons token rest =>
        simp only [List.head?_cons, Option.any_some] at hassign hopen
        simp [startsDefinition, hassign, hopen]
  have hoperand : operand (ofDepth D) place ⟨⟨.name, name, position⟩ :: rest, finish, calls⟩ =
      .ok (.primary (.var name position)) ⟨rest, finish, calls⟩ := by
    show named (ofDepth D) ⟨.name, name, position⟩ place
      ⟨⟨.name, name, position⟩ :: rest, finish, calls⟩ = _
    have hskip : skip ⟨⟨.name, name, position⟩ :: rest, finish, calls⟩ =
      .ok () ⟨rest, finish, calls⟩ := rfl
    have hnext : nextIs "\x7b" ⟨rest, finish, calls⟩ = .ok false ⟨rest, finish, calls⟩ := by
      rw [← hbrace]
      rfl
    have hget : (get : Parse Cursor) ⟨rest, finish, calls⟩ =
      .ok ⟨rest, finish, calls⟩ ⟨rest, finish, calls⟩ := rfl
    rw [named, bind_ok hskip, bind_ok hnext]
    simp only [Bool.and_false, Bool.false_eq_true, if_false]
    rw [bind_ok hget]
    simp only [hdefinition, Bool.false_eq_true, if_false]
    rw [bind_ok hget]
    simp only [hname]
    rfl
  show readExpression (ofDepth D) bound place _ = _
  rw [readExpression, bind_ok hoperand]

/-- A plain leading operator takes its operand. -/
theorem expression_leading {op : LeadingOp} {position : Position} {arg : Node} {cursor : Cursor}
    (hop : op.plain = true)
    (harg : (ofDepth D).expression (.level op.precedence) .operand ⟨rest, finish, calls⟩ =
      .ok arg cursor) :
    (ofDepth (D + 1)).expression bound place ⟨op.token position :: rest, finish, calls⟩ =
      (ofDepth D).operators (.leading op arg .none position) bound false cursor := by
  have hfilter : ¬ (op = .filter ∨ op = .any) := by rintro (rfl | rfl) <;> cases hop
  have hspelling : LeadingOp.ofSpelling? (op.token position).text = some op :=
    LeadingOp.ofSpelling?_spelling op
  have hleading : leading (ofDepth D) op (op.token position)
      ⟨op.token position :: rest, finish, calls⟩ =
        .ok (.primary (.leading op arg .none position)) cursor := by
    have hskip : skip ⟨op.token position :: rest, finish, calls⟩ =
      .ok () ⟨rest, finish, calls⟩ := rfl
    rw [leading, bind_ok hskip, if_neg hfilter]
    exact bind_ok harg
  have hoperand : operand (ofDepth D) place ⟨op.token position :: rest, finish, calls⟩ =
      .ok (.primary (.leading op arg .none position)) cursor := by
    show symbol (ofDepth D) (op.token position) place _ = _
    obtain ⟨hparen, hbracket, hbrace, hfold⟩ := LeadingOp.spelling_ne_bracket hop
    have htext : (op.token position).text = op.spelling := rfl
    simp only [symbol, htext, hparen, hbracket, hbrace, hfold, if_false]
    rw [← htext, hspelling]
    exact hleading
  show readExpression (ofDepth D) bound place _ = _
  rw [readExpression, bind_ok hoperand]

end Grammar

/-! ## Tokens of flat expressions -/

/-- A token that a flat expression may have. -/
inductive Token.Admitted (calls : CallTable) : Token → Prop where
  | operand {token : Token} (htoken : token.IsOperand calls) : Admitted calls token
  | leading {op : LeadingOp} (position : Position) (hop : op.plain = true) :
      Admitted calls (op.token position)
  | binary {op : BinaryOp} (position : Position) (hop : op.plain = true) :
      Admitted calls (op.token position)
  | trailing {op : TrailingOp} (position : Position) (hop : op.plain = true) :
      Admitted calls (op.token position)

theorem Flat.admitted {calls : CallTable} {expected : Expected} {tokens : List Token}
    (h : Flat calls expected tokens) : ∀ token ∈ tokens, token.Admitted calls := by
  induction h with
  | leading hop _ ih => exact List.forall_mem_cons.2 ⟨.leading _ hop, ih⟩
  | operand htoken _ ih => exact List.forall_mem_cons.2 ⟨.operand htoken, ih⟩
  | done => exact fun _ h => absurd h List.not_mem_nil
  | trailing hop _ ih => exact List.forall_mem_cons.2 ⟨.trailing _ hop, ih⟩
  | binary hop _ ih => exact List.forall_mem_cons.2 ⟨.binary _ hop, ih⟩

/-- Whether a text is the spelling of a plain operator. -/
def spellsPlain (text : String) : Bool :=
  (LeadingOp.ofSpelling? text).any LeadingOp.plain ||
    (BinaryOp.ofSpelling? text).any BinaryOp.plain ||
      (TrailingOp.ofSpelling? text).any TrailingOp.plain

theorem Token.Admitted.spellsPlain {calls : CallTable} {token : Token} (h : token.Admitted calls)
    (hkind : token.kind = .symbol) : Terse.spellsPlain token.text = true := by
  cases h with
  | operand htoken =>
      rw [Token.IsOperand, hkind] at htoken
      exact htoken.elim
  | @leading op _ hop =>
      simp [Terse.spellsPlain, LeadingOp.token, LeadingOp.ofSpelling?_spelling, hop]
  | @binary op _ hop => simp [Terse.spellsPlain, BinaryOp.token, BinaryOp.ofSpelling?_spelling, hop]
  | @trailing op _ hop =>
      simp [Terse.spellsPlain, TrailingOp.token, TrailingOp.ofSpelling?_spelling, hop]

theorem Token.Admitted.not_isSymbol {calls : CallTable} {token : Token} (h : token.Admitted calls)
    {text : String} (htext : Terse.spellsPlain text = false) : token.isSymbol text = false := by
  rw [Token.isSymbol, Bool.and_eq_false_iff]
  by_cases hkind : token.kind = .symbol
  · refine .inr (beq_false_of_ne fun heq => ?_)
    rw [← heq, h.spellsPlain hkind] at htext
    cases htext
  · exact .inl (beq_false_of_ne hkind)

/- An operator that is not plain shares its spelling with no plain operator, also of another
kind. -/

theorem LeadingOp.plain_of_spellsPlain {op : LeadingOp} (h : spellsPlain op.spelling = true) :
    op.plain = true := by
  revert h
  cases op <;> decide

theorem BinaryOp.plain_of_spellsPlain {op : BinaryOp} (h : spellsPlain op.spelling = true) :
    op.plain = true := by
  revert h
  cases op <;> decide

theorem TrailingOp.plain_of_spellsPlain {op : TrailingOp} (h : spellsPlain op.spelling = true) :
    op.plain = true := by
  revert h
  cases op <;> decide

/-! ## Grouped trees are read back -/

namespace Grammar

/-- Reading an expression on the tokens of a grouped tree arrives at the tree, and goes on with the
operators behind it.  The bound has to admit the operators on the left side of the tree, which are
read one after another as operators behind a left operand, each one level further down. -/
theorem expression_inOrder {calls : CallTable} {finish : Position} {t : Node}
    (ht : t.IsOperation) (hgrouped : t.Grouped)
    (hadmitted : ∀ token ∈ t.inOrder, token.Admitted calls)
    {bound : Bound} {place : Place} {D : Nat} {rest : List Token}
    (hbound : ∀ o ∈ t.leftSpine, bound.admits o.precedence o.chains = true)
    (hends : Ends t.rightSpine rest) (hdepth : 2 * t.inOrder.length ≤ D + t.leftSpine.length) :
    (ofDepth (D + t.leftSpine.length + 1)).expression bound place
        ⟨t.inOrder ++ rest, finish, calls⟩ =
      (ofDepth D).operators t bound false ⟨rest, finish, calls⟩ := by
  induction ht generalizing bound place D rest with
  | text s quote position => exact expression_text s quote position
  | numeral s position => exact expression_numeral s position
  | var name position =>
      have hname : calls.find? name = none := by
        cases hadmitted ⟨.name, name, position⟩ List.mem_cons_self with
        | operand htoken => exact htoken
      exact expression_var position hname hends
  -- A leading operator is on the right side of its tree: what follows must not bind tighter.
  | @leading op position arg harg ih =>
      obtain ⟨hgrouped, hspine⟩ := hgrouped
      obtain ⟨hop, hadmitted⟩ := List.forall_mem_cons.1 hadmitted
      have hplain : op.plain = true := LeadingOp.plain_of_spellsPlain (hop.spellsPlain rfl)
      have hlength := harg.length_leftSpine_lt
      simp only [Node.inOrder, Node.leftSpine, List.length_cons, List.length_nil] at hdepth
      -- The operand is read one level down; `D'` is what then remains of the depth.
      obtain ⟨D', rfl⟩ : ∃ D', D = D' + 1 + arg.leftSpine.length + 1 :=
        ⟨D - arg.leftSpine.length - 2, by omega⟩
      have hbinds : ∀ o ∈ arg.leftSpine,
          (Bound.level op.precedence).admits o.precedence o.chains = true :=
        fun o ho => (admits_level_iff o op.precedence).2 (hspine o ho)
      refine expression_leading hplain ?_
      calc (ofDepth (D' + 1 + arg.leftSpine.length + 1)).expression (.level op.precedence) .operand
              ⟨arg.inOrder ++ rest, finish, calls⟩
          = (ofDepth (D' + 1)).operators arg (.level op.precedence) false ⟨rest, finish, calls⟩ :=
            ih hgrouped hadmitted hbinds (hends.mono fun m hm => List.mem_cons_of_mem _ hm)
              (by omega)
        _ = .ok arg ⟨rest, finish, calls⟩ := operators_of_ends hends List.mem_cons_self
  | @binary op position left right hleft hright ihleft ihright =>
      obtain ⟨hgroupedLeft, hgroupedRight, hspine, hopen⟩ := hgrouped
      obtain ⟨hadmittedLeft, hadmitted⟩ := List.forall_mem_append.1 hadmitted
      obtain ⟨hop, hadmittedRight⟩ := List.forall_mem_cons.1 hadmitted
      obtain ⟨hadmits, hboundLeft⟩ := List.forall_mem_cons.1 hbound
      have hplain : op.plain = true := BinaryOp.plain_of_spellsPlain (hop.spellsPlain rfl)
      have hlengthLeft := hleft.length_leftSpine_lt
      have hlengthRight := hright.length_leftSpine_lt
      simp only [Node.inOrder, Node.leftSpine, List.length_cons, List.length_append] at hdepth
      -- The right operand ends where the tree ends, since the operator is on the right side as
      -- well.
      have hrightRead : (ofDepth D).expression (.level op.precedence) .right
          ⟨right.inOrder ++ rest, finish, calls⟩ = .ok right ⟨rest, finish, calls⟩ := by
        obtain ⟨D', rfl⟩ : ∃ D', D = D' + 1 + right.leftSpine.length + 1 :=
          ⟨D - right.leftSpine.length - 2, by omega⟩
        have hbinds : ∀ o ∈ right.leftSpine,
            (Bound.level op.precedence).admits o.precedence o.chains = true :=
          fun o ho => (admits_level_iff o op.precedence).2 (hspine o ho)
        rw [ihright hgroupedRight hadmittedRight hbinds
          (hends.mono fun m hm => List.mem_cons_of_mem _ hm) (by omega)]
        exact operators_of_ends hends List.mem_cons_self
      have hdepthLeft :
          D + (left.leftSpine.length + 1) + 1 = D + 1 + left.leftSpine.length + 1 := by
        omega
      have htokens : (left.inOrder ++ op.token position :: right.inOrder) ++ rest =
          left.inOrder ++ op.token position :: (right.inOrder ++ rest) := by
        simp
      simp only [Node.inOrder, Node.leftSpine, List.length_cons, hdepthLeft, htokens]
      -- After the left operand the operator is met as one that follows it, one level down.
      rw [ihleft hgroupedLeft hadmittedLeft hboundLeft (.binary op position _ hopen) (by omega),
        operators_of_right hplain hadmits hrightRead]
  | @trailing op position arg harg ih =>
      obtain ⟨hgrouped, hopen⟩ := hgrouped
      obtain ⟨hadmitted, hop⟩ := List.forall_mem_append.1 hadmitted
      obtain ⟨hadmits, hboundArg⟩ := List.forall_mem_cons.1 hbound
      have hplain : op.plain = true :=
        TrailingOp.plain_of_spellsPlain ((List.forall_mem_singleton.1 hop).spellsPlain rfl)
      have hlength := harg.length_leftSpine_lt
      simp only [Node.inOrder, Node.leftSpine, List.length_cons, List.length_append,
        List.length_nil] at hdepth
      have hdepthArg : D + (arg.leftSpine.length + 1) + 1 = D + 1 + arg.leftSpine.length + 1 := by
        omega
      simp only [Node.inOrder, Node.leftSpine, List.length_cons, hdepthArg, List.append_assoc,
        List.cons_append, List.nil_append]
      rw [ih hgrouped hadmitted hboundArg (.trailing op position rest hopen) (by omega),
        operators_of_trailing hplain hadmits]

/-- Tokens that are read as one expression are one item. -/
theorem items_of_expression {D : Nat} {token : Token} {tokens : List Token} {finish : Position}
    {calls : CallTable} {t : Node} (hcomma : token.isSymbol "," = false)
    (hfold : token.isSymbol "\\" = false)
    (hread : (ofDepth (D + 1)).expression .lowest .item ⟨token :: tokens, finish, calls⟩ =
      .ok t ⟨[], finish, calls⟩) :
    (ofDepth (D + 2)).items none [] ⟨token :: tokens, finish, calls⟩ =
      .ok [t] ⟨[], finish, calls⟩ := by
  have hget : (get : Parse Cursor) ⟨token :: tokens, finish, calls⟩ =
      .ok ⟨token :: tokens, finish, calls⟩ ⟨token :: tokens, finish, calls⟩ := rfl
  have hpeek : peek ⟨token :: tokens, finish, calls⟩ =
      .ok (some token) ⟨token :: tokens, finish, calls⟩ := rfl
  have hfresh : freshItem (ofDepth (D + 1)) token [] ⟨token :: tokens, finish, calls⟩ =
      .ok [⟨t, token :: tokens, []⟩] ⟨[], finish, calls⟩ := by
    rw [freshItem, bind_ok hget, bind_ok hread]
    rfl
  have hitem : item (ofDepth (D + 1)) token [] ⟨token :: tokens, finish, calls⟩ =
      .ok [⟨t, token :: tokens, []⟩] ⟨[], finish, calls⟩ := by
    unfold item
    rw [hfold, ← hfresh]
    cases adoptingPrecedence? token with
    | none => rfl
    | some _ => rfl
  show readItems (ofDepth (D + 1)) none [] _ = _
  rw [readItems, bind_ok hpeek]
  simp only [Option.any_none, Bool.false_eq_true, if_false, hcomma]
  rw [bind_ok hitem]
  rfl

end Grammar

open Grammar in
/-- A grouped tree is read back from its tokens. -/
theorem parse_inOrder {calls : CallTable} {t : Node} (ht : t.IsOperation) (hgrouped : t.Grouped)
    (hadmitted : ∀ token ∈ t.inOrder, token.Admitted calls) :
    parse t.inOrder calls =
      (.ok ⟨[t], (t.inOrder.head?.map (·.position)).getD .start⟩, calls) := by
  have hlength := ht.length_leftSpine_lt
  have hread : ∀ (finish : Position) (D : Nat), 2 * t.inOrder.length ≤ D →
      (ofDepth (D + 1)).expression .lowest .item ⟨t.inOrder, finish, calls⟩ =
        .ok t ⟨[], finish, calls⟩ := by
    intro finish D hD
    obtain ⟨D', rfl⟩ : ∃ D', D = D' + 1 + t.leftSpine.length :=
      ⟨D - t.leftSpine.length - 1, by omega⟩
    have hexpression : (ofDepth (D' + 1 + t.leftSpine.length + 1)).expression .lowest .item
        ⟨t.inOrder ++ [], finish, calls⟩ =
          (ofDepth (D' + 1)).operators t .lowest false ⟨[], finish, calls⟩ :=
      expression_inOrder ht hgrouped hadmitted (fun _ _ => rfl) .done hD
    rw [List.append_nil] at hexpression
    exact hexpression
  -- The depth that is taken grows with the square of the number of tokens.
  have hdepth : ∃ D, sufficientDepth t.inOrder.length = D + 2 ∧ 2 * t.inOrder.length ≤ D := by
    have hsquare : t.inOrder.length + 2 ≤ (t.inOrder.length + 2) * (t.inOrder.length + 2) :=
      Nat.le_mul_of_pos_left _ (by omega)
    refine ⟨sufficientDepth t.inOrder.length - 2, ?_⟩
    unfold sufficientDepth
    omega
  obtain ⟨D, hsufficient, hD⟩ := hdepth
  rw [parse, hsufficient]
  generalize (t.inOrder.getLast?.map (·.position)).getD .start = finish
  cases htokens : t.inOrder with
  | nil => simp [htokens] at hlength
  | cons token tokens =>
      have hfirst : token.Admitted calls := hadmitted token (htokens ▸ List.mem_cons_self)
      have hitems := items_of_expression (hfirst.not_isSymbol (by decide))
        (hfirst.not_isSymbol (by decide)) (htokens ▸ hread finish D hD)
      simp only [hitems]

/-- A flat expression is read as one item, and leaves the known functions as they are.  The tree has
the tokens from left to right and is grouped; no other tree of operators with these tokens is. -/
theorem parse_flat {calls : CallTable} {tokens : List Token} (h : Flat calls .operand tokens) :
    ∃ t : Node, parse tokens calls =
        (.ok ⟨[t], (tokens.head?.map (·.position)).getD .start⟩, calls) ∧
      t.IsOperation ∧ t.inOrder = tokens ∧ t.Grouped ∧
      ∀ t' : Node, t'.IsOperation → t'.inOrder = tokens → t'.Grouped → t' = t := by
  obtain ⟨t, ht, hgrouped, rfl⟩ := h.exists_grouped
  have hparse := parse_inOrder ht hgrouped h.admitted
  refine ⟨t, hparse, ht, rfl, hgrouped, fun t' ht' htokens hgrouped' => ?_⟩
  have hparse' := parse_inOrder ht' hgrouped' (htokens ▸ h.admitted)
  rw [htokens, hparse] at hparse'
  -- The two trees are what the same tokens are read as.
  simpa using hparse'.symm

namespace Mixed

/-- The known functions: one with an argument. -/
def calls : CallTable := [("f", 1)]

def operand (name : String) : Token := ⟨.name, name, .start⟩

/-- The tokens of `-a+b*c#`. -/
def tokens : List Token :=
  [LeadingOp.negate.token .start, operand "a", BinaryOp.add.token .start, operand "b",
    BinaryOp.multiply.token .start, operand "c", TrailingOp.length.token .start]

/-- The tree of `-((a+(b*c))#)`. -/
def tree : Node :=
  .leading .negate (.trailing .length (.binary .add (.var "a" .start)
    (.binary .multiply (.var "b" .start) (.var "c" .start) .none .start) .none .start)
    .none .start) .none .start

theorem flat : Flat calls .operand tokens :=
  .leading rfl (.operand rfl (.binary rfl (.operand rfl (.binary rfl (.operand rfl
    (.trailing rfl .done))))))

/-- The leading operator binds looser than all that follows, and the trailing one looser than the
two binary ones. -/
theorem parse_tokens : parse tokens calls = (.ok ⟨[tree], .start⟩, calls) := by
  obtain ⟨t, hparse, -, -, -, hunique⟩ := parse_flat flat
  have hoperation : tree.IsOperation :=
    .leading _ _ (.trailing _ _ (.binary _ _ (.var _ _) (.binary _ _ (.var _ _) (.var _ _))))
  have hgrouped : tree.Grouped := by
    simp [tree, Node.Grouped, Node.leftSpine, Node.rightSpine, Follower.Binds, BinaryOp.follower,
      TrailingOp.follower, LeadingOp.precedence, BinaryOp.precedence, TrailingOp.precedence]
  rw [hunique tree hoperation rfl hgrouped]
  exact hparse

end Mixed

end Terse
