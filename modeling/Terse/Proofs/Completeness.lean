import Terse.Proofs.Depth
import Terse.Proofs.Precedence

/-!
# Derivations are runs

What `Reads` derives is what the rules of the grammar do, with a number of levels that depends on
the derivation.  Since `parse` ends with any larger number of levels as it does with its own, a
derivation for all tokens of a program tells what `parse` gives.

## Strategy

Together with `Terse.Proofs.Totality`, which goes from runs to derivations, this makes `Reads`
another way to say what `parse` does (`parse_of_reads`, `reads_of_parse`): statements about all
programs are shown by induction on the derivation, and statements about the shape of one program by
writing its derivation down.

* Each rule is run forwards: what its steps do is put together in their order, with `bind_ok` for a
  step that succeeds.  There is one lemma for each way in which a rule may go on, and it is about
  any grammar `g`, so it does not say how many levels there are.
* `Reads.runs` is the induction on the derivation.  A rule that is reached through the record of
  rules has one level less than the rule that uses it, so its number of levels goes up by one.
* A rule that uses several others needs as many levels as the deepest of them.  The others are
  lifted to that number with `Reading.Runs.mono`, which holds because more levels change only runs
  that reach the bound (`Terse.Proofs.Depth`).
-/

namespace Terse

/-- A trailing operator is not spelled as a binary one. -/
theorem TrailingOp.binary_ofSpelling?_of_some {spelling : String} {op : TrailingOp}
    (h : TrailingOp.ofSpelling? spelling = some op) : BinaryOp.ofSpelling? spelling = none := by
  unfold TrailingOp.ofSpelling? at h
  split at h
  · rename_i halias
    rw [halias]
    decide
  · have hspelling : op.spelling = spelling := by simpa using List.find?_some h
    rw [← hspelling]
    exact op.binary_ofSpelling?_spelling

namespace Grammar

/-- A rule, with a number of levels below it, leads from a cursor to another one and reads
something on the way. -/
def Reading.Runs (D : Nat) (c c' : Cursor) : Reading → Prop
  | .expression bound place node => readExpression (ofDepth D) bound place c = .ok node c'
  | .operators left bound force node => readOperators (ofDepth D) left bound force c = .ok node c'
  | .items closer siblings nodes => readItems (ofDepth D) closer siblings c = .ok nodes c'
  | .item token siblings siblings' => Grammar.item (ofDepth D) token siblings c = .ok siblings' c'
  | .operand place start => Grammar.operand (ofDepth D) place c = .ok start c'
  | .arguments count args => Grammar.arguments (ofDepth D) count c = .ok args c'
  | .combinator tokens position combined =>
    Grammar.combinator (ofDepth D) tokens position c = .ok combined c'

theorem Below.ok {α : Type} {x y : Parse α} (h : Below x y) {a : α} {c c' : Cursor}
    (hrun : x c = .ok a c') : y c = .ok a c' := by
  rcases h c with ⟨c₁, hexhausted⟩ | hsame
  · rw [hrun] at hexhausted
    cases hexhausted
  · rw [← hsame, hrun]

/-- More levels do not change what is read. -/
theorem Reading.Runs.mono {D D' : Nat} {c c' : Cursor} {reading : Reading}
    (h : reading.Runs D c c') (hle : D ≤ D') : reading.Runs D' c c' := by
  obtain ⟨extra, rfl⟩ := Nat.exists_eq_add_of_le hle
  have hrefines := ofDepth_refines_add D extra
  cases reading with
  | expression bound place node => exact (hrefines.readExpression bound place).ok h
  | operators left bound force node => exact (hrefines.readOperators left bound force).ok h
  | items closer siblings nodes => exact (hrefines.readItems closer siblings).ok h
  | item token siblings siblings' => exact (hrefines.item token siblings).ok h
  | operand place start => exact (hrefines.operand place).ok h
  | arguments count args => exact (hrefines.arguments count).ok h
  | combinator tokens position combined => exact (hrefines.combinator tokens position).ok h

/-! ## Single steps -/

section Steps

variable {token : Token} {rest : List Token} {finish : Position} {calls : CallTable}

theorem get_eq (c : Cursor) : (get : Parse Cursor) c = .ok c c := rfl

theorem peek_eq (c : Cursor) : peek c = .ok c.rest.head? c := rfl

theorem skip_eq : skip ⟨token :: rest, finish, calls⟩ = .ok () ⟨rest, finish, calls⟩ := rfl

theorem nextIs_eq (spelling : String) (c : Cursor) :
    nextIs spelling c = .ok (c.rest.head?.any (·.isSymbol spelling)) c := rfl

theorem atBoundary_eq (c : Cursor) : atBoundary c = .ok (c.rest.head?.all isCloser) c := rfl

theorem here_eq (c : Cursor) : here c = .ok c.position c := by
  obtain ⟨rest, finish, calls⟩ := c
  cases rest <;> rfl

end Steps

/-! ## Operands -/

section Operands

variable {g : Grammar} {place : Place} {rest : List Token} {finish : Position} {calls : CallTable}
  {position : Position} {name : String} {nodes : List Node} {c : Cursor}

theorem blockBody_run (hbody : g.items (some "\x7d") [] ⟨rest, finish, calls⟩ = .ok nodes c)
    (param : String) (position : Position) :
    blockBody g param position ⟨rest, finish, calls⟩ =
      .ok ⟨param, ⟨nodes, Cursor.position ⟨rest, finish, calls⟩⟩, position⟩ c := by
  rw [blockBody, bind_ok (here_eq _), bind_ok hbody]
  rfl

theorem operand_name : operand g place ⟨⟨.name, name, position⟩ :: rest, finish, calls⟩ =
    named g ⟨.name, name, position⟩ place ⟨⟨.name, name, position⟩ :: rest, finish, calls⟩ := rfl

theorem operand_symbol {spelling : String} :
    operand g place ⟨⟨.symbol, spelling, position⟩ :: rest, finish, calls⟩ =
      symbol g ⟨.symbol, spelling, position⟩ place
        ⟨⟨.symbol, spelling, position⟩ :: rest, finish, calls⟩ := rfl

theorem operand_namedBlock {bracePosition : Position} (hplace : place ≠ .right)
    (hbody : g.items (some "\x7d") [] ⟨rest, finish, calls⟩ = .ok nodes c) :
    operand g place
        ⟨⟨.name, name, position⟩ :: ⟨.symbol, "\x7b", bracePosition⟩ :: rest, finish, calls⟩ =
      .ok (.closed (.block ⟨name, ⟨nodes, Cursor.position ⟨rest, finish, calls⟩⟩, position⟩))
        c := by
  rw [operand_name, named, bind_ok skip_eq, bind_ok (nextIs_eq _ _),
    if_pos (by simp [hplace, Token.isSymbol]), bind_ok skip_eq, bind_ok (blockBody_run hbody _ _)]
  rfl

/-- A name that starts neither a block nor a definition is a call or a variable. -/
theorem operand_plainName (hblock : opensBlock place rest = false)
    (hdefinition : startsDefinition rest = false) {start : Start}
    (hrun : (match calls.find? name with
      | some count => do return .primary (.call name (← arguments g count) position)
      | none => return .primary (.var name position) : Parse Start) ⟨rest, finish, calls⟩ =
        .ok start c) :
    operand g place ⟨⟨.name, name, position⟩ :: rest, finish, calls⟩ = .ok start c := by
  have hblock : ¬ (decide (place ≠ .right) && rest.head?.any (·.isSymbol "\x7b")) = true :=
    Bool.not_eq_true _ ▸ hblock
  rw [operand_name, named, bind_ok skip_eq, bind_ok (nextIs_eq _ _), if_neg hblock,
    bind_ok (get_eq _), if_neg (Bool.not_eq_true _ ▸ hdefinition), bind_ok (get_eq _)]
  exact hrun

/-- The head of a definition is read up to `:=`. -/
theorem optionalParams_run {header : List Token} {params : List Param} (h : Header header params)
    (token : Token) (rest : List Token) (finish : Position) (calls : CallTable) :
    ∃ assign, optionalParams token ⟨header ++ rest, finish, calls⟩ =
      .ok params ⟨⟨.symbol, ":=", assign⟩ :: rest, finish, calls⟩ := by
  cases h with
  | bare assign => exact ⟨assign, rfl⟩
  | listed opening closing assign hparams =>
      have hopens : ∀ tokens, nextIs "(" ⟨⟨.symbol, "(", opening⟩ :: tokens, finish, calls⟩ =
        .ok true ⟨⟨.symbol, "(", opening⟩ :: tokens, finish, calls⟩ := fun _ => rfl
      refine ⟨assign, ?_⟩
      rw [List.cons_append, optionalParams, bind_ok (hopens _), if_pos rfl, bind_ok skip_eq,
        bind_ok (get_eq _)]
      simp only [List.append_assoc, List.cons_append, List.nil_append, readParams_params hparams]
      rfl

theorem operand_define {header : List Token} {params : List Param} {body : Node}
    (hheader : Header header params)
    (hbody : g.expression .lowest .operand ⟨rest, finish, calls.insert name params.length⟩ =
      .ok body c) :
    operand g place ⟨⟨.name, name, position⟩ :: (header ++ rest), finish, calls⟩ =
      .ok (.closed (.define name params body position)) c := by
  obtain ⟨assign, hparams⟩ :=
    optionalParams_run hheader ⟨.name, name, position⟩ rest finish calls
  have hbrace : (header ++ rest).head?.any (·.isSymbol "\x7b") = false := by
    cases hheader <;> rfl
  have hdefinition : definition g ⟨.name, name, position⟩ ⟨header ++ rest, finish, calls⟩ =
      .ok (.define name params body position) c := by
    rw [definition, bind_ok hparams, bind_ok skip_eq]
    exact bind_ok hbody
  rw [operand_name, named, bind_ok skip_eq, bind_ok (nextIs_eq _ _),
    if_neg (by rw [hbrace, Bool.and_false]; exact Bool.false_ne_true), bind_ok (get_eq _),
    if_pos (startsDefinition_header hheader rest), bind_ok hdefinition]
  rfl

theorem operand_block (hplace : place ≠ .right)
    (hbody : g.items (some "\x7d") [] ⟨rest, finish, calls⟩ = .ok nodes c) :
    operand g place ⟨⟨.symbol, "\x7b", position⟩ :: rest, finish, calls⟩ =
      .ok (.closed (.block
        ⟨implicitName, ⟨nodes, Cursor.position ⟨rest, finish, calls⟩⟩, position⟩)) c := by
  rw [operand_symbol, symbol]
  simp only [String.reduceEq, if_false, if_true, hplace]
  rw [bind_ok skip_eq, bind_ok (blockBody_run hbody _ _)]
  rfl

theorem operand_group (hbody : g.items (some ")") [] ⟨rest, finish, calls⟩ = .ok nodes c) :
    operand g place ⟨⟨.symbol, "(", position⟩ :: rest, finish, calls⟩ =
      .ok (.primary (.group ⟨nodes, Cursor.position ⟨rest, finish, calls⟩⟩ position)) c := by
  have hgroup : group g position ⟨rest, finish, calls⟩ =
      .ok (.group ⟨nodes, Cursor.position ⟨rest, finish, calls⟩⟩ position) c := by
    rw [group, bind_ok (here_eq _), bind_ok hbody]
    rfl
  rw [operand_symbol, symbol, if_pos rfl, bind_ok skip_eq, bind_ok hgroup]
  rfl

theorem operand_array (hbody : g.items (some "]") [] ⟨rest, finish, calls⟩ = .ok nodes c)
    (hblocks : nodes.countP Node.isBlock ≤ 1) :
    operand g place ⟨⟨.symbol, "[", position⟩ :: rest, finish, calls⟩ =
      .ok (.primary (.array ⟨nodes, Cursor.position ⟨rest, finish, calls⟩⟩ position)) c := by
  have harray : array g position ⟨rest, finish, calls⟩ =
      .ok (.array ⟨nodes, Cursor.position ⟨rest, finish, calls⟩⟩ position) c := by
    rw [array, bind_ok (here_eq _), bind_ok hbody, if_neg (Nat.not_lt.2 hblocks)]
    rfl
  rw [operand_symbol, symbol]
  simp only [String.reduceEq, if_false, if_true]
  rw [bind_ok skip_eq, bind_ok harray]
  rfl

/-- What a leading operator starts. -/
theorem operand_leading {op : LeadingOp} (hop : op ≠ .fold) :
    operand g place ⟨op.token position :: rest, finish, calls⟩ =
      leading g op (op.token position) ⟨op.token position :: rest, finish, calls⟩ := by
  have hbrackets : op.spelling ≠ "(" ∧ op.spelling ≠ "[" ∧ op.spelling ≠ "\x7b" ∧
      op.spelling ≠ "\\" := by
    revert hop
    cases op <;> decide
  obtain ⟨hparen, hbracket, hbrace, hfold⟩ := hbrackets
  rw [LeadingOp.token, operand_symbol, symbol]
  simp only [hparen, hbracket, hbrace, hfold, if_false, LeadingOp.ofSpelling?_spelling]

theorem leading_run {op : LeadingOp} {arg : Node} (hop : op.plain = true)
    (harg : g.expression (.level op.precedence) .operand ⟨rest, finish, calls⟩ = .ok arg c) :
    operand g place ⟨op.token position :: rest, finish, calls⟩ =
      .ok (.primary (.leading op arg .none position)) c := by
  have hfold : op ≠ .fold := by
    rintro rfl
    cases hop
  have hfilter : ¬ (op = .filter ∨ op = .any) := by
    rintro (rfl | rfl) <;> cases hop
  rw [operand_leading hfold, leading, bind_ok skip_eq, if_neg hfilter, bind_ok harg]
  rfl

theorem blockStart?_run {param : String} {naming : List Token} {bracePosition : Position}
    (hnaming : naming = [] ∧ param = implicitName ∨
      ∃ namePosition, naming = [⟨.name, param, namePosition⟩]) :
    blockStart? ⟨naming ++ ⟨.symbol, "\x7b", bracePosition⟩ :: rest, finish, calls⟩ =
      .ok (some (param, bracePosition)) ⟨rest, finish, calls⟩ := by
  rcases hnaming with ⟨rfl, rfl⟩ | ⟨namePosition, rfl⟩ <;> rfl

theorem filter_run {op : LeadingOp} {param : String} {naming : List Token}
    {bracePosition : Position} {arg : Node} {c₁ : Cursor} (hop : op = .filter ∨ op = .any)
    (hnaming : naming = [] ∧ param = implicitName ∨
      ∃ namePosition, naming = [⟨.name, param, namePosition⟩])
    (hbody : g.items (some "\x7d") [] ⟨rest, finish, calls⟩ = .ok nodes c₁)
    (harg : g.expression (.level op.precedence) .operand c₁ = .ok arg c) :
    operand g place
        ⟨op.token position :: (naming ++ ⟨.symbol, "\x7b", bracePosition⟩ :: rest), finish, calls⟩ =
      .ok (.primary (.leading op arg (.filter
        ⟨param, ⟨nodes, Cursor.position ⟨rest, finish, calls⟩⟩, bracePosition⟩) position)) c := by
  have hfold : op ≠ .fold := by
    rintro rfl
    simp at hop
  rw [operand_leading hfold, leading, bind_ok skip_eq, if_pos hop, filter,
    bind_ok (blockStart?_run hnaming)]
  simp only
  rw [bind_ok (blockBody_run hbody _ _), bind_ok harg]
  rfl

/-- Where an operand is left out, the variable `_` stands in. -/
theorem operand_standIn {token : Token} (h : StandsIn place token) :
    operand g place ⟨token :: rest, finish, calls⟩ =
      .ok (.implicit (.implicit token.position)) ⟨token :: rest, finish, calls⟩ := by
  obtain ⟨kind, spelling, position⟩ := token
  obtain ⟨rfl, hcases⟩ := h
  rw [operand_symbol]
  -- A brace that opens no block here, a fold, an operator that needs a left operand, or a closer.
  rcases hcases with ⟨rfl, rfl⟩ | rfl | ⟨hleading, hop⟩ | ⟨hplace, hcloser⟩
  · rfl
  · rfl
  · have hleading : LeadingOp.ofSpelling? spelling = none := hleading
    have hop : (BinaryOp.ofSpelling? spelling).isSome = true ∨
      (TrailingOp.ofSpelling? spelling).isSome = true := hop
    have hparen : spelling ≠ "(" := by rintro rfl; revert hop; decide
    have hbracket : spelling ≠ "[" := by rintro rfl; revert hop; decide
    have hbrace : spelling ≠ "\x7b" := by rintro rfl; revert hop; decide
    have hfold : spelling ≠ "\\" := by rintro rfl; revert hleading; decide
    rw [symbol]
    simp only [hparen, hbracket, hbrace, hfold, if_false, hleading]
    rw [if_pos (by simpa using hop)]
    rfl
  · have hspelling : spelling = ")" ∨ spelling = "]" ∨ spelling = "\x7d" ∨ spelling = "," := by
      simpa [isCloser, Token.isSymbol, or_assoc] using hcloser
    rcases hspelling with rfl | rfl | rfl | rfl <;>
      cases place <;> first | rfl | exact absurd rfl hplace

end Operands

/-! ## Operators behind a left operand -/

section Operators

variable {g : Grammar} {left right node : Node} {bound : Bound} {force : Bool}
  {position : Position} {rest : List Token} {finish : Position} {calls : CallTable} {c₁ c₂ : Cursor}

theorem operators_stop {c : Cursor} (h : Stops bound force c.rest) :
    readOperators g left bound force c = .ok left c := by
  obtain ⟨rest, finish, calls⟩ := c
  cases rest with
  | nil => rfl
  | cons token rest =>
      have hstops := h token rfl
      rw [readOperators, bind_ok (peek_eq _)]
      by_cases hkind : token.kind = .symbol
      -- An operator that stops the rule is refused by the bound.
      · simp only [List.head?_cons, hkind, if_true]
        rw [Token.follower?, if_pos hkind] at hstops
        cases hbinary : BinaryOp.ofSpelling? token.text with
        | some op =>
            have hrefused := hstops op.follower (by simp [hbinary])
            exact congrFun (if_neg (Bool.not_eq_true _ ▸ hrefused)) _
        | none =>
            cases htrailing : TrailingOp.ofSpelling? token.text with
            | some op =>
                have hrefused := hstops op.follower (by simp [hbinary, htrailing])
                exact congrFun (if_neg (Bool.not_eq_true _ ▸ hrefused)) _
            | none => rfl
      · simp only [List.head?_cons, hkind, if_false]
        rfl

/-- A binary operator that is taken. -/
theorem operators_binary_run {op : BinaryOp}
    (htaken : (force || bound.admits op.precedence op.chains) = true)
    (hbinary : binary g left op (op.token position) ⟨rest, finish, calls⟩ = .ok node c₁) :
    readOperators g left bound force ⟨op.token position :: rest, finish, calls⟩ =
      g.operators node bound false c₁ := by
  have hspelling : BinaryOp.ofSpelling? (op.token position).text = some op :=
    BinaryOp.ofSpelling?_spelling op
  rw [readOperators, bind_ok (peek_eq _)]
  simp only [List.head?_cons, hspelling, htaken, if_true]
  rw [if_pos (show (op.token position).kind = .symbol from rfl), bind_ok skip_eq, bind_ok hbinary]

/-- A trailing operator that is taken. -/
theorem operators_trailing_run {spelling : String} {op : TrailingOp}
    (hspelling : TrailingOp.ofSpelling? spelling = some op)
    (htaken : (force || bound.admits op.precedence true) = true)
    (htrailing : trailing left op ⟨.symbol, spelling, position⟩ ⟨rest, finish, calls⟩ =
      .ok node c₁) :
    readOperators g left bound force ⟨⟨.symbol, spelling, position⟩ :: rest, finish, calls⟩ =
      g.operators node bound false c₁ := by
  have hbinary := TrailingOp.binary_ofSpelling?_of_some hspelling
  rw [readOperators, bind_ok (peek_eq _)]
  simp only [List.head?_cons, hbinary, hspelling, htaken, if_true]
  rw [bind_ok skip_eq, bind_ok htrailing]

theorem binary_dot {name : String} {namePosition : Position} {count : Nat} {args : List Node}
    (hname : calls.find? name = some (count + 1))
    (hargs : arguments g count ⟨rest, finish, calls⟩ = .ok args c₁) :
    binary g left .call (BinaryOp.call.token position)
        ⟨⟨.name, name, namePosition⟩ :: rest, finish, calls⟩ =
      .ok (.binary .call left (.call name args namePosition) .none position) c₁ := by
  rw [binary, if_pos rfl, callTarget, bind_ok (get_eq _)]
  simp only [if_true, hname]
  rw [bind_ok skip_eq, bind_ok hargs]
  rfl

theorem binary_zipWith {op : BinaryOp} {opPosition : Position} {combined : Combinator}
    (hcombinator : combinator g [op.token opPosition] position ⟨rest, finish, calls⟩ =
      .ok combined c₁)
    (hboundary : c₁.rest.head?.all isCloser = false)
    (hright : g.expression (.level BinaryOp.zip.precedence) .right c₁ = .ok right c₂) :
    binary g left .zip (BinaryOp.zip.token position)
        ⟨op.token opPosition :: rest, finish, calls⟩ =
      .ok (.binary .zip left right (.zip combined) position) c₂ := by
  have hzip : zipCombinator g (BinaryOp.zip.token position)
      ⟨op.token opPosition :: rest, finish, calls⟩ = .ok (.zip combined) c₁ := by
    rw [zipCombinator, bind_ok (peek_eq _)]
    simp only [List.head?_cons, op.isBinary_token, if_true]
    rw [bind_ok skip_eq]
    refine (bind_ok hcombinator).trans ?_
    rw [bind_ok (atBoundary_eq _), hboundary]
    rfl
  rw [binary, if_neg (by decide), if_pos rfl, bind_ok hzip]
  exact bind_ok hright

theorem binary_plain {op : BinaryOp} (hcall : op ≠ .call)
    (hzip : op = .zip → rest.head?.any isBinary = false)
    (hright : g.expression (.level op.precedence) .right ⟨rest, finish, calls⟩ = .ok right c₁) :
    binary g left op (op.token position) ⟨rest, finish, calls⟩ =
      .ok (.binary op left right .none position) c₁ := by
  rw [binary, if_neg hcall]
  by_cases heq : op = .zip
  · have hnone := hzip heq
    have hextra : zipCombinator g (op.token position) ⟨rest, finish, calls⟩ =
        .ok .none ⟨rest, finish, calls⟩ := by
      rw [zipCombinator, bind_ok (peek_eq _)]
      cases rest with
      | nil => rfl
      | cons token rest => exact congrFun (if_neg (Bool.not_eq_true _ ▸ hnone)) _
    rw [if_pos heq, bind_ok hextra]
    exact bind_ok hright
  · rw [if_neg heq]
    exact bind_ok hright

theorem trailing_base {numerals : List Token} {width : Nat} {word : String}
    {wordPosition : Position} {codes : List BaseCode} (token : Token)
    (hwidth : numerals = [] ∧ width = 0 ∨ ∃ digits widthPosition,
      numerals = [⟨.numeral, digits, widthPosition⟩] ∧ readWidth? digits = some width)
    (hcodes : word.toList.mapM BaseCode.ofChar? = some codes) :
    trailing left .base token
        ⟨numerals ++ ⟨.name, word, wordPosition⟩ :: rest, finish, calls⟩ =
      .ok (.trailing .base left (.base width codes) token.position) ⟨rest, finish, calls⟩ := by
  have hreadWidth :
      baseWidth token ⟨numerals ++ ⟨.name, word, wordPosition⟩ :: rest, finish, calls⟩ =
        .ok width ⟨⟨.name, word, wordPosition⟩ :: rest, finish, calls⟩ := by
    -- The width is left out, or it is a numeral in front of the word.
    rcases hwidth with ⟨rfl, rfl⟩ | ⟨digits, widthPosition, rfl, hdigits⟩
    · rfl
    · rw [baseWidth, bind_ok (peek_eq _)]
      simp only [List.cons_append, List.nil_append, List.head?_cons, if_true, hdigits]
      rw [bind_ok skip_eq]
      rfl
  have hreadCodes : baseCodes token ⟨⟨.name, word, wordPosition⟩ :: rest, finish, calls⟩ =
      .ok codes ⟨rest, finish, calls⟩ := by
    rw [baseCodes, bind_ok (peek_eq _)]
    simp only [List.head?_cons, if_true, hcodes]
    rw [bind_ok skip_eq]
    rfl
  rw [trailing, if_pos rfl, bind_ok hreadWidth, bind_ok hreadCodes]
  rfl

end Operators

/-! ## Items, arguments and combinators -/

section Items

variable {g : Grammar} {token : Token} {siblings : List Sibling} {node : Node} {rest : List Token}
  {finish : Position} {calls : CallTable} {c c₁ c₂ c₃ : Cursor}

theorem combinator_run {tokens : List Token} {position : Position} {expr : Node}
    (hread : g.items none [] ⟨operandsAround tokens position, position, c.calls⟩ =
      .ok [expr] c₁) :
    combinator g tokens position c = .ok ⟨expr, position⟩ { c with calls := c₁.calls } := by
  have hapart : apart (operandsAround tokens position) position (g.items none []) c =
      .ok [expr] { c with calls := c₁.calls } := by
    simp only [apart, hread]
  exact bind_ok hapart

theorem argument_missing (hboundary : c.rest.head?.all isCloser = true) :
    argument g c = .ok (.implicit c.position) c := by
  rw [argument, bind_ok (atBoundary_eq _), if_pos hboundary, bind_ok (here_eq _)]
  rfl

theorem argument_run {arg : Node} (hboundary : c.rest.head?.all isCloser = false)
    (harg : g.expression .highest .argument c = .ok arg c₁) : argument g c = .ok arg c₁ := by
  rw [argument, bind_ok (atBoundary_eq _), if_neg (Bool.not_eq_true _ ▸ hboundary), harg]

theorem arguments_run {count : Nat} {arg : Node} {args : List Node}
    (harg : argument g c = .ok arg c₁) (hrest : arguments g count c₁ = .ok args c₂) :
    arguments g (count + 1) c = .ok (arg :: args) c₂ := by
  rw [arguments, bind_ok harg, bind_ok hrest]
  rfl

theorem item_fresh (hfold : token.isSymbol "\\" = false) (halone : StandsAlone token siblings)
    (hread : g.expression .lowest .item ⟨token :: rest, finish, calls⟩ = .ok node c)
    (hprogress : c.rest.length ≠ (token :: rest).length) :
    item g token siblings ⟨token :: rest, finish, calls⟩ =
      .ok (⟨node, token :: rest, c.rest⟩ :: siblings) c := by
  have hfresh : freshItem g token siblings ⟨token :: rest, finish, calls⟩ =
      .ok (⟨node, token :: rest, c.rest⟩ :: siblings) c := by
    rw [freshItem, bind_ok (get_eq _), bind_ok hread, bind_ok (get_eq _), if_neg hprogress]
    rfl
  unfold item
  rw [if_neg (Bool.not_eq_true _ ▸ hfold), ← hfresh]
  -- The item is fresh if it takes no left operand, if there is nothing to take, or if it may not.
  cases hop : adoptingPrecedence? token with
  | none => rfl
  | some precedence =>
      cases siblings with
      | nil => rfl
      | cons previous others =>
          have hrefused := halone precedence hop previous rfl
          exact congrFun (if_neg (Bool.not_eq_true _ ▸ hrefused)) _

theorem item_adopt {previous : Sibling} {others : List Sibling} {precedence : Nat}
    (hfold : token.isSymbol "\\" = false) (hop : adoptingPrecedence? token = some precedence)
    (hadopt : adoptable precedence previous.node = true)
    (hread : g.operators previous.node .lowest true ⟨token :: rest, finish, calls⟩ = .ok node c) :
    item g token (previous :: others) ⟨token :: rest, finish, calls⟩ =
      .ok (⟨node, previous.start, c.rest⟩ :: others) c := by
  unfold item
  rw [if_neg (Bool.not_eq_true _ ▸ hfold)]
  simp only [hop, hadopt, if_true]
  rw [bind_ok hread]
  rfl

/-- A fold behind what it takes from the items before it. -/
theorem item_fold {siblings₁ siblings₂ : List Sibling} {map : Option Block}
    {start₁ start₂ : List Token} {tokens : Option (List Token)} {combined : Option Combinator}
    {arg : Node} (hfold : token.isSymbol "\\" = true)
    (hmap : takeMap (token :: rest) siblings = (map, start₁, siblings₁))
    (htokens : takeCombinator start₁ siblings₁ = (tokens, start₂, siblings₂))
    (hcombined : tokens = none ∧ combined = none ∧ c₁ = ⟨rest, finish, calls⟩ ∨
      ∃ tokens' combined', tokens = some tokens' ∧ combined = some combined' ∧
        combinator g tokens' token.position ⟨rest, finish, calls⟩ = .ok combined' c₁)
    (harg : g.expression (.level 0) .operand c₁ = .ok arg c₂)
    (hoperators : g.operators (.leading .fold arg (.fold map combined) token.position) .lowest false
      c₂ = .ok node c₃) :
    item g token siblings ⟨token :: rest, finish, calls⟩ =
      .ok (⟨node, start₂, c₃.rest⟩ :: siblings₂) c₃ := by
  unfold item
  rw [if_pos hfold, fold, bind_ok (get_eq _)]
  simp only [hmap, htokens]
  rw [bind_ok skip_eq]
  -- Only a combinator that is there is read; it may declare functions for what follows.
  rcases hcombined with ⟨rfl, rfl, rfl⟩ | ⟨tokens', combined', rfl, rfl, hcombinator⟩
  · refine (bind_ok harg).trans ?_
    rw [bind_ok hoperators]
    rfl
  · have hsome : (some <$> combinator g tokens' token.position : Parse (Option Combinator))
        ⟨rest, finish, calls⟩ = .ok (some combined') c₁ := by
      simp only [Functor.map, EStateM.map, hcombinator]
    refine (bind_ok hsome).trans ?_
    rw [bind_ok harg, bind_ok hoperators]
    rfl

theorem items_next {closer : Option String} {siblings' : List Sibling}
    (hclose : closer.any token.isSymbol = false) (hcomma : token.isSymbol "," = false)
    (hitem : item g token siblings ⟨token :: rest, finish, calls⟩ = .ok siblings' c) :
    readItems g closer siblings ⟨token :: rest, finish, calls⟩ = g.items closer siblings' c := by
  rw [readItems, bind_ok (peek_eq _)]
  simp only [List.head?_cons, hclose, hcomma, Bool.false_eq_true, if_false]
  exact bind_ok hitem

theorem items_comma {closer : Option String} (hclose : closer.any token.isSymbol = false)
    (hcomma : token.isSymbol "," = true) :
    readItems g closer siblings ⟨token :: rest, finish, calls⟩ =
      g.items closer siblings ⟨rest, finish, calls⟩ := by
  rw [readItems, bind_ok (peek_eq _)]
  simp only [List.head?_cons, hclose, hcomma, Bool.false_eq_true, if_false, if_true]
  exact bind_ok skip_eq

theorem items_close {spelling : String} (htoken : token.isSymbol spelling = true) :
    readItems g (some spelling) siblings ⟨token :: rest, finish, calls⟩ =
      .ok (siblings.map (·.node)).reverse ⟨rest, finish, calls⟩ := by
  rw [readItems, bind_ok (peek_eq _)]
  simp only [List.head?_cons, Option.any_some, htoken, if_true]
  exact bind_ok skip_eq

end Items

/-! ## Derivations -/

/-- What is derived is read, with enough levels.  Where several rules run one after another, each of
them also runs with the largest of their numbers of levels. -/
theorem Reads.runs {reading : Reading} {c c' : Cursor} (h : Reads reading c c') :
    ∃ D, reading.Runs D c c' := by
  induction h with
  -- Rules that use no other rule need no level at all.
  | absent | text | numeral | noArguments | done => exact ⟨0, rfl⟩
  | standIn htoken => exact ⟨0, operand_standIn htoken⟩
  | var hblock hdefinition hname =>
      exact ⟨0, operand_plainName hblock hdefinition (by rw [hname]; rfl)⟩
  | call hblock hdefinition hname _ ih =>
      obtain ⟨D, hargs⟩ := ih
      exact ⟨D, operand_plainName hblock hdefinition (by rw [hname]; exact bind_ok hargs)⟩
  -- A body, a group or an argument is read one level below.
  | define hheader _ ih =>
      obtain ⟨D, hbody⟩ := ih
      exact ⟨D + 1, operand_define hheader hbody⟩
  | namedBlock hplace _ ih =>
      obtain ⟨D, hbody⟩ := ih
      exact ⟨D + 1, operand_namedBlock hplace hbody⟩
  | block hplace _ ih =>
      obtain ⟨D, hbody⟩ := ih
      exact ⟨D + 1, operand_block hplace hbody⟩
  | group _ ih =>
      obtain ⟨D, hbody⟩ := ih
      exact ⟨D + 1, operand_group hbody⟩
  | array _ hblocks ih =>
      obtain ⟨D, hbody⟩ := ih
      exact ⟨D + 1, operand_array hbody hblocks⟩
  | leading hop _ ih =>
      obtain ⟨D, harg⟩ := ih
      exact ⟨D + 1, leading_run hop harg⟩
  | filter hop hnaming _ _ ihbody iharg =>
      obtain ⟨D₁, hbody⟩ := ihbody
      obtain ⟨D₂, harg⟩ := iharg
      exact ⟨max D₁ D₂ + 1, filter_run hop hnaming (hbody.mono (le_max_left _ _))
        (harg.mono (le_max_right _ _))⟩
  | missing hboundary _ ih =>
      obtain ⟨D, hrest⟩ := ih
      exact ⟨D, arguments_run (argument_missing hboundary) hrest⟩
  -- The arguments behind the first one are read on the same level, the first one a level below.
  | argument hboundary _ _ iharg ihrest =>
      obtain ⟨D₁, harg⟩ := iharg
      obtain ⟨D₂, hrest⟩ := ihrest
      exact ⟨max D₁ D₂ + 1, arguments_run (argument_run hboundary (harg.mono (le_max_left _ _)))
        (hrest.mono (Nat.le_succ_of_le (le_max_right _ _)))⟩
  | closed _ ih =>
      obtain ⟨D, hoperand⟩ := ih
      exact ⟨D, bind_ok hoperand⟩
  | primary _ _ ihoperand ihoperators | implicit _ _ ihoperand ihoperators =>
      obtain ⟨D₁, hoperand⟩ := ihoperand
      obtain ⟨D₂, hoperators⟩ := ihoperators
      have hoperand := hoperand.mono (Nat.le_succ_of_le (le_max_left D₁ D₂))
      exact ⟨max D₁ D₂ + 1, (bind_ok hoperand).trans (hoperators.mono (le_max_right _ _))⟩
  | stop hstops => exact ⟨0, operators_stop hstops⟩
  | dot htaken hname _ _ ihargs ihrest =>
      obtain ⟨D₁, hargs⟩ := ihargs
      obtain ⟨D₂, hrest⟩ := ihrest
      have hargs := hargs.mono (Nat.le_succ_of_le (le_max_left D₁ D₂))
      exact ⟨max D₁ D₂ + 1, (operators_binary_run htaken (binary_dot hname hargs)).trans
        (hrest.mono (le_max_right _ _))⟩
  -- A combinator is read on the level of the operator, what stands on its right a level below.
  | zipWith htaken _ hboundary _ _ ihcombinator ihright ihrest =>
      obtain ⟨D₁, hcombinator⟩ := ihcombinator
      obtain ⟨D₂, hright⟩ := ihright
      obtain ⟨D₃, hrest⟩ := ihrest
      have hcombinator := hcombinator.mono (by omega : D₁ ≤ max D₁ (max D₂ D₃) + 1)
      have hright := hright.mono (by omega : D₂ ≤ max D₁ (max D₂ D₃))
      exact ⟨max D₁ (max D₂ D₃) + 1, (operators_binary_run htaken
        (binary_zipWith hcombinator hboundary hright)).trans (hrest.mono (by omega))⟩
  | binary htaken hcall hzip _ _ ihright ihrest =>
      obtain ⟨D₁, hright⟩ := ihright
      obtain ⟨D₂, hrest⟩ := ihrest
      refine ⟨max D₁ D₂ + 1, (operators_binary_run htaken (binary_plain hcall hzip ?_)).trans
        (hrest.mono (le_max_right _ _))⟩
      exact hright.mono (le_max_left _ _)
  | @trailing _ _ _ _ op _ _ _ _ _ htaken hop _ ih =>
      obtain ⟨D, hrest⟩ := ih
      have hbase : op ≠ .base := by
        rintro rfl
        cases hop
      refine ⟨D + 1, (operators_trailing_run op.ofSpelling?_spelling htaken ?_).trans hrest⟩
      exact congrFun (if_neg hbase) _
  | base htaken hop hwidth hcodes _ ih =>
      obtain ⟨D, hrest⟩ := ih
      exact ⟨D + 1, (operators_trailing_run hop htaken (trailing_base _ hwidth hcodes)).trans hrest⟩
  | close htoken => exact ⟨0, items_close htoken⟩
  | comma hclose hcomma _ ih =>
      obtain ⟨D, hrest⟩ := ih
      exact ⟨D + 1, (items_comma hclose hcomma).trans hrest⟩
  -- The item is read on the level of the items, the items behind it a level below.
  | next hclose hcomma _ _ ihitem ihrest =>
      obtain ⟨D₁, hitem⟩ := ihitem
      obtain ⟨D₂, hrest⟩ := ihrest
      have hitem := hitem.mono (Nat.le_succ_of_le (le_max_left D₁ D₂))
      exact ⟨max D₁ D₂ + 1, (items_next hclose hcomma hitem).trans (hrest.mono (le_max_right _ _))⟩
  | fresh hfold halone _ hprogress ih =>
      obtain ⟨D, hread⟩ := ih
      exact ⟨D + 1, item_fresh hfold halone hread hprogress⟩
  | adopt hfold hop hadopt _ ih =>
      obtain ⟨D, hread⟩ := ih
      exact ⟨D + 1, item_adopt hfold hop hadopt hread⟩
  | fold hfold hmap hcombinator _ _ iharg ihoperators =>
      obtain ⟨D₁, harg⟩ := iharg
      obtain ⟨D₂, hoperators⟩ := ihoperators
      exact ⟨max D₁ D₂ + 1, item_fold hfold hmap hcombinator (.inl ⟨rfl, rfl, rfl⟩)
        (harg.mono (le_max_left _ _)) (hoperators.mono (le_max_right _ _))⟩
  | foldWith hfold hmap hcombinator _ _ _ ihread iharg ihoperators =>
      obtain ⟨D₁, hread⟩ := ihread
      obtain ⟨D₂, harg⟩ := iharg
      obtain ⟨D₃, hoperators⟩ := ihoperators
      have hread := hread.mono (by omega : D₁ ≤ max D₁ (max D₂ D₃) + 1)
      exact ⟨max D₁ (max D₂ D₃) + 1, item_fold hfold hmap hcombinator
        (.inr ⟨_, _, rfl, rfl, hread⟩) (harg.mono (by omega)) (hoperators.mono (by omega))⟩
  | combinator _ ih =>
      obtain ⟨D, hread⟩ := ih
      exact ⟨D + 1, combinator_run hread⟩

/-- An expression is read in one way only, since the rule that reads it is a function. -/
theorem Reads.expression_unique {bound : Bound} {place : Place} {node node' : Node}
    {c c₁ c₂ : Cursor} (h : Reads (.expression bound place node) c c₁)
    (h' : Reads (.expression bound place node') c c₂) : node = node' ∧ c₁ = c₂ := by
  obtain ⟨D, hrun⟩ := h.runs
  obtain ⟨D', hrun'⟩ := h'.runs
  have hfirst : readExpression (ofDepth (max D D')) bound place c = .ok node c₁ :=
    hrun.mono (Nat.le_max_left D D')
  have hsecond : readExpression (ofDepth (max D D')) bound place c = .ok node' c₂ :=
    hrun'.mono (Nat.le_max_right D D')
  rw [hfirst] at hsecond
  exact EStateM.Result.ok.inj hsecond

/-- A derivation for all tokens of a program tells what the program is. -/
theorem parse_of_reads {tokens : List Token} {calls : CallTable} {nodes : List Node} {c : Cursor}
    (h : Reads (.items none [] nodes) (.start tokens calls) c) :
    parse tokens calls = (.ok ⟨nodes, (Cursor.start tokens calls).position⟩, c.calls) := by
  obtain ⟨D, hrun⟩ := h.runs
  have hrun : (ofDepth (sufficientDepth tokens.length + (D + 1))).items none []
      (.start tokens calls) = .ok nodes c := hrun.mono (Nat.le_add_left D _)
  have hmore := (ofDepth_refines_add (sufficientDepth tokens.length) (D + 1)).items none []
  -- The run that `parse` makes ends, and its end is also that of the run with more levels.
  rcases run_cases tokens calls with ⟨nodes', c₁, hrun', -⟩ | ⟨error, c₁, hrun'⟩
  · have hsame := hmore.ok hrun'
    rw [hrun] at hsame
    obtain ⟨rfl, rfl⟩ := EStateM.Result.ok.inj hsame
    exact parse_of_ok hrun'
  · rcases hmore (.start tokens calls) with ⟨c₂, hexhausted⟩ | hsame
    · rw [hrun'] at hexhausted
      cases hexhausted
    · rw [hrun', hrun] at hsame
      cases hsame

/-- What is read from the tokens of a program, if it is read at all. -/
theorem reads_of_parse {tokens : List Token} {calls : CallTable} {program : Program}
    (h : (parse tokens calls).1 = .ok program) :
    ∃ c, Reads (.items none [] program.items) (.start tokens calls) c ∧
      (parse tokens calls).2 = c.calls := by
  rcases run_cases tokens calls with ⟨nodes, c, hrun, hreads⟩ | ⟨error, c, hrun⟩
  · rw [parse_of_ok hrun] at h ⊢
    obtain rfl := Except.ok.inj h
    exact ⟨c, hreads, rfl⟩
  · rw [parse_of_fault hrun] at h
    cases h

end Grammar

end Terse
