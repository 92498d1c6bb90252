import Mathlib.Tactic.Ring
import Terse.Proofs.Derivation

/-!
# Reading ends

Every list of tokens, well formed or not, is read to the end or refused with a syntax error: the
bound on the number of levels is never reached, and no rule goes beyond the last token.

## Strategy

Rules may go on to other rules without reading a token, and a fold reads tokens again that were
read before, with two names added to them.  So neither the number of tokens that are left nor the
number of tokens that are read again gets smaller.  What gets smaller is a weight in which a symbol
counts as much as three names:

* the combinator of a fold loses the symbol of the fold and gets two names;
* the combinator of a zip is one of two symbols and gets two names.

The weight of what is left bounds the levels that an expression and the operators behind a left
operand need (`levels`).  Items also look back, so what they need depends on the weight of all
tokens from their first one on as well (`Spans`).

`Meets` says of one run that it stops without a syntax error only if the depth is short.  In the
same go it is shown that runs that succeed have a derivation, because the weight of what is left
after one rule is needed for the next.

`Serves D` is what is carried from one depth to the next: the three rules that the grammar goes
through meet their specifications with `D` levels.  The lemmas of `Serves` follow the rules in the
order of the grammar; each assumes `Serves D` for the rules it uses and ends with the weight, and so
with the levels, that the rule itself needs.  `serves` is the induction on the depth.
-/

namespace Terse

/-! ## Weights and levels -/

/-- A symbol weighs more than the names of two operands. -/
def Token.weight (token : Token) : Nat := if token.kind = .symbol then 3 else 1

theorem Token.weight_pos (token : Token) : 0 < token.weight := by
  unfold Token.weight
  split <;> omega

theorem Token.weight_of_isSymbol {token : Token} {spelling : String}
    (h : token.isSymbol spelling = true) : token.weight = 3 :=
  if_pos (Token.kind_of_isSymbol h)

namespace Grammar

def weight (tokens : List Token) : Nat := (tokens.map Token.weight).sum

@[simp] theorem weight_nil : weight [] = 0 := rfl

@[simp] theorem weight_cons (token : Token) (rest : List Token) :
    weight (token :: rest) = token.weight + weight rest := by
  simp [weight]

@[simp] theorem weight_append (first second : List Token) :
    weight (first ++ second) = weight first + weight second := by
  simp [weight]

theorem weight_le_of_suffix {tokens tokens' : List Token} (h : tokens' <:+ tokens) :
    weight tokens' ≤ weight tokens := by
  obtain ⟨before, rfl⟩ := h
  simp

/-- Behind a token there is less weight. -/
theorem weight_lt_of_suffix {token : Token} {rest tokens : List Token} (h : tokens <:+ rest) :
    weight tokens < weight (token :: rest) := by
  have hle := weight_le_of_suffix h
  have hpos := token.weight_pos
  rw [weight_cons]
  omega

theorem weight_le_length (tokens : List Token) : weight tokens ≤ 3 * tokens.length := by
  induction tokens with
  | nil => simp
  | cons token rest ih =>
      have hthree : token.weight ≤ 3 := by
        unfold Token.weight
        split <;> omega
      simp only [weight_cons, List.length_cons]
      omega

/-- The levels that tokens of a weight need at most, up to a constant. -/
def levels : Nat → Nat
  | 0 => 0
  | weight + 1 => levels weight + weight + 2

theorem two_mul_levels (w : Nat) : 2 * levels w = w * (w + 3) := by
  induction w with
  | zero => rfl
  | succ w ih =>
      simp only [levels, Nat.mul_add, ih]
      ring

theorem levels_mono {w w' : Nat} (h : w ≤ w') : levels w ≤ levels w' := by
  induction h with
  | refl => exact Nat.le_refl _
  | step _ ih =>
      simp only [levels]
      omega

/-- Less weight leaves room for the items of that weight. -/
theorem levels_lt {w w' : Nat} (h : w < w') : levels w + w + 2 ≤ levels w' :=
  levels_mono h

/-! ## Runs that end -/

/-- How a run may end: with a result that satisfies `Q`, with a syntax error, or, provided that
the depth is short, without either. -/
def Meets {α : Type} (x : Parse α) (c : Cursor) (Q : α → Cursor → Prop) (short : Prop) : Prop :=
  match x c with
  | .ok a c' => Q a c'
  | .error (.fault _) _ => True
  | .error .exhausted _ => short
  | .error .overrun _ => False

namespace Meets

variable {α β : Type} {x : Parse α} {f : α → Parse β} {c c' : Cursor} {Q Q' : α → Cursor → Prop}
  {R : β → Cursor → Prop} {short s : Prop}

theorem pure {a : α} (ha : Q a c) : Meets (Pure.pure a) c Q short := ha

theorem fail (error : SyntaxError) : Meets (Grammar.fail error : Parse α) c Q short := trivial

theorem of_ok (h : Meets x c Q short) {a : α} (hrun : x c = .ok a c') : Q a c' := by
  unfold Meets at h
  rw [hrun] at h
  exact h

theorem mono (h : Meets x c Q short) (hQ : ∀ a c', Q a c' → Q' a c') (hshort : short → s) :
    Meets x c Q' s := by
  unfold Meets at h ⊢
  cases hrun : x c with
  | ok a c' =>
      rw [hrun] at h
      exact hQ a c' h
  | error stop c' =>
      rw [hrun] at h
      cases stop with
      | fault error => trivial
      | exhausted => exact hshort h
      | overrun => exact h

theorem bind (hx : Meets x c Q short) (hf : ∀ a c', Q a c' → Meets (f a) c' R short) :
    Meets (x >>= f) c R short := by
  unfold Meets at hx ⊢
  simp only [Bind.bind, EStateM.bind]
  cases hrun : x c with
  | ok a c' =>
      rw [hrun] at hx
      exact hf a c' hx
  | error stop c' =>
      rw [hrun] at hx
      cases stop with
      | fault error => trivial
      | exhausted => exact hx
      | overrun => exact hx

theorem ite {p : Prop} [Decidable p] {y : Parse α} (hx : p → Meets x c Q short)
    (hy : ¬ p → Meets y c Q short) : Meets (if p then x else y) c Q short := by
  by_cases hp : p
  · rw [if_pos hp]
    exact hx hp
  · rw [if_neg hp]
    exact hy hp

/-- A step whose result is known. -/
theorem after (a : α) (c' : Cursor) (hx : x c = .ok a c') (hf : Meets (f a) c' R short) :
    Meets (x >>= f) c R short := by
  unfold Meets at hf ⊢
  simp only [Bind.bind, EStateM.bind, hx]
  exact hf

/-- A step that only looks at the cursor. -/
theorem look (a : α) (hx : x c = .ok a c) (hf : Meets (f a) c R short) :
    Meets (x >>= f) c R short :=
  after a c hx hf

theorem skip {token : Token} {rest : List Token} {finish : Position} {calls : CallTable}
    {f : Unit → Parse β} (hf : Meets (f ()) ⟨rest, finish, calls⟩ R short) :
    Meets (Grammar.skip >>= f) ⟨token :: rest, finish, calls⟩ R short :=
  after () _ rfl hf

/-- A parser that reads tokens of its own leaves the tokens around as they are. -/
theorem apart {tokens : List Token} {finish : Position}
    (hx : Meets x ⟨tokens, finish, c.calls⟩ Q short) :
    Meets (Grammar.apart tokens finish x) c
      (fun a c' => ∃ c₁, Q a c₁ ∧ c' = { c with calls := c₁.calls }) short := by
  unfold Meets at hx ⊢
  unfold Grammar.apart
  cases hrun : x ⟨tokens, finish, c.calls⟩ with
  | ok a c₁ =>
      rw [hrun] at hx
      exact ⟨c₁, hx, rfl⟩
  | error stop c₁ =>
      rw [hrun] at hx
      cases stop with
      | fault error => trivial
      | exhausted => exact hx
      | overrun => exact hx

end Meets

/-! ## What the rules need -/

/-- The items in front of some tokens, with these tokens, have a weight of `W` at most. -/
structure Spans (siblings : List Sibling) (rest : List Token) (W : Nat) : Prop where
  ahead : weight rest ≤ W
  behind : ∀ sibling ∈ siblings,
    rest <:+ sibling.stop ∧ sibling.stop <:+ sibling.start ∧ weight sibling.start ≤ W

namespace Spans

variable {siblings others : List Sibling} {start start' rest rest' : List Token} {W : Nat}

theorem of_suffix (h : Spans siblings rest W) (hsuffix : rest' <:+ rest) :
    Spans siblings rest' W where
  ahead := Nat.le_trans (weight_le_of_suffix hsuffix) h.ahead
  behind sibling hsibling :=
    ⟨hsuffix.trans (h.behind sibling hsibling).1, (h.behind sibling hsibling).2⟩

theorem of_cons {sibling : Sibling} (h : Spans (sibling :: others) rest W) : Spans others rest W :=
  ⟨h.ahead, fun other hother => h.behind other (List.mem_cons_of_mem _ hother)⟩

/-- An item that ends in front of the tokens that are left. -/
theorem cons (h : Spans siblings rest W) (hsuffix : rest <:+ start) (hstart : weight start ≤ W)
    (node : Node) : Spans (⟨node, start, rest⟩ :: siblings) rest W := by
  refine ⟨h.ahead, fun sibling hsibling => ?_⟩
  rcases List.mem_cons.1 hsibling with rfl | hsibling
  · exact ⟨List.suffix_rfl, hsuffix, hstart⟩
  · exact h.behind sibling hsibling

theorem takeMap (h : Spans siblings rest W) {map : Option Block}
    (hmap : takeMap rest siblings = (map, start, others)) :
    rest <:+ start ∧ weight start ≤ W ∧ Spans others rest W := by
  rcases takeMap_cases hmap with ⟨-, rfl, rfl⟩ | ⟨block, stop, -, rfl⟩
  · exact ⟨List.suffix_rfl, h.ahead, h⟩
  · obtain ⟨hstop, hstart, hweight⟩ := h.behind _ List.mem_cons_self
    exact ⟨hstop.trans hstart, hweight, h.of_cons⟩

theorem takeCombinator (h : Spans siblings rest W) (hsuffix : rest <:+ start)
    (hstart : weight start ≤ W) {tokens? : Option (List Token)}
    (hcombinator : takeCombinator start siblings = (tokens?, start', others)) :
    rest <:+ start' ∧ weight start' ≤ W ∧ Spans others rest W ∧
      ∀ tokens ∈ tokens?, weight tokens + weight rest ≤ W := by
  rcases takeCombinator_cases hcombinator with ⟨rfl, rfl, rfl⟩ | ⟨sibling, rfl, rfl, rfl, -⟩
  · exact ⟨hsuffix, hstart, h, by simp⟩
  · obtain ⟨hstop, hfirst, hweight⟩ := h.behind _ List.mem_cons_self
    refine ⟨hstop.trans hfirst, hweight, h.of_cons, fun tokens htokens => ?_⟩
    obtain rfl : sibling.tokens = tokens := by simpa using htokens
    have hsplit := congrArg weight (Sibling.start_eq hfirst)
    have hle := weight_le_of_suffix hstop
    rw [weight_append] at hsplit
    omega

end Spans

/-- The items in front of what is left are kept in view by each item. -/
theorem Reads.item_spans {token : Token} {siblings siblings' : List Sibling} {c c' : Cursor}
    {W : Nat} (h : Reads (.item token siblings siblings') c c') (hspans : Spans siblings c.rest W) :
    Spans siblings' c'.rest W := by
  have hsuffix := h.suffix
  have hspans' := hspans.of_suffix hsuffix
  cases h with
  | fresh _ _ hread _ => exact hspans'.cons hread.suffix hspans.ahead _
  | adopt _ _ _ hread =>
      obtain ⟨hstop, hstart, hweight⟩ := hspans.behind _ List.mem_cons_self
      exact hspans'.of_cons.cons (hread.suffix.trans (hstop.trans hstart)) hweight _
  | fold _ hmap hcombinator _ _ =>
      obtain ⟨hsuffix₁, hstart₁, hspans₁⟩ := hspans.takeMap hmap
      obtain ⟨hsuffix₂, hstart₂, hspans₂, -⟩ :=
        hspans₁.takeCombinator hsuffix₁ hstart₁ hcombinator
      exact (hspans₂.of_suffix hsuffix).cons (hsuffix.trans hsuffix₂) hstart₂ _
  | foldWith _ hmap hcombinator _ _ _ =>
      obtain ⟨hsuffix₁, hstart₁, hspans₁⟩ := hspans.takeMap hmap
      obtain ⟨hsuffix₂, hstart₂, hspans₂, -⟩ :=
        hspans₁.takeCombinator hsuffix₁ hstart₁ hcombinator
      exact (hspans₂.of_suffix hsuffix).cons (hsuffix.trans hsuffix₂) hstart₂ _

/-- The rules up to a depth succeed only with derivations, and suffice for light tokens. -/
structure Serves (D : Nat) : Prop where
  expression : ∀ (bound : Bound) (place : Place) (c : Cursor),
    Meets ((ofDepth D).expression bound place) c
      (fun node c' => Reads (.expression bound place node) c c') (D < levels (weight c.rest) + 2)
  operators : ∀ (left : Node) (bound : Bound) (force : Bool) (c : Cursor),
    Meets ((ofDepth D).operators left bound force) c
      (fun node c' => Reads (.operators left bound force node) c c')
      (D < levels (weight c.rest) + 1)
  items : ∀ (closer : Option String) (siblings : List Sibling) (c : Cursor) (W : Nat),
    Spans siblings c.rest W → Meets ((ofDepth D).items closer siblings) c
      (fun nodes c' => Reads (.items closer siblings nodes) c c')
      (D < levels W + weight c.rest + 2)

/-- An application of an operator to a left operand is read between two cursors, and the operators
behind it follow. -/
def Applies (left : Node) (bound : Bound) (force : Bool) (c : Cursor) (applied : Node)
    (c' : Cursor) : Prop :=
  c'.rest <:+ c.rest.tail ∧ ∀ node c₂, Reads (.operators applied bound false node) c' c₂ →
    Reads (.operators left bound force node) c c₂

/-! ## Rules that need no other rule -/

section

variable {rest : List Token} {finish : Position} {calls : CallTable} {short : Prop}

/-- Where a definition starts, the tokens up to `:=` are its head. -/
theorem optionalParams_meets {name : Token} (hstarts : startsDefinition rest = true) :
    Meets (optionalParams name) ⟨rest, finish, calls⟩ (fun params c' => ∃ before assign behind,
      c' = ⟨⟨.symbol, ":=", assign⟩ :: behind, finish, calls⟩ ∧
      rest = before ++ ⟨.symbol, ":=", assign⟩ :: behind ∧
      Header (before ++ [⟨.symbol, ":=", assign⟩]) params) short := by
  -- A definition starts with parameters in parentheses or with `:=` at once.
  refine .look (rest.head?.any (·.isSymbol "(")) rfl ?_
  cases hopening : rest.head?.any (·.isSymbol "(") with
  | true =>
      obtain ⟨opening, tokens, rfl⟩ := Token.exists_of_head_isSymbol hopening
      refine .skip ?_
      refine .look ⟨tokens, finish, calls⟩ rfl ?_
      cases hread : readParams (.invalidDefinition name.text name.position) tokens with
      | error error =>
          exact .fail error
      | ok result =>
          obtain ⟨params, behind⟩ := result
          obtain ⟨listed, closing, assign, after, hparams, rfl, rfl⟩ :=
            startsDefinition_params hstarts hread
          refine .after () _ rfl (.pure ?_)
          refine ⟨⟨.symbol, "(", opening⟩ :: (listed ++ [⟨.symbol, ")", closing⟩]), assign, after,
            rfl, by simp, ?_⟩
          have hheader := Header.listed opening closing assign hparams
          simpa using hheader
  | false =>
      cases rest with
      | nil => cases hstarts
      | cons token behind =>
          have hassign : token.isSymbol ":=" = true := by
            have hnot : token.isSymbol "(" = false := hopening
            simpa [startsDefinition, hnot] using hstarts
          rw [Token.eq_of_isSymbol hassign]
          exact .pure ⟨[], token.position, behind, rfl, rfl, .bare _⟩

/-- Where a block starts there is a brace, maybe behind a name. -/
theorem blockStart?_meets (short : Prop) (rest : List Token) :
    Meets blockStart? ⟨rest, finish, calls⟩ (fun start c' => ∀ param brace,
      start = some (param, brace) → ∃ naming tokens,
        rest = naming ++ ⟨.symbol, "\x7b", brace⟩ :: tokens ∧ c' = ⟨tokens, finish, calls⟩ ∧
        (naming = [] ∧ param = implicitName ∨
          ∃ namePosition, naming = [⟨.name, param, namePosition⟩])) short := by
  refine .look ⟨rest, finish, calls⟩ rfl ?_
  -- A block needs one token if it is a brace, and two if a name stands in front of the brace.
  match rest with
  | [] => exact .pure (by simp)
  | [first] =>
      simp only
      split
      · rename_i hbrace
        refine .skip (.pure ?_)
        simp only [Option.some.injEq, Prod.mk.injEq]
        rintro _ _ ⟨rfl, rfl⟩
        exact ⟨[], [], congrArg (· :: []) (Token.eq_of_isSymbol hbrace), rfl, .inl ⟨rfl, rfl⟩⟩
      · exact .pure (by simp)
  | first :: second :: tokens =>
      simp only
      split
      · rename_i hbrace
        refine .skip (.pure ?_)
        simp only [Option.some.injEq, Prod.mk.injEq]
        rintro _ _ ⟨rfl, rfl⟩
        exact ⟨[], _, congrArg (· :: second :: tokens) (Token.eq_of_isSymbol hbrace), rfl,
          .inl ⟨rfl, rfl⟩⟩
      split
      · rename_i hnamed
        obtain ⟨hname, hbrace⟩ := Bool.and_eq_true_iff.1 hnamed
        have hkind : first.kind = .name := by simpa using hname
        refine .skip (.skip (.pure ?_))
        simp only [Option.some.injEq, Prod.mk.injEq]
        rintro _ _ ⟨rfl, rfl⟩
        refine ⟨[first], tokens, ?_, rfl, .inr ⟨first.position, ?_⟩⟩
        · exact congrArg (first :: · :: tokens) (Token.eq_of_isSymbol hbrace)
        · rw [← hkind]
      · exact .pure (by simp)

/-- A base conversion has a numeral as its width, or none. -/
theorem baseWidth_meets {token : Token} :
    Meets (baseWidth token) ⟨rest, finish, calls⟩ (fun width c' => ∃ numerals behind,
      rest = numerals ++ behind ∧ c' = ⟨behind, finish, calls⟩ ∧
      (numerals = [] ∧ width = 0 ∨ ∃ digits widthPosition,
        numerals = [⟨.numeral, digits, widthPosition⟩] ∧ readWidth? digits = some width))
      short := by
  refine .look rest.head? rfl ?_
  cases rest with
  | nil => exact .pure ⟨[], [], rfl, rfl, .inl ⟨rfl, rfl⟩⟩
  | cons numeral behind =>
      obtain ⟨kind, digits, widthPosition⟩ := numeral
      refine .ite (fun hkind => ?_) fun _ => .pure ⟨[], _, rfl, rfl, .inl ⟨rfl, rfl⟩⟩
      obtain rfl : kind = .numeral := hkind
      cases hwidth : readWidth? digits with
      | none => exact .fail _
      | some width =>
          exact .skip (.pure ⟨[_], behind, rfl, rfl, .inr ⟨digits, _, rfl, hwidth⟩⟩)

/-- A base conversion has a word of codes. -/
theorem baseCodes_meets {token : Token} :
    Meets (baseCodes token) ⟨rest, finish, calls⟩ (fun codes c' =>
      ∃ word wordPosition behind, rest = ⟨.name, word, wordPosition⟩ :: behind ∧
        c' = ⟨behind, finish, calls⟩ ∧ word.toList.mapM BaseCode.ofChar? = some codes) short := by
  refine .look rest.head? rfl ?_
  cases rest with
  | nil => exact .fail _
  | cons name behind =>
      obtain ⟨kind, word, wordPosition⟩ := name
      refine .ite (fun hkind => ?_) fun _ => .fail _
      obtain rfl : kind = .name := hkind
      refine .skip ?_
      cases hcodes : word.toList.mapM BaseCode.ofChar? with
      | none => exact .fail _
      | some codes => exact .pure ⟨word, wordPosition, behind, rfl, rfl, hcodes⟩

theorem trailing_meets {left : Node} {bound : Bound} {force : Bool} {op : TrailingOp}
    {token : Token} (hkind : token.kind = .symbol)
    (hspelling : TrailingOp.ofSpelling? token.text = some op)
    (htaken : (force || bound.admits op.precedence true) = true) :
    Meets (trailing left op token) ⟨rest, finish, calls⟩
      (Applies left bound force ⟨token :: rest, finish, calls⟩) short := by
  refine .ite (fun hbase => ?_) fun hbase => ?_
  · subst hbase
    refine .bind baseWidth_meets ?_
    rintro width c₁ ⟨numerals, _, rfl, rfl, hwidth⟩
    refine .bind baseCodes_meets ?_
    rintro codes c₂ ⟨word, wordPosition, behind, rfl, rfl, hcodes⟩
    have htoken : token = ⟨.symbol, token.text, token.position⟩ := by rw [← hkind]
    refine .pure ⟨suffix_behind _ _ _, fun node c₃ hnode => ?_⟩
    rw [htoken]
    exact .base htaken hspelling hwidth hcodes hnode
  · have hplain : op.plain = true := by
      revert hbase
      cases op <;> simp [TrailingOp.plain]
    have htoken := Token.eq_trailing hkind hspelling hplain
    refine .pure ⟨List.suffix_rfl, fun node c₃ hnode => ?_⟩
    rw [htoken]
    exact .trailing htaken hplain hnode

end

/-! ## Rules that need other rules -/

namespace Serves

variable {D w : Nat} {c : Cursor} {rest : List Token} {finish position : Position}
  {calls : CallTable}

/-- Items of their own, with less weight than there was. -/
theorem inner (hD : Serves D) (closer : Option String) (hc : weight c.rest < w) :
    Meets ((ofDepth D).items closer []) c (fun nodes c' => Reads (.items closer [] nodes) c c')
      (D < levels w) := by
  have hspans : Spans [] c.rest (weight c.rest) := ⟨Nat.le_refl _, by simp⟩
  refine (hD.items closer [] c _ hspans).mono (fun _ _ h => h) fun hshort => ?_
  exact Nat.lt_of_lt_of_le hshort (levels_lt hc)

/-- An expression with less weight than there was. -/
theorem behind (hD : Serves D) (bound : Bound) (place : Place) (hc : weight c.rest < w) :
    Meets ((ofDepth D).expression bound place) c
      (fun node c' => Reads (.expression bound place node) c c') (D < levels w) := by
  refine (hD.expression bound place c).mono (fun _ _ h => h) fun hshort => ?_
  have := levels_lt hc
  omega

theorem blockBody (hD : Serves D) (param : String) (hc : weight c.rest < w) :
    Meets (Grammar.blockBody (ofDepth D) param position) c
      (fun block c' => ∃ nodes, block = ⟨param, ⟨nodes, c.position⟩, position⟩ ∧
        Reads (.items (some "\x7d") [] nodes) c c') (D < levels w) := by
  refine .look c.position rfl (.bind (hD.inner _ hc) fun nodes c' hnodes => ?_)
  exact .pure ⟨nodes, rfl, hnodes⟩

theorem arguments (hD : Serves D) (count : Nat) (hc : weight c.rest < w) :
    Meets (Grammar.arguments (ofDepth D) count) c
      (fun args c' => Reads (.arguments count args) c c') (D < levels w) := by
  -- By induction on the arguments that are left; each is read from where the one before ended.
  induction count generalizing c with
  | zero => exact .pure .noArguments
  | succ count ih =>
      have hargument : Meets (Grammar.argument (ofDepth D)) c
          (fun arg c' => c.rest.head?.all isCloser = true ∧ arg = .implicit c.position ∧ c' = c ∨
            c.rest.head?.all isCloser = false ∧ Reads (.expression .highest .argument arg) c c')
          (D < levels w) := by
        refine .look (c.rest.head?.all isCloser) rfl ?_
        cases hboundary : c.rest.head?.all isCloser with
        | true => exact .look c.position rfl (.pure (.inl ⟨rfl, rfl, rfl⟩))
        | false =>
            exact (hD.behind _ _ hc).mono (fun arg c' harg => .inr ⟨rfl, harg⟩) id
      refine .bind hargument fun arg c₁ harg => ?_
      rcases harg with ⟨hboundary, rfl, rfl⟩ | ⟨hboundary, harg⟩
      · exact .bind (ih hc) fun args c₂ hargs => .pure (.missing hboundary hargs)
      · have hc₁ := Nat.lt_of_le_of_lt (weight_le_of_suffix harg.suffix) hc
        exact .bind (ih hc₁) fun args c₂ hargs => .pure (.argument hboundary harg hargs)

theorem combinator (hD : Serves D) {tokens : List Token}
    (htokens : weight tokens + 2 < w) :
    Meets (Grammar.combinator (ofDepth D) tokens position) c
      (fun combinator c' => Reads (.combinator tokens position combinator) c c')
      (D < levels w) := by
  -- The two names that are put around the tokens weigh two.
  have hweight : weight (operandsAround tokens position) < w := by
    simp only [operandsAround, weight_cons, weight_append, weight_nil, Token.weight]
    simp only [reduceCtorEq, if_false]
    omega
  refine .bind (.apart (hD.inner none hweight)) ?_
  rintro nodes _ ⟨c', hnodes, rfl⟩
  match nodes, hnodes with
  | [], _ => exact .fail _
  | [expr], hnodes => exact .pure (.combinator hnodes)
  | _ :: _ :: _, _ => exact .fail _

/-! ### Operands -/

theorem definition (hD : Serves D) {place : Place} {name : String}
    (hstarts : startsDefinition rest = true) (hc : weight rest < w) :
    Meets (Grammar.definition (ofDepth D) ⟨.name, name, position⟩) ⟨rest, finish, calls⟩
      (fun node c' => Reads (.operand place (.closed node))
        ⟨⟨.name, name, position⟩ :: rest, finish, calls⟩ c') (D < levels w) := by
  refine .bind (optionalParams_meets hstarts) ?_
  rintro params _ ⟨before, assign, behind, rfl, rfl, hheader⟩
  refine .skip (.after () _ rfl ?_)
  have hbehind : weight behind < w :=
    Nat.lt_of_le_of_lt (weight_le_of_suffix (suffix_behind _ _ _)) hc
  refine .bind (hD.behind .lowest .operand hbehind) fun body c' hbody => ?_
  have hread : Reads (.operand place (.closed (.define name params body position)))
      ⟨⟨.name, name, position⟩ :: ((before ++ [⟨.symbol, ":=", assign⟩]) ++ behind), finish, calls⟩
      c' := .define hheader hbody
  rw [List.append_assoc] at hread
  exact .pure hread

theorem named (hD : Serves D) (place : Place) (name : String) (hc : weight rest < w) :
    Meets (Grammar.named (ofDepth D) ⟨.name, name, position⟩ place)
      ⟨⟨.name, name, position⟩ :: rest, finish, calls⟩
      (fun start c' => Reads (.operand place start)
        ⟨⟨.name, name, position⟩ :: rest, finish, calls⟩ c') (D < levels w) := by
  refine .skip ?_
  refine .look (rest.head?.any (·.isSymbol "\x7b")) rfl ?_
  refine .ite (fun hblock : opensBlock place rest = true => ?_)
    fun hblock : ¬ opensBlock place rest = true => ?_
  · obtain ⟨hplace, hbrace⟩ := Bool.and_eq_true_iff.1 hblock
    obtain ⟨brace, tokens, rfl⟩ := Token.exists_of_head_isSymbol hbrace
    refine .skip ?_
    have htokens : weight tokens < w :=
      Nat.lt_trans (weight_lt_of_suffix List.suffix_rfl) hc
    refine .bind (hD.blockBody name htokens) ?_
    rintro block c' ⟨nodes, rfl, hnodes⟩
    exact .pure (.namedBlock (by simpa using hplace) hnodes)
  · rw [Bool.not_eq_true] at hblock
    refine .look ⟨rest, finish, calls⟩ rfl ?_
    refine .ite (fun hstarts => ?_) fun hstarts => ?_
    · exact .bind (hD.definition hstarts hc) fun node c' hnode => .pure hnode
    · rw [Bool.not_eq_true] at hstarts
      refine .look ⟨rest, finish, calls⟩ rfl ?_
      cases hname : calls.find? name with
      | none =>
          exact .pure (.var hblock hstarts hname)
      | some count =>
          exact .bind (hD.arguments count hc) fun args c' hargs =>
            .pure (.call hblock hstarts hname hargs)

theorem filter (hD : Serves D) {place : Place} {op : LeadingOp} (hop : op = .filter ∨ op = .any)
    (hc : weight rest < w) :
    Meets (Grammar.filter (ofDepth D) op (op.token position)) ⟨rest, finish, calls⟩
      (fun start c' => Reads (.operand place start) ⟨op.token position :: rest, finish, calls⟩ c')
      (D < levels w) := by
  refine .bind (blockStart?_meets _ rest) ?_
  rintro (_ | ⟨param, brace⟩) c₁ hstart
  · exact .fail _
  · obtain ⟨naming, tokens, rfl, rfl, hnaming⟩ := hstart param brace rfl
    have htokens : weight tokens < w :=
      Nat.lt_of_le_of_lt (weight_le_of_suffix (suffix_behind _ _ _)) hc
    refine .bind (hD.blockBody param htokens) ?_
    rintro block c₂ ⟨nodes, rfl, hnodes⟩
    have hc₂ : weight c₂.rest < w :=
      Nat.lt_of_le_of_lt (weight_le_of_suffix hnodes.suffix) htokens
    refine .bind (hD.behind _ _ hc₂) fun arg c₃ harg => ?_
    exact .pure (.filter hop hnaming hnodes harg)

theorem leading (hD : Serves D) {place : Place} {op : LeadingOp} (hop : op ≠ .fold)
    (hc : weight rest < w) :
    Meets (Grammar.leading (ofDepth D) op (op.token position))
      ⟨op.token position :: rest, finish, calls⟩
      (fun start c' => Reads (.operand place start) ⟨op.token position :: rest, finish, calls⟩ c')
      (D < levels w) := by
  refine .skip ?_
  refine .ite (fun hfilter => hD.filter hfilter hc) fun hfilter => ?_
  · have hplain : op.plain = true := by
      revert hop hfilter
      cases op <;> simp [LeadingOp.plain]
    exact .bind (hD.behind _ _ hc) fun arg c' harg => .pure (.leading hplain harg)

theorem symbol (hD : Serves D) (place : Place) (text : String) (hc : weight rest < w) :
    Meets (Grammar.symbol (ofDepth D) ⟨.symbol, text, position⟩ place)
      ⟨⟨.symbol, text, position⟩ :: rest, finish, calls⟩
      (fun start c' => Reads (.operand place start)
        ⟨⟨.symbol, text, position⟩ :: rest, finish, calls⟩ c') (D < levels w) := by
  unfold Grammar.symbol
  split
  · rename_i htext
    obtain rfl : text = "(" := htext
    refine .skip ?_
    refine .bind (Q := fun node c' => Reads (.operand place (.primary node))
      ⟨⟨.symbol, "(", position⟩ :: rest, finish, calls⟩ c') ?_ fun node c' hnode => .pure hnode
    refine .look (Cursor.position ⟨rest, finish, calls⟩) rfl ?_
    exact .bind (hD.inner _ hc) fun nodes c' hnodes => .pure (.group hnodes)
  split
  · rename_i htext
    obtain rfl : text = "[" := htext
    refine .skip ?_
    refine .bind (Q := fun node c' => Reads (.operand place (.primary node))
      ⟨⟨.symbol, "[", position⟩ :: rest, finish, calls⟩ c') ?_ fun node c' hnode => .pure hnode
    refine .look (Cursor.position ⟨rest, finish, calls⟩) rfl ?_
    refine .bind (hD.inner _ hc) fun nodes c' hnodes => ?_
    refine .ite (fun _ => .fail _) fun hblocks => ?_
    exact .pure (.array hnodes (Nat.le_of_not_lt hblocks))
  split
  · rename_i htext
    obtain rfl : text = "\x7b" := htext
    refine .ite (fun hplace => .pure (.standIn ⟨rfl, .inl ⟨rfl, hplace⟩⟩)) fun hplace => ?_
    · refine .skip (.bind (hD.blockBody _ hc) ?_)
      rintro block c' ⟨nodes, rfl, hnodes⟩
      exact .pure (.block hplace hnodes)
  split
  · rename_i htext
    exact .pure (.standIn ⟨rfl, .inr (.inl htext)⟩)
  · rename_i hfold
    -- In the remaining cases nothing is read and the variable `_` stands in.
    have hstandIn (h : StandsIn place ⟨.symbol, text, position⟩) :
        Meets (Pure.pure (Start.implicit (.implicit position)))
          ⟨⟨.symbol, text, position⟩ :: rest, finish, calls⟩ (fun start c' =>
            Reads (.operand place start) ⟨⟨.symbol, text, position⟩ :: rest, finish, calls⟩ c')
          (D < levels w) :=
      .pure (.standIn h)
    cases hleading : LeadingOp.ofSpelling? text with
    | some op =>
        have htoken : (⟨.symbol, text, position⟩ : Token) = op.token position :=
          Token.eq_leading rfl hleading
        have hop : op ≠ .fold := by
          rintro rfl
          exact hfold (congrArg Token.text htoken)
        rw [htoken]
        exact hD.leading hop hc
    | none =>
        simp only
        split
        · rename_i hspelled
          have hcases := Bool.or_eq_true_iff.1 hspelled
          exact hstandIn ⟨rfl, .inr (.inr (.inl ⟨hleading, hcases⟩))⟩
        split
        · rename_i hplace
          have hcases : place ≠ .item ∧
              (isCloser ⟨.symbol, text, position⟩ = true ∨ text = ",") := by
            simpa using hplace
          exact hstandIn ⟨rfl, .inr (.inr (.inr hcases))⟩
        · exact .fail _

theorem operand (hD : Serves D) (place : Place) (c : Cursor) :
    Meets (Grammar.operand (ofDepth D) place) c
      (fun start c' => Reads (.operand place start) c c') (D < levels (weight c.rest)) := by
  obtain ⟨tokens, finish, calls⟩ := c
  cases tokens with
  | nil => exact .look none rfl (.look finish rfl (.pure .absent))
  | cons token rest =>
      obtain ⟨kind, text, position⟩ := token
      have hrest : weight rest < weight (⟨kind, text, position⟩ :: rest) :=
        weight_lt_of_suffix List.suffix_rfl
      refine .look (some ⟨kind, text, position⟩) rfl ?_
      cases kind with
      | text quote => exact .skip (.pure .text)
      | numeral => exact .skip (.pure .numeral)
      | name => exact hD.named place text hrest
      | symbol => exact hD.symbol place text hrest

theorem expression_succ (hD : Serves D) (bound : Bound) (place : Place) (c : Cursor) :
    Meets (readExpression (ofDepth D) bound place) c
      (fun node c' => Reads (.expression bound place node) c c')
      (D < levels (weight c.rest) + 1) := by
  refine .bind ((hD.operand place c).mono (fun _ _ h => h) Nat.lt_succ_of_lt)
    fun start c₁ hstart => ?_
  have hoperators (left : Node) (force : Bool) : Meets ((ofDepth D).operators left bound force) c₁
      (fun node c' => Reads (.operators left bound force node) c₁ c')
      (D < levels (weight c.rest) + 1) := by
    refine (hD.operators left bound force c₁).mono (fun _ _ h => h) fun hshort => ?_
    have hle := levels_mono (weight_le_of_suffix hstart.suffix)
    omega
  cases start with
  | closed node => exact .pure (.closed hstart)
  | primary first => exact (hoperators first false).mono (fun _ _ h => .primary hstart h) id
  | implicit first => exact (hoperators first true).mono (fun _ _ h => .implicit hstart h) id

/-! ### Operators -/

variable {left : Node} {bound : Bound} {force : Bool}

/-- A dot is followed by a function with at least one argument, and by the others. -/
theorem callTarget (hD : Serves D) {dot : Token} (hc : weight rest < w) :
    Meets (Grammar.callTarget (ofDepth D) left dot) ⟨rest, finish, calls⟩
      (fun node c' => ∃ name args namePosition tokens,
        rest = ⟨.name, name, namePosition⟩ :: tokens ∧
        node = .binary .call left (.call name args namePosition) .none dot.position ∧
        calls.find? name = some (args.length + 1) ∧
        Reads (.arguments args.length args) ⟨tokens, finish, calls⟩ c') (D < levels w) := by
  refine .look ⟨rest, finish, calls⟩ rfl ?_
  cases rest with
  | nil => exact .fail _
  | cons token tokens =>
      obtain ⟨kind, text, namePosition⟩ := token
      have htokens : weight tokens < w := Nat.lt_trans (weight_lt_of_suffix List.suffix_rfl) hc
      simp only
      split
      · rename_i count hcount
        have hname : kind = .name ∧ calls.find? text = some (count + 1) := by simpa using hcount
        obtain ⟨rfl, hname⟩ := hname
        refine .skip (.bind (hD.arguments count htokens) fun args c' hargs => .pure ?_)
        obtain rfl := hargs.length_arguments
        exact ⟨text, args, namePosition, tokens, rfl, rfl, hname, hargs⟩
      · exact .fail _

/-- A zip has no combinator, or one that is a single binary operator. -/
theorem zipCombinator (hD : Serves D)
    (hc : weight (BinaryOp.zip.token position :: rest) ≤ w) :
    Meets (Grammar.zipCombinator (ofDepth D) (BinaryOp.zip.token position)) ⟨rest, finish, calls⟩
      (fun extra c' =>
        (extra = .none ∧ c' = ⟨rest, finish, calls⟩ ∧ rest.head?.any isBinary = false) ∨
        ∃ (op : BinaryOp) (opPosition : Position) (tokens : List Token) (combinator : Combinator),
          rest = op.token opPosition :: tokens ∧ extra = .zip combinator ∧
          Reads (.combinator [op.token opPosition] position combinator) ⟨tokens, finish, calls⟩ c' ∧
          c'.rest.head?.all isCloser = false) (D < levels w) := by
  refine .look rest.head? rfl ?_
  cases rest with
  | nil => exact .pure (.inl ⟨rfl, rfl, rfl⟩)
  | cons token tokens =>
      refine .ite (fun hbinary => ?_) fun hbinary => ?_
      · obtain ⟨op, hop⟩ := Token.exists_of_isBinary hbinary
        have hthree : token.weight = 3 := hop ▸ rfl
        -- The symbol of the zip outweighs the two names.
        have hcombinator : weight [token] + 2 < w := by
          have hzip : (BinaryOp.zip.token position).weight = 3 := rfl
          simp only [weight_cons, weight_nil, hthree, hzip] at hc ⊢
          omega
        refine .skip ?_
        refine .bind (hD.combinator hcombinator) fun combined c₁ hcombined => ?_
        refine .look (c₁.rest.head?.all isCloser) rfl ?_
        refine .ite (fun _ => .fail _) fun hboundary => ?_
        rw [Bool.not_eq_true] at hboundary
        rw [hop] at hcombined
        exact .pure (.inr ⟨op, token.position, tokens, combined, congrArg (· :: tokens) hop, rfl,
          hcombined, hboundary⟩)
      · rw [Bool.not_eq_true] at hbinary
        exact .pure (.inl ⟨rfl, rfl, hbinary⟩)

theorem binary (hD : Serves D) {op : BinaryOp}
    (htaken : (force || bound.admits op.precedence op.chains) = true) :
    Meets (Grammar.binary (ofDepth D) left op (op.token position)) ⟨rest, finish, calls⟩
      (Applies left bound force ⟨op.token position :: rest, finish, calls⟩)
      (D < levels (weight (op.token position :: rest))) := by
  have hrest : weight rest < weight (op.token position :: rest) :=
    weight_lt_of_suffix List.suffix_rfl
  refine .ite (fun hcall => ?_) fun hcall => ?_
  · subst hcall
    refine (hD.callTarget hrest).mono ?_ id
    rintro _ c' ⟨name, args, namePosition, tokens, rfl, rfl, hname, hargs⟩
    refine ⟨hargs.suffix.trans (List.suffix_cons _ _), fun node c₂ hnode => ?_⟩
    exact .dot htaken hname hargs hnode
  by_cases hzip : op = .zip
  · subst hzip
    refine .bind (hD.zipCombinator (Nat.le_refl _)) ?_
    rintro extra c₁ (⟨rfl, rfl, hnone⟩ | ⟨op, opPosition, tokens, combined, rfl, rfl, hcombined,
      hboundary⟩)
    · refine .bind (hD.behind _ _ hrest) fun right c₂ hright => .pure ⟨hright.suffix, ?_⟩
      exact fun node c₃ hnode => .binary htaken hcall (fun _ => hnone) hright hnode
    · have hsuffix : c₁.rest <:+ op.token opPosition :: tokens :=
        hcombined.suffix.trans (List.suffix_cons _ _)
      refine .bind (hD.behind _ _ (weight_lt_of_suffix hsuffix)) fun right c₂ hright => ?_
      refine .pure ⟨hright.suffix.trans hsuffix, ?_⟩
      exact fun node c₃ hnode => .zipWith htaken hcombined hboundary hright hnode
  · rw [if_neg hzip]
    refine .look Extra.none rfl ?_
    refine .bind (hD.behind _ _ hrest) fun right c₂ hright => .pure ⟨hright.suffix, ?_⟩
    exact fun node c₃ hnode => .binary htaken hcall (fun h => absurd h hzip) hright hnode

theorem operators_succ (hD : Serves D) (left : Node) (bound : Bound) (force : Bool) (c : Cursor) :
    Meets (readOperators (ofDepth D) left bound force) c
      (fun node c' => Reads (.operators left bound force node) c c')
      (D < levels (weight c.rest)) := by
  obtain ⟨tokens, finish, calls⟩ := c
  refine .look tokens.head? rfl ?_
  cases tokens with
  | nil => exact .pure (.stop (by simp [Stops]))
  | cons token rest =>
      have hrest : ∀ {c' : Cursor}, c'.rest <:+ rest → weight c'.rest < weight (token :: rest) :=
        weight_lt_of_suffix
      -- The two ways to go on: the operand is complete, or an operator was applied to it.
      have hstop : (∀ o ∈ token.follower?, (force || bound.admits o.precedence o.chains) = false) →
          Meets (Pure.pure left) ⟨token :: rest, finish, calls⟩
            (fun node c' => Reads (.operators left bound force node)
              ⟨token :: rest, finish, calls⟩ c') (D < levels (weight (token :: rest))) := by
        intro hrefused
        refine .pure (.stop fun first hfirst => ?_)
        obtain rfl : token = first := by simpa using hfirst
        exact hrefused
      have hgo : ∀ node c', Applies left bound force ⟨token :: rest, finish, calls⟩ node c' →
          Meets ((ofDepth D).operators node bound false) c'
            (fun node c' => Reads (.operators left bound force node)
              ⟨token :: rest, finish, calls⟩ c') (D < levels (weight (token :: rest))) := by
        rintro node c' ⟨hsuffix, happly⟩
        refine (hD.operators node bound false c').mono happly fun hshort => ?_
        have := levels_lt (hrest hsuffix)
        omega
      refine .ite (fun hkind => ?_) fun hkind => hstop (by simp [Token.follower?, hkind])
      cases hbinary : BinaryOp.ofSpelling? token.text with
      | some op =>
          have htoken := Token.eq_binary hkind hbinary
          refine .ite (fun htaken => ?_) fun htaken => hstop ?_
          · refine .skip ?_
            rw [htoken] at hgo ⊢
            exact .bind (hD.binary htaken) hgo
          · simpa [Token.follower?, hkind, hbinary, BinaryOp.follower] using htaken
      | none =>
          simp only
          cases htrailing : TrailingOp.ofSpelling? token.text with
          | some op =>
              refine .ite (fun htaken => ?_) fun htaken => hstop ?_
              · refine .skip ?_
                exact .bind (trailing_meets hkind htrailing htaken) hgo
              · simpa [Token.follower?, hkind, hbinary, htrailing, TrailingOp.follower] using htaken
          | none => exact hstop (by simp [Token.follower?, hkind, hbinary, htrailing])

/-! ### Items -/

variable {siblings : List Sibling} {W : Nat} {token : Token}

theorem fold (hD : Serves D) (hfold : token.isSymbol "\\" = true)
    (hspans : Spans siblings (token :: rest) W) :
    Meets (Grammar.fold (ofDepth D) token siblings) ⟨token :: rest, finish, calls⟩
      (fun siblings' c' => Reads (.item token siblings siblings')
        ⟨token :: rest, finish, calls⟩ c') (D < levels W) := by
  have hbehind : ∀ {tokens : List Token}, tokens <:+ rest → weight tokens < W := fun h =>
    Nat.lt_of_lt_of_le (weight_lt_of_suffix h) hspans.ahead
  have hcontinue (node : Node) {c' : Cursor} (hsuffix : c'.rest <:+ rest) :
      Meets ((ofDepth D).operators node .lowest false) c'
        (fun node' c'' => Reads (.operators node .lowest false node') c' c'') (D < levels W) := by
    refine (hD.operators node .lowest false c').mono (fun _ _ h => h) fun hshort => ?_
    have := levels_lt (hbehind hsuffix)
    omega
  refine .look ⟨token :: rest, finish, calls⟩ rfl ?_
  cases hmap : takeMap (token :: rest) siblings with
  | mk map taken =>
  obtain ⟨start₁, siblings₁⟩ := taken
  cases hcombinator : takeCombinator start₁ siblings₁ with
  | mk tokens taken =>
  obtain ⟨start₂, siblings₂⟩ := taken
  simp only [hcombinator]
  refine .skip ?_
  cases tokens with
  | none =>
      refine .look none rfl ?_
      refine .bind (hD.behind _ _ (hbehind List.suffix_rfl)) fun arg c₁ harg => ?_
      refine .bind (hcontinue _ harg.suffix) fun node c₂ hnode => ?_
      exact .look c₂ rfl (.pure (.fold hfold hmap hcombinator harg hnode))
  | some tokens =>
      -- The tokens that are read again do not contain the symbol of the fold.
      have htokens : weight tokens + 2 < W := by
        obtain ⟨hsuffix, hstart, hspans₁⟩ := hspans.takeMap hmap
        have hweight := (hspans₁.takeCombinator hsuffix hstart hcombinator).2.2.2 tokens rfl
        rw [weight_cons, Token.weight_of_isSymbol hfold] at hweight
        omega
      refine .bind (Q := fun combined c' => ∃ combinator, combined = some combinator ∧
        Reads (.combinator tokens token.position combinator) ⟨rest, finish, calls⟩ c') ?_ ?_
      · exact .bind (hD.combinator htokens) fun combined c' hcombined =>
          .pure ⟨combined, rfl, hcombined⟩
      · rintro _ c₁ ⟨combined, rfl, hcombined⟩
        refine .bind (hD.behind _ _ (hbehind hcombined.suffix)) fun arg c₂ harg => ?_
        have hsuffix := harg.suffix.trans hcombined.suffix
        refine .bind (hcontinue _ hsuffix) fun node c₃ hnode => ?_
        exact .look c₃ rfl (.pure (.foldWith hfold hmap hcombinator hcombined harg hnode))

theorem freshItem (hD : Serves D) (hfold : token.isSymbol "\\" = false)
    (halone : StandsAlone token siblings) :
    Meets (Grammar.freshItem (ofDepth D) token siblings) ⟨token :: rest, finish, calls⟩
      (fun siblings' c' => Reads (.item token siblings siblings')
        ⟨token :: rest, finish, calls⟩ c') (D < levels (weight (token :: rest)) + 2) := by
  refine .look ⟨token :: rest, finish, calls⟩ rfl ?_
  refine .bind (hD.expression .lowest .item _) fun node c' hread => ?_
  refine .look c' rfl (.ite (fun _ => .fail _) fun hprogress => ?_)
  exact .pure (.fresh hfold halone hread hprogress)

theorem item (hD : Serves D) (hspans : Spans siblings (token :: rest) W) :
    Meets (Grammar.item (ofDepth D) token siblings) ⟨token :: rest, finish, calls⟩
      (fun siblings' c' => Reads (.item token siblings siblings')
        ⟨token :: rest, finish, calls⟩ c') (D < levels W + weight (token :: rest) + 1) := by
  have hlevels := levels_mono hspans.ahead
  have hpos : 0 < weight (token :: rest) := by
    have := token.weight_pos
    rw [weight_cons]
    omega
  refine .ite (fun hfold => ?_) fun hfold => ?_
  · exact (hD.fold hfold hspans).mono (fun _ _ h => h) fun hshort => by omega
  rw [Bool.not_eq_true] at hfold
  have hfresh (halone : StandsAlone token siblings) :
      Meets (Grammar.freshItem (ofDepth D) token siblings) ⟨token :: rest, finish, calls⟩
        (fun siblings' c' => Reads (.item token siblings siblings')
          ⟨token :: rest, finish, calls⟩ c') (D < levels W + weight (token :: rest) + 1) :=
    (hD.freshItem hfold halone).mono (fun _ _ h => h) fun hshort => by omega
  -- A token that takes its left operand from the item before needs one that it may take.
  cases hop : adoptingPrecedence? token with
  | none => exact hfresh (by simp [StandsAlone, hop])
  | some precedence =>
      cases siblings with
      | nil => exact hfresh (by simp [StandsAlone])
      | cons previous others =>
          refine .ite (fun hadopt => ?_) fun hadopt => hfresh ?_
          · have hoperators := (hD.operators previous.node .lowest true
              ⟨token :: rest, finish, calls⟩).mono
              (s := D < levels W + weight (token :: rest) + 1) (fun _ _ h => h)
              fun hshort => by
                simp only at hshort
                omega
            refine .bind hoperators fun node c' hread => ?_
            exact .look c' rfl (.pure (.adopt hfold hop hadopt hread))
          · simpa [StandsAlone, hop] using hadopt

theorem items_succ (hD : Serves D) (closer : Option String) (siblings : List Sibling) (c : Cursor)
    (hspans : Spans siblings c.rest W) :
    Meets (readItems (ofDepth D) closer siblings) c
      (fun nodes c' => Reads (.items closer siblings nodes) c c')
      (D < levels W + weight c.rest + 1) := by
  obtain ⟨tokens, finish, calls⟩ := c
  refine .look tokens.head? rfl ?_
  cases tokens with
  | nil => exact .pure .done
  | cons token rest =>
      have hrest : weight rest < weight (token :: rest) := weight_lt_of_suffix List.suffix_rfl
      -- The items behind need fewer levels because a token was read; `W` bounds them as before.
      have hmore {c' : Cursor} {siblings' : List Sibling} (hsuffix : c'.rest <:+ rest)
          (hspans' : Spans siblings' c'.rest W) :=
        (hD.items closer siblings' c' W hspans').mono
          (s := D < levels W + weight (token :: rest) + 1) (fun _ _ h => h) fun hshort => by
            have : weight c'.rest < weight (token :: rest) := weight_lt_of_suffix hsuffix
            omega
      refine .ite (fun hclose => ?_) fun hclose => ?_
      · cases closer with
        | none => cases hclose
        | some spelling => exact .skip (.pure (.close hclose))
      rw [Bool.not_eq_true] at hclose
      refine .ite (fun hcomma => ?_) fun hcomma => ?_
      · refine .skip ?_
        exact (hmore List.suffix_rfl (hspans.of_suffix (List.suffix_cons _ _))).mono
          (fun _ _ h => .comma hclose hcomma h) id
      rw [Bool.not_eq_true] at hcomma
      refine .bind (hD.item hspans) fun siblings' c₁ hitem => ?_
      exact (hmore hitem.item_progress (hitem.item_spans hspans)).mono
        (fun _ _ h => .next hclose hcomma hitem h) id

end Serves

/-- The rules of every depth succeed only with derivations, and suffice for light tokens. -/
theorem serves (D : Nat) : Serves D := by
  induction D with
  | zero => exact ⟨fun _ _ _ => Nat.succ_pos _, fun _ _ _ _ => Nat.succ_pos _,
      fun _ _ _ _ _ => Nat.succ_pos _⟩
  | succ D ih =>
      refine ⟨fun bound place c => ?_, fun left bound force c => ?_,
        fun closer siblings c W h => ?_⟩
      · exact (ih.expression_succ bound place c).mono (fun _ _ h => h) Nat.succ_lt_succ
      · exact (ih.operators_succ left bound force c).mono (fun _ _ h => h) Nat.succ_lt_succ
      · exact (ih.items_succ closer siblings c h).mono (fun _ _ h => h) Nat.succ_lt_succ

end Grammar

end Terse
