import Terse.Proofs.Derivation

/-!
# Open brackets

A program may leave brackets open at its end, and then they count as closed there.  Whether a
bracket is left open can be counted: `nesting` is the number of brackets that tokens open, less the
number of those that they close.

`Reads.nesting_le` says that no rule closes a bracket that it did not open, but for the one that
items are read up to.  `Settles` says that a rule closes all that it opens, which every rule does
that ends in front of a token (`Reads.settles`).

## Strategy

Both results are inductions over derivations, in which most cases add up what is known of the parts.
A rule with two parts in a row is settled if both of its parts are (`Settles.join`).  With
`Reads.nesting_le` the converse is true as well (`Settles.split`): the parts could only balance each
other if one of them closed a bracket of the other.

What a rule owes (`Reading.owed`) is the bracket that was opened in front of it: items owe the one
that they are read up to, and every other rule owes nothing.  A bracket that is left open makes the
rule that reads its items end with the tokens, which is the only case where less is closed than
owed.
-/

namespace Terse.Grammar

/-! ## Open brackets -/

/-- Whether a token opens a bracket. -/
def isOpener (token : Token) : Bool :=
  token.isSymbol "(" || token.isSymbol "[" || token.isSymbol "\x7b"

/-- The number of brackets that tokens open, less the number of those that they close. -/
def nesting (tokens : List Token) : Int := tokens.countP isOpener - tokens.countP isCloser

@[simp] theorem nesting_nil : nesting [] = 0 := rfl

theorem nesting_append (front behind : List Token) :
    nesting (front ++ behind) = nesting front + nesting behind := by
  simp only [nesting, List.countP_append, Int.natCast_add]
  omega

theorem nesting_cons (token : Token) (rest : List Token) :
    nesting (token :: rest) = nesting [token] + nesting rest :=
  nesting_append [token] rest

theorem nesting_le_cons (token : Token) (rest : List Token) :
    nesting rest ≤ nesting (token :: rest) + 1 := by
  have hcloser : [token].countP isCloser ≤ 1 := List.countP_le_length
  rw [nesting_cons]
  simp only [nesting] at hcloser ⊢
  omega

theorem nesting_of_zero {token : Token} (h : nesting [token] = 0) (rest : List Token) :
    nesting (token :: rest) = nesting rest := by
  rw [nesting_cons, h, Int.zero_add]

section Tokens

variable (text : String) (position : Position) (rest : List Token)

@[simp] theorem nesting_text (quote : Quote) :
    nesting (⟨.text quote, text, position⟩ :: rest) = nesting rest :=
  nesting_of_zero rfl rest

@[simp] theorem nesting_numeral : nesting (⟨.numeral, text, position⟩ :: rest) = nesting rest :=
  nesting_of_zero rfl rest

@[simp] theorem nesting_name : nesting (⟨.name, text, position⟩ :: rest) = nesting rest :=
  nesting_of_zero rfl rest

/-- A symbol that is no bracket. -/
theorem nesting_symbol (hopen : text ≠ "(" ∧ text ≠ "[" ∧ text ≠ "\x7b")
    (hclose : text ≠ ")" ∧ text ≠ "]" ∧ text ≠ "\x7d") :
    nesting (⟨.symbol, text, position⟩ :: rest) = nesting rest := by
  refine nesting_of_zero ?_ rest
  simp [nesting, isOpener, isCloser, Token.isSymbol, hopen, hclose]

@[simp] theorem nesting_leading (op : LeadingOp) :
    nesting (op.token position :: rest) = nesting rest :=
  nesting_symbol _ _ _ (by cases op <;> decide) (by cases op <;> decide)

@[simp] theorem nesting_binary (op : BinaryOp) :
    nesting (op.token position :: rest) = nesting rest :=
  nesting_symbol _ _ _ (by cases op <;> decide) (by cases op <;> decide)

@[simp] theorem nesting_trailing (op : TrailingOp) :
    nesting (op.token position :: rest) = nesting rest :=
  nesting_symbol _ _ _ (by cases op <;> decide) (by cases op <;> decide)

@[simp] theorem nesting_parenthesis :
    nesting (⟨.symbol, "(", position⟩ :: rest) = nesting rest + 1 :=
  (nesting_cons _ _).trans (Int.add_comm 1 _)

@[simp] theorem nesting_bracket :
    nesting (⟨.symbol, "[", position⟩ :: rest) = nesting rest + 1 :=
  (nesting_cons _ _).trans (Int.add_comm 1 _)

@[simp] theorem nesting_brace :
    nesting (⟨.symbol, "\x7b", position⟩ :: rest) = nesting rest + 1 :=
  (nesting_cons _ _).trans (Int.add_comm 1 _)

end Tokens

/-- A token that is known to be a symbol and no bracket. -/
theorem nesting_of_isSymbol {token : Token} {spelling : String}
    (h : token.isSymbol spelling = true)
    (hopen : spelling ≠ "(" ∧ spelling ≠ "[" ∧ spelling ≠ "\x7b")
    (hclose : spelling ≠ ")" ∧ spelling ≠ "]" ∧ spelling ≠ "\x7d") (rest : List Token) :
    nesting (token :: rest) = nesting rest := by
  rw [Token.eq_of_isSymbol h]
  exact nesting_symbol _ _ _ hopen hclose

theorem nesting_base {spelling : String} (h : TrailingOp.ofSpelling? spelling = some .base)
    (position : Position) (rest : List Token) :
    nesting (⟨.symbol, spelling, position⟩ :: rest) = nesting rest := by
  refine nesting_symbol _ _ _ ⟨?_, ?_, ?_⟩ ⟨?_, ?_, ?_⟩ <;>
    · rintro rfl
      revert h
      decide

theorem nesting_params {tokens : List Token} {params : List Param} (h : ParamList tokens params) :
    nesting tokens = 0 := by
  induction h with
  | nil => rfl
  | comma position _ ih => exact (nesting_symbol _ _ _ (by decide) (by decide)).trans ih
  | name name position _ ih => rw [nesting_name, ih]

theorem nesting_header {header : List Token} {params : List Param}
    (h : Header header params) (rest : List Token) : nesting (header ++ rest) = nesting rest := by
  cases h with
  | bare position => exact nesting_symbol _ _ _ (by decide) (by decide)
  | listed opening closing assign hparams =>
      rw [List.cons_append, nesting_parenthesis, List.append_assoc, nesting_append,
        nesting_params hparams]
      have hclosing : nesting ([⟨.symbol, ")", closing⟩, ⟨.symbol, ":=", assign⟩] ++ rest) =
          -1 + nesting rest := nesting_append _ _
      omega

theorem nesting_naming {naming : List Token} {param : String}
    (h : naming = [] ∧ param = implicitName ∨
      ∃ namePosition, naming = [⟨.name, param, namePosition⟩]) (rest : List Token) :
    nesting (naming ++ rest) = nesting rest := by
  rcases h with ⟨rfl, -⟩ | ⟨namePosition, rfl⟩
  · rfl
  · exact nesting_name _ _ _

theorem nesting_width {numerals : List Token} {width : Nat}
    (h : numerals = [] ∧ width = 0 ∨ ∃ digits widthPosition,
      numerals = [⟨.numeral, digits, widthPosition⟩] ∧ readWidth? digits = some width)
    (rest : List Token) : nesting (numerals ++ rest) = nesting rest := by
  rcases h with ⟨rfl, -⟩ | ⟨digits, widthPosition, rfl, -⟩
  · rfl
  · exact nesting_numeral _ _ _

/-! ## What a rule closes -/

/-- The number of brackets that a rule closes and another one opened. -/
def Reading.owed : Reading → Int
  | .items closer _ _ => if closer.isSome then 1 else 0
  | _ => 0

/-- A rule closes no bracket that it did not open, but for the one that items are read up to. -/
theorem Reads.nesting_le {reading : Reading} {c c' : Cursor} (h : Reads reading c c') :
    nesting c'.rest ≤ nesting c.rest + reading.owed := by
  induction h with
  | absent | standIn _ | noArguments | stop _ | combinator _ _ =>
      exact Int.le_of_eq (Int.add_zero _).symm
  | text | numeral | var _ _ _ => simp [Reading.owed]
  | missing _ _ ih | closed _ ih | adopt _ _ _ _ ih | fresh _ _ _ _ ih => exact ih
  | call _ _ _ _ ih | leading _ _ ih | trailing _ _ _ ih | block _ _ ih | group _ ih
  | array _ _ ih | namedBlock _ _ ih => simpa [Reading.owed] using ih
  | define hheader _ ih => simpa [Reading.owed, nesting_header hheader] using ih
  | filter _ hnaming _ _ ihbody iharg =>
      simp only [Reading.owed, nesting_leading, nesting_naming hnaming, nesting_brace]
        at ihbody iharg ⊢
      omega
  | argument _ _ _ ihfirst ihnext | primary _ _ ihfirst ihnext | implicit _ _ ihfirst ihnext
  | dot _ _ _ _ ihfirst ihnext | binary _ _ _ _ _ ihfirst ihnext =>
      simp only [Reading.owed, nesting_binary, nesting_name] at ihfirst ihnext ⊢
      omega
  | zipWith _ _ _ _ _ ihcombinator ihright ihrest =>
      simp only [Reading.owed, nesting_binary] at ihcombinator ihright ihrest ⊢
      omega
  | base _ hop hwidth _ _ ih =>
      simpa [Reading.owed, nesting_base hop, nesting_width hwidth] using ih
  | done =>
      simp only [Reading.owed]
      split <;> omega
  | close _ => exact nesting_le_cons _ _
  | comma _ hcomma _ ih =>
      rw [nesting_of_isSymbol hcomma (by decide) (by decide)]
      exact ih
  | next _ _ _ _ ihitem ihrest =>
      simp only [Reading.owed] at ihitem ihrest ⊢
      omega
  -- The map and the combinator were read before, as items; only the operand is read here.
  | fold hfold _ _ _ _ iharg ihoperators =>
      rw [nesting_of_isSymbol hfold (by decide) (by decide)]
      simp only [Reading.owed] at iharg ihoperators ⊢
      omega
  | foldWith hfold _ _ _ _ _ ihread iharg ihoperators =>
      rw [nesting_of_isSymbol hfold (by decide) (by decide)]
      simp only [Reading.owed] at ihread iharg ihoperators ⊢
      omega

/-- A rule closes all brackets that it opens, and what it is to close besides. -/
def Settles (reading : Reading) (c c' : Cursor) : Prop :=
  nesting c'.rest = nesting c.rest + reading.owed

/-- What a rule settles is settled behind its first tokens. -/
theorem Settles.behind {reading next : Reading} {c c₀ c₁ : Cursor} (h : Settles reading c c₁)
    (hstart : nesting c.rest + reading.owed = nesting c₀.rest + next.owed) : Settles next c₀ c₁ :=
  h.trans hstart

/-- A combinator is read from tokens of its own. -/
theorem Reads.rest_combinator {tokens : List Token} {position : Position} {made : Combinator}
    {c c' : Cursor} (h : Reads (.combinator tokens position made) c c') : c'.rest = c.rest := by
  cases h
  rfl

/-- If two rules in a row close all that they open, each of them does: neither closes what the other
opens. -/
theorem Settles.split {reading first next : Reading} {c c₀ c₁ c₂ : Cursor}
    (h : Settles reading c c₂) (hfirst : Reads first c₀ c₁) (hnext : Reads next c₁ c₂)
    (hstart : nesting c.rest + reading.owed = nesting c₀.rest + first.owed + next.owed) :
    Settles first c₀ c₁ ∧ Settles next c₁ c₂ := by
  have hfirst := hfirst.nesting_le
  have hnext := hnext.nesting_le
  unfold Settles at h ⊢
  omega

/-- Two rules in a row that close all that they open. -/
theorem Settles.join {reading first next : Reading} {c c₀ c₁ c₂ : Cursor}
    (hfirst : Settles first c₀ c₁) (hnext : Settles next c₁ c₂)
    (hstart : nesting c.rest + reading.owed = nesting c₀.rest + first.owed + next.owed) :
    Settles reading c c₂ := by
  unfold Settles at *
  omega

/-- If items are read up to a symbol, it is a closing bracket. -/
def Reading.UpToBracket : Reading → Prop
  | .items closer _ _ =>
      ∀ spelling ∈ closer, spelling = ")" ∨ spelling = "]" ∨ spelling = "\x7d"
  | _ => True

theorem Reads.rest_ne_nil {reading : Reading} {c c' : Cursor} (h : Reads reading c c')
    (hrest : c'.rest ≠ []) : c.rest ≠ [] :=
  fun heq => hrest (List.suffix_nil.1 (heq ▸ h.suffix))

/-- Brackets are left open only at the end: a rule that ends in front of a token closes all that it
opens. -/
theorem Reads.settles {reading : Reading} {c c' : Cursor} (h : Reads reading c c')
    (hcloser : reading.UpToBracket) (hrest : c'.rest ≠ []) : Settles reading c c' := by
  induction h with
  | absent | standIn _ | noArguments | stop _ | combinator _ _ => exact (Int.add_zero _).symm
  | text | numeral | var _ _ _ => simp [Settles, Reading.owed]
  | missing _ _ ih | closed _ ih | adopt _ _ _ _ ih | fresh _ _ _ _ ih => exact ih trivial hrest
  | call _ _ _ _ ih | leading _ _ ih | trailing _ _ _ ih =>
      exact (ih trivial hrest).behind (by simp [Reading.owed])
  | block _ _ ih | namedBlock _ _ ih | group _ ih | array _ _ ih =>
      exact (ih (by simp [Reading.UpToBracket]) hrest).behind (by simp [Reading.owed])
  | define hheader _ ih =>
      exact (ih trivial hrest).behind (by simp [Reading.owed, nesting_header hheader])
  | filter _ hnaming _ harg ihbody iharg =>
      exact (ihbody (by simp [Reading.UpToBracket]) (harg.rest_ne_nil hrest)).join
        (iharg trivial hrest) (by simp [Reading.owed, nesting_naming hnaming])
  | argument _ _ hnext ihfirst ihnext | primary _ hnext ihfirst ihnext
  | implicit _ hnext ihfirst ihnext | dot _ _ _ hnext ihfirst ihnext
  | binary _ _ _ _ hnext ihfirst ihnext =>
      exact (ihfirst trivial (hnext.rest_ne_nil hrest)).join (ihnext trivial hrest)
        (by simp [Reading.owed])
  | zipWith _ hcombinator _ _ hnext _ ihfirst ihnext =>
      exact (ihfirst trivial (hnext.rest_ne_nil hrest)).join (ihnext trivial hrest)
        (by simp [Reading.owed, hcombinator.rest_combinator])
  | base _ hop hwidth _ _ ih =>
      exact (ih trivial hrest).behind
        (by simp [Reading.owed, nesting_base hop, nesting_width hwidth])
  -- Here a bracket may be left open, but no token is left.
  | done => exact absurd rfl hrest
  | @close spelling _ token rest _ _ htoken =>
      have hbracket : nesting [⟨.symbol, spelling, token.position⟩] = -1 := by
        rcases hcloser spelling rfl with rfl | rfl | rfl <;> rfl
      have hnesting : nesting (token :: rest) = -1 + nesting rest := by
        rw [Token.eq_of_isSymbol htoken, nesting_cons, hbracket]
      simp only [Settles, Reading.owed, hnesting, Option.isSome_some, if_true]
      omega
  | comma _ hcomma _ ih =>
      exact (ih hcloser hrest).behind
        (by rw [nesting_of_isSymbol hcomma (by decide) (by decide)])
  | next _ _ _ hnext ihitem ihnext =>
      exact (ihitem trivial (hnext.rest_ne_nil hrest)).join (ihnext hcloser hrest)
        (by simp [Reading.owed])
  | fold hfold _ _ _ hnext ihfirst ihnext =>
      exact (ihfirst trivial (hnext.rest_ne_nil hrest)).join (ihnext trivial hrest)
        (by simp [Reading.owed, nesting_of_isSymbol hfold])
  | foldWith hfold _ _ hread _ hnext _ ihfirst ihnext =>
      exact (ihfirst trivial (hnext.rest_ne_nil hrest)).join (ihnext trivial hrest)
        (by simp [Reading.owed, nesting_of_isSymbol hfold, hread.rest_combinator])

/-- The place that stands for the end of the tokens stays. -/
theorem Reads.finish_eq {reading : Reading} {c c' : Cursor} (h : Reads reading c c') :
    c'.finish = c.finish := by
  induction h with
  | absent | standIn _ | text | numeral | var _ _ _ | noArguments | stop _ | done | close _
  | combinator _ _ => rfl
  | call _ _ _ _ ih | define _ _ ih | namedBlock _ _ ih | block _ _ ih | group _ ih
  | array _ _ ih | leading _ _ ih | missing _ _ ih | closed _ ih | trailing _ _ _ ih
  | base _ _ _ _ _ ih | comma _ _ _ ih | fresh _ _ _ _ ih | adopt _ _ _ _ ih => exact ih
  | filter _ _ _ _ ihfirst ihnext | argument _ _ _ ihfirst ihnext | primary _ _ ihfirst ihnext
  | implicit _ _ ihfirst ihnext | dot _ _ _ _ ihfirst ihnext | binary _ _ _ _ _ ihfirst ihnext
  | next _ _ _ _ ihfirst ihnext | fold _ _ _ _ _ ihfirst ihnext => exact ihnext.trans ihfirst
  | zipWith _ _ _ _ _ ihcombinator ihfirst ihnext
  | foldWith _ _ _ _ _ _ ihcombinator ihfirst ihnext =>
      exact ihnext.trans (ihfirst.trans ihcombinator)

end Terse.Grammar
