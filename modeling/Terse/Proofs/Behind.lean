import Terse.Proofs.Coverage
import Terse.Proofs.Enclosed
import Terse.Proofs.Places

/-!
# Characters behind a text

A program is wrapped as text: a brace is put in front of it, and a brace and a fold behind it.  The
tokens of the text are then also tokens of the wrapped text, unless the last lexeme goes on with the
brace.  A quoted text that is not closed does so, and so do `:` and `.`, which make a symbol of two
characters with it; in these cases the brace is not a token of its own.

## Strategy

`endsOpen` decides which of the two happens.  It follows the recursion of `tokensFrom`, so the
results about whole texts are inductions on this recursion, with `goesOn` as the test for a single
lexeme.

* A lexeme that does not go on has the same length with a brace behind (`longest?_behind`).  This is
  shown for the lengths of all rules, from runs of digits up: a brace is neither a digit nor a
  letter, and no numeral contains one.
* If no lexeme goes on, the tokens are found again, followed by the brace and the fold
  (`tokensFrom_behind`).  They stand at other places, so what is shown is that they are spelled
  alike.
* If the last lexeme goes on, it swallows the brace (`tokensFrom_open`).  The tokens are not the
  same then, but they have the same brackets: what swallowed the brace is a text, or a symbol that
  is no bracket.  That there is one brace too many is all that is needed of wrapped programs.
-/

namespace Terse

/-- The tokens of a program with a brace in front of it and a brace and a fold behind it. -/
def wrapped (first brace fold : Position) (tokens : List Token) : List Token :=
  ⟨.symbol, "\x7b", first⟩ :: (tokens ++ [⟨.symbol, "\x7d", brace⟩, ⟨.symbol, "\\", fold⟩])

/-- Tokens that are spelled alike have the same brackets. -/
theorem Grammar.nesting_spelled {tokens' tokens : List Token} (h : Spelled tokens' tokens) :
    nesting tokens' = nesting tokens := by
  induction tokens generalizing tokens' with
  | nil => rw [h.eq_nil]
  | cons token rest ih =>
      obtain ⟨position, rest', rfl, hrest⟩ := h.exists_cons
      rw [nesting_cons, nesting_cons token, ih hrest]
      rfl

namespace Lexeme

/-! ## Characters behind a text -/

/-- Whether a quoted body runs to the end of the characters without being closed. -/
def unclosed (closing : List Char) : List Char → Bool
  | [] => true
  | '\\' :: '\n' :: _ => false
  | '\\' :: _ :: cs => unclosed closing cs
  | c :: cs => !closing.contains c && unclosed closing cs

/-- Whether the lexeme at the front of some characters would go on with a brace behind them. -/
def goesOn : List Char → Bool
  | [] => false
  | c :: cs =>
    (quote? c).any (fun quote => unclosed (closers quote) cs) ||
      cs.isEmpty && (c == ':' || c == '.')

/-- Whether the last lexeme of a text would go on with a brace behind the text; the first `skip`
characters belong to a lexeme before. -/
def endsOpen : Nat → List Char → Bool
  | _, [] => false
  | skip + 1, _ :: cs => endsOpen skip cs
  | 0, c :: cs =>
    if isSpace c then endsOpen 0 cs
    else match longest? (c :: cs) with
      | none => false
      | some (_, length) => goesOn (c :: cs) || endsOpen (length - 1) cs

theorem takeWhile_behind (p : Char → Bool) {c : Char} (hc : p c = false) (cs more : List Char) :
    (cs ++ c :: more).takeWhile p = cs.takeWhile p := by
  induction cs with
  | nil => simp [hc]
  | cons first cs ih => simp only [List.cons_append, List.takeWhile_cons, ih]

section Behind

variable (more : List Char)

theorem bodyLength_cons (closing : List Char) {c : Char} (hc : c ≠ '\\') (cs : List Char) :
    bodyLength closing (c :: cs) =
      if closing.contains c then 1 else bodyLength closing cs + 1 := by
  rw [bodyLength]
  · exact fun _ heq _ => hc heq
  · exact fun _ _ heq _ => hc heq

theorem bodyLength_behind {closing cs : List Char} (hclosing : closing.contains '\\' = false)
    (h : unclosed closing cs = false) :
    bodyLength closing (cs ++ more) = bodyLength closing cs := by
  -- By the recursion of `unclosed`: escapes are skipped in pairs, as `bodyLength` does.
  fun_induction unclosed closing cs with
  | case1 => cases h
  | case2 => rfl
  | case3 c cs hne ih =>
      rw [List.cons_append, List.cons_append, bodyLength, bodyLength, ih h]
      · exact hne
      · exact hne
  | case4 c cs _ hescape ih =>
      -- A backslash at the end leaves the body open, and elsewhere it is read with its next one.
      have hc : c ≠ '\\' := by
        rintro rfl
        cases cs with
        | nil =>
            rw [hclosing] at h
            cases h
        | cons next cs => exact hescape _ _ rfl rfl
      rw [List.cons_append, bodyLength_cons closing hc, bodyLength_cons closing hc]
      cases hcontains : closing.contains c with
      | true => rfl
      | false =>
          rw [hcontains] at h
          rw [ih h]

theorem digitsLength_behind (cs : List Char) :
    digitsLength (cs ++ '\x7d' :: more) = digitsLength cs :=
  congrArg List.length (takeWhile_behind Char.isDigit rfl cs more)

theorem mantissaLength_behind (cs : List Char) :
    mantissaLength (cs ++ '\x7d' :: more) = mantissaLength cs := by
  have hdrop : (cs ++ '\x7d' :: more).drop (digitsLength cs) =
      cs.drop (digitsLength cs) ++ '\x7d' :: more :=
    List.drop_append_of_le_length (digitsLength_le cs)
  simp only [mantissaLength, digitsLength_behind, hdrop]
  rcases cs.drop (digitsLength cs) with _ | ⟨c, rest⟩
  · rfl
  · by_cases hc : c = '.'
    · subst hc
      simp only [List.cons_append, digitsLength_behind]
    · simp [hc]

theorem exponentLength_behind (cs : List Char) :
    exponentLength (cs ++ '\x7d' :: more) = exponentLength cs := by
  cases cs with
  | nil => rfl
  | cons c cs =>
      by_cases hc : c = 'e'
      · subst hc
        cases cs with
        | nil => rfl
        | cons next cs =>
            by_cases hnext : next = '_'
            · subst hnext
              simp only [List.cons_append, exponentLength, digitsLength_behind]
            · have hdigits := digitsLength_behind more (next :: cs)
              rw [List.cons_append] at hdigits
              simp [exponentLength, hnext, hdigits]
      · simp [exponentLength, hc]

theorem bareExponentLength_behind (cs : List Char) :
    bareExponentLength (cs ++ '\x7d' :: more) = bareExponentLength cs := by
  cases cs with
  | nil => rfl
  | cons c cs =>
      by_cases hc : c = 'e'
      · subst hc
        simp only [List.cons_append, bareExponentLength, digitsLength_behind]
      · simp [bareExponentLength, hc]

theorem unsignedLength_behind (cs : List Char) :
    unsignedLength (cs ++ '\x7d' :: more) = unsignedLength cs := by
  simp only [unsignedLength, mantissaLength_behind, bareExponentLength_behind,
    List.drop_append_of_le_length (mantissaLength_le cs), exponentLength_behind]

theorem numeralLength_behind (cs : List Char) :
    numeralLength (cs ++ '\x7d' :: more) = numeralLength cs := by
  cases cs with
  | nil => rfl
  | cons c cs =>
      by_cases hc : c = '_'
      · subst hc
        simp only [List.cons_append, numeralLength, unsignedLength_behind]
      · have hbehind := unsignedLength_behind more (c :: cs)
        rw [List.cons_append] at hbehind ⊢
        simp [numeralLength, hc, hbehind]

theorem nameLength_behind (cs : List Char) :
    nameLength (cs ++ '\x7d' :: more) = nameLength cs := by
  cases cs with
  | nil => rfl
  | cons c cs =>
      have hname : continuesName '\x7d' = false := by decide
      rw [List.cons_append, nameLength, nameLength, takeWhile_behind continuesName hname]

/-- The only symbols that end in a brace start with `:` or `.`. -/
theorem symbolLength_behind {c : Char} {cs : List Char} (h : goesOn (c :: cs) = false) :
    symbolLength (c :: cs ++ '\x7d' :: more) = symbolLength (c :: cs) := by
  cases cs with
  | cons next cs => rfl
  | nil =>
      -- A single character could only make a symbol of two with the brace.
      have hfirst : ∀ s ∈ longSymbols, s.toList.getLast? = some '\x7d' →
          s.toList.head? = some ':' ∨ s.toList.head? = some '.' := by decide
      have hlength : ∀ s ∈ longSymbols, s.toList.length = 2 := by decide
      have hpair : longSymbols.any (·.toList == [c, '\x7d']) = false := by
        refine List.any_eq_false.2 fun s hs heq => ?_
        have hc := hfirst s hs (by rw [eq_of_beq heq]; rfl)
        rw [eq_of_beq heq, List.head?_cons] at hc
        rcases hc with hc | hc <;> cases hc <;> cases h
      have hsingle : longSymbols.any (·.toList == [c]) = false := by
        refine List.any_eq_false.2 fun s hs heq => ?_
        have hlong := hlength s hs
        rw [eq_of_beq heq] at hlong
        cases hlong
      simp only [symbolLength, List.cons_append, List.nil_append, List.take_succ_cons,
        List.take_zero, List.take_nil, hpair, hsingle]
      rfl

theorem Rule.length_behind (rule : Rule) {c : Char} {cs : List Char}
    (h : goesOn (c :: cs) = false) :
    rule.length (c :: cs ++ '\x7d' :: more) = rule.length (c :: cs) := by
  cases rule with
  | text =>
      have hclosers : ∀ quote, (closers quote).contains '\\' = false := by
        intro quote
        cases quote <;> decide
      simp only [goesOn, Bool.or_eq_false_iff] at h
      simp only [List.cons_append, Rule.length]
      cases hquote : quote? c with
      | none => rfl
      | some quote =>
          rw [hquote] at h
          exact congrArg (· + 1) (bodyLength_behind _ (hclosers quote) h.1)
  | numeral => exact numeralLength_behind more (c :: cs)
  | name => exact nameLength_behind more (c :: cs)
  | symbol => exact symbolLength_behind more h

theorem longest?_behind {c : Char} {cs : List Char} (h : goesOn (c :: cs) = false) :
    longest? (c :: cs ++ '\x7d' :: more) = longest? (c :: cs) := by
  have hbetter : Rule.better (c :: cs ++ '\x7d' :: more) = Rule.better (c :: cs) := by
    funext best rule
    simp only [Rule.better, rule.length_behind more h]
  rw [longest?, longest?, hbetter]

end Behind

theorem any_eq_false_of_head? {symbols : List String} {c : Char}
    (h : ∀ s ∈ symbols, s.toList.head? ≠ some c) (rest : List Char) :
    symbols.any (·.toList == c :: rest) = false := by
  refine List.any_eq_false.2 fun s hs heq => h s hs ?_
  rw [eq_of_beq heq]
  rfl

theorem symbolLength_eq_zero {c : Char} (hlong : ∀ s ∈ longSymbols, s.toList.head? ≠ some c)
    (hshort : ∀ s ∈ shortSymbols, s.toList.head? ≠ some c) (cs : List Char) :
    symbolLength (c :: cs) = 0 := by
  simp only [symbolLength, List.take_succ_cons, any_eq_false_of_head? hlong,
    any_eq_false_of_head? hshort]
  rfl

theorem longest?_brace (cs : List Char) : longest? ('\x7b' :: cs) = some (.symbol, 1) := by
  have hlong : longSymbols.any (·.toList == '\x7b' :: cs.take 1) = false :=
    any_eq_false_of_head? (by decide) _
  have hshort : shortSymbols.any (·.toList == ['\x7b']) = true := by decide
  have hsymbol : Rule.symbol.length ('\x7b' :: cs) = 1 := by
    simp only [Rule.length, symbolLength, List.take_succ_cons, List.take_zero, hlong, hshort]
    rfl
  have hnumeral : Rule.numeral.length ('\x7b' :: cs) = 0 := rfl
  have hname : Rule.name.length ('\x7b' :: cs) = 0 := rfl
  have htext : Rule.text.length ('\x7b' :: cs) = 0 := rfl
  simp [longest?, Rule.all, Rule.better, hsymbol, hnumeral, hname, htext]

/-! ## Texts that are not closed -/

theorem quote?_cases {c : Char} {quote : Quote} (h : quote? c = some quote) :
    c = '\x22' ∨ c = '\x27' ∨ c = '\x60' := by
  unfold quote? at h
  split at h
  · exact .inl ‹_›
  · split at h
    · exact .inr (.inl ‹_›)
    · split at h
      · exact .inr (.inr ‹_›)
      · cases h

/-- A quote starts a text and nothing else. -/
theorem longest?_quote {c : Char} {quote : Quote} (h : quote? c = some quote) (cs : List Char) :
    longest? (c :: cs) = some (.text, bodyLength (closers quote) cs + 1) := by
  have htext : Rule.text.length (c :: cs) = bodyLength (closers quote) cs + 1 := by
    simp only [Rule.length, h]
  obtain ⟨hnumeral, hname, hsymbol⟩ : Rule.numeral.length (c :: cs) = 0 ∧
      Rule.name.length (c :: cs) = 0 ∧ Rule.symbol.length (c :: cs) = 0 := by
    rcases quote?_cases h with rfl | rfl | rfl <;>
      exact ⟨rfl, rfl, symbolLength_eq_zero (by decide) (by decide) cs⟩
  simp [longest?, Rule.all, Rule.better, htext, hnumeral, hname, hsymbol]

theorem bodyLength_unclosed {closing cs : List Char} (h : unclosed closing cs = true) :
    bodyLength closing cs = cs.length := by
  fun_induction unclosed closing cs with
  | case1 => rfl
  | case2 => cases h
  | case3 c cs hne ih =>
      rw [bodyLength, ih h]
      · rfl
      · exact hne
  | case4 c cs hline hescape ih =>
      obtain ⟨hc, hcs⟩ := Bool.and_eq_true_iff.1 h
      rw [bodyLength, if_neg (by simpa using hc), ih hcs]
      · rfl
      · exact hline
      · exact hescape

theorem unclosed_cons (closing : List Char) {c : Char} (hc : c ≠ '\\') (cs : List Char) :
    unclosed closing (c :: cs) = (!closing.contains c && unclosed closing cs) := by
  rw [unclosed]
  · exact fun _ heq _ => hc heq
  · exact fun _ _ heq _ => hc heq

/-- A body that is not closed takes a brace and a fold behind it. -/
theorem unclosed_behind {closing cs : List Char} (hbrace : closing.contains '\x7d' = false)
    (hbackslash : closing.contains '\\' = false) (h : unclosed closing cs = true) :
    unclosed closing (cs ++ ['\x7d', '\\']) = true := by
  have hfold : unclosed closing ['\\'] = true := by
    simp only [unclosed, hbackslash]
    rfl
  fun_induction unclosed closing cs with
  | case1 =>
      rw [List.nil_append, unclosed_cons closing (by decide), hbrace, hfold]
      rfl
  | case2 => cases h
  | case3 c cs hne ih =>
      rw [List.cons_append, List.cons_append, unclosed]
      · exact ih h
      · exact hne
  | case4 c cs _ hescape ih =>
      by_cases hc : c = '\\'
      · subst hc
        cases cs with
        | nil => exact hfold
        | cons next cs => exact absurd rfl (hescape _ _ rfl)
      · obtain ⟨hcontains, hcs⟩ := Bool.and_eq_true_iff.1 h
        rw [List.cons_append, unclosed_cons closing hc, hcontains, ih hcs]
        rfl

/-! ## Tokens of a wrapped text -/

theorem Rule.form_token (rule : Rule) (lexeme : List Char) (position' position : Position) :
    (rule.token lexeme position').form = (rule.token lexeme position).form := by
  cases rule with
  | text => cases lexeme <;> rfl
  | numeral | name | symbol => rfl

theorem tokensFrom_closing (position : Position) :
    tokensFrom 0 position ['\x7d', '\\'] =
      .ok [⟨.symbol, "\x7d", position⟩, ⟨.symbol, "\\", position.after '\x7d'⟩] := by
  rfl

theorem exists_of_bind_ok {result : Except LexError (List Token)} {token : Token}
    {tokens : List Token} (h : (do let rest ← result; .ok (token :: rest)) = .ok tokens) :
    ∃ rest, result = .ok rest ∧ tokens = token :: rest := by
  cases result with
  | error failure => cases h
  | ok rest => exact ⟨rest, rfl, (Except.ok.inj h).symm⟩

theorem length_sub_one_le {c : Char} {cs : List Char} {rule : Rule} {length : Nat}
    (h : longest? (c :: cs) = some (rule, length)) : length - 1 ≤ cs.length := by
  have hlength := rule.length_le (c :: cs)
  rw [← (longest?_spec h).1, List.length_cons] at hlength
  omega

/-- The token of a lexeme that does not go on is made as well with a brace behind. -/
theorem tokensFrom_stays {c : Char} {cs more : List Char} {rule : Rule} {length : Nat}
    {position : Position} {rest : List Token} (hspace : ¬ isSpace c = true)
    (hlongest : longest? (c :: cs) = some (rule, length)) (hstays : goesOn (c :: cs) = false)
    (hrest : tokensFrom (length - 1) (position.after c) (cs ++ '\x7d' :: more) = .ok rest) :
    tokensFrom 0 position (c :: cs ++ '\x7d' :: more) =
      .ok (rule.token ((c :: cs).take length) position :: rest) := by
  have hlength : length ≤ (c :: cs).length := Nat.sub_le_iff_le_add.1 (length_sub_one_le hlongest)
  rw [List.cons_append, tokensFrom, if_neg hspace, ← List.cons_append, longest?_behind _ hstays,
    hlongest]
  simp only [hrest, List.take_append_of_le_length hlength]
  rfl

/-- A text that does not end open has its tokens also in front of a brace and a fold, at any
place. -/
theorem tokensFrom_behind {skip : Nat} {position : Position} {cs : List Char} {tokens : List Token}
    (h : tokensFrom skip position cs = .ok tokens) (hskip : skip ≤ cs.length)
    (hopen : endsOpen skip cs = false) (position' : Position) :
    ∃ tokens' brace fold,
      tokensFrom skip position' (cs ++ ['\x7d', '\\']) =
        .ok (tokens' ++ [⟨.symbol, "\x7d", brace⟩, ⟨.symbol, "\\", fold⟩]) ∧
      Spelled tokens' tokens := by
  -- Generalized to the place, as each lexeme moves those behind it.
  fun_induction tokensFrom skip position cs generalizing tokens position' with
  | case1 skip position =>
      obtain rfl := Nat.le_zero.1 hskip
      obtain rfl := Except.ok.inj h
      exact ⟨[], position', _, tokensFrom_closing position', .refl []⟩
  | case2 skip position c cs ih => exact ih h (Nat.le_of_succ_le_succ hskip) hopen _
  | case3 position c cs hspace ih =>
      rw [endsOpen, if_pos hspace] at hopen
      rw [List.cons_append, tokensFrom, if_pos hspace]
      exact ih h (Nat.zero_le _) hopen _
  | case4 => cases h
  | case5 position c cs hspace rule length hlongest ih =>
      rw [endsOpen, if_neg hspace, hlongest] at hopen
      obtain ⟨hstays, hopen⟩ := Bool.or_eq_false_iff.1 hopen
      obtain ⟨rest, hrest, rfl⟩ := exists_of_bind_ok h
      obtain ⟨tokens', brace, fold, htokens, hspelled⟩ :=
        ih hrest (length_sub_one_le hlongest) hopen (position'.after c)
      refine ⟨_ :: tokens', brace, fold, tokensFrom_stays hspace hlongest hstays htokens, ?_⟩
      rw [Spelled, List.map_cons, List.map_cons, hspelled, rule.form_token _ position']

/-- A text that is not closed is a single token. -/
theorem tokensFrom_unclosed {c : Char} {cs : List Char} {quote : Quote}
    (hquote : quote? c = some quote) (h : unclosed (closers quote) cs = true)
    (position : Position) :
    tokensFrom 0 position (c :: cs) = .ok [Rule.text.token (c :: cs) position] := by
  have hspace : isSpace c = false := by
    rcases quote?_cases hquote with rfl | rfl | rfl <;> rfl
  have hlongest : longest? (c :: cs ++ []) = some (.text, (c :: cs).length) := by
    rw [List.append_nil, longest?_quote hquote, bodyLength_unclosed h, List.length_cons]
  have htokens := tokensFrom_lexeme position hspace hlongest
  rwa [List.append_nil] at htokens

/-- With a brace and a fold behind it, a lexeme that goes on is a token that is no bracket. -/
theorem tokensFrom_goesOn {c : Char} {cs : List Char} (h : goesOn (c :: cs) = true)
    (position' position : Position) :
    ∃ tokens' tokens, tokensFrom 0 position' (c :: cs ++ ['\x7d', '\\']) = .ok tokens' ∧
      tokensFrom 0 position (c :: cs) = .ok tokens ∧
      Grammar.nesting tokens' = Grammar.nesting tokens := by
  rcases Bool.or_eq_true_iff.1 h with hany | hsymbol
  · have hclosers : ∀ quote, (closers quote).contains '\x7d' = false ∧
        (closers quote).contains '\\' = false := by
      intro quote
      cases quote <;> decide
    obtain ⟨quote, hquote, hunclosed⟩ := (Option.any_eq_true _ _).1 hany
    obtain ⟨hbrace, hbackslash⟩ := hclosers quote
    have hbehind := unclosed_behind hbrace hbackslash hunclosed
    exact ⟨_, _, tokensFrom_unclosed hquote hbehind _, tokensFrom_unclosed hquote hunclosed _, rfl⟩
  · obtain ⟨hcs, hc⟩ := Bool.and_eq_true_iff.1 hsymbol
    obtain rfl := List.isEmpty_iff.1 hcs
    rcases Bool.or_eq_true_iff.1 hc with hc | hc <;>
      · obtain rfl := eq_of_beq hc
        exact ⟨_, _, rfl, rfl, rfl⟩

/-- The tokens of a text that ends open have no more brackets with a brace and a fold behind. -/
theorem tokensFrom_open {skip : Nat} {position : Position} {cs : List Char} {tokens : List Token}
    (h : tokensFrom skip position cs = .ok tokens) (hskip : skip ≤ cs.length)
    (hopen : endsOpen skip cs = true) (position' : Position) :
    ∃ tokens', tokensFrom skip position' (cs ++ ['\x7d', '\\']) = .ok tokens' ∧
      Grammar.nesting tokens' = Grammar.nesting tokens := by
  fun_induction tokensFrom skip position cs generalizing tokens position' with
  | case1 skip position => cases hopen
  | case2 skip position c cs ih => exact ih h (Nat.le_of_succ_le_succ hskip) hopen _
  | case3 position c cs hspace ih =>
      rw [endsOpen, if_pos hspace] at hopen
      rw [List.cons_append, tokensFrom, if_pos hspace]
      exact ih h (Nat.zero_le _) hopen _
  | case4 => cases h
  | case5 position c cs hspace rule length hlongest ih =>
      rw [endsOpen, if_neg hspace, hlongest] at hopen
      obtain ⟨rest, hrest, rfl⟩ := exists_of_bind_ok h
      -- Either a later lexeme goes on, or this one takes all that is left.
      cases hstays : goesOn (c :: cs) with
      | false =>
          rw [hstays] at hopen
          obtain ⟨tokens', htokens, hnesting⟩ :=
            ih hrest (length_sub_one_le hlongest) hopen (position'.after c)
          refine ⟨_ :: tokens', tokensFrom_stays hspace hlongest hstays htokens, ?_⟩
          have htoken : Spelled [rule.token ((c :: cs).take length) position']
              [rule.token ((c :: cs).take length) position] :=
            congrArg ([·]) (rule.form_token _ position' position)
          rw [Grammar.nesting_cons, Grammar.nesting_cons (rule.token _ position), hnesting,
            Grammar.nesting_spelled htoken]
      | true =>
          obtain ⟨tokens', tokens, hwrapped, htokens, hnesting⟩ :=
            tokensFrom_goesOn hstays position' position
          rw [tokensFrom, if_neg hspace, hlongest] at htokens
          simp only [hrest] at htokens
          obtain rfl := Except.ok.inj htokens
          exact ⟨tokens', hwrapped, hnesting⟩

theorem tokenize_brace {source : String} {rest : List Token}
    (h : tokensFrom 0 (Position.start.after '\x7b') (source.toList ++ ['\x7d', '\\']) = .ok rest) :
    tokenize ("\x7b" ++ source ++ "\x7d\\") = .ok (⟨.symbol, "\x7b", .start⟩ :: rest) := by
  have hwrapped : ("\x7b" ++ source ++ "\x7d\\").toList =
      ['\x7b'] ++ (source.toList ++ ['\x7d', '\\']) := by
    rw [String.toList_append, String.toList_append, List.append_assoc]
    rfl
  rw [tokenize_eq_tokensFrom, hwrapped]
  exact (tokensFrom_lexeme .start rfl (longest?_brace _)).trans (congrArg _ h)

/-- A text that does not end open keeps its tokens when it is wrapped. -/
theorem tokenize_wrapped {source : String} {tokens : List Token} (h : tokenize source = .ok tokens)
    (hopen : endsOpen 0 source.toList = false) :
    ∃ first brace fold tokens',
      tokenize ("\x7b" ++ source ++ "\x7d\\") = .ok (wrapped first brace fold tokens') ∧
        Spelled tokens' tokens := by
  rw [tokenize_eq_tokensFrom] at h
  obtain ⟨tokens', brace, fold, htokens, hspelled⟩ :=
    tokensFrom_behind h (Nat.zero_le _) hopen (Position.start.after '\x7b')
  exact ⟨.start, brace, fold, tokens', tokenize_brace htokens, hspelled⟩

/-- A wrapped text starts with a brace.  If the text ends open, the brace behind it is no token. -/
theorem nesting_tokenize {source : String} {tokens tokens' : List Token}
    (h : tokenize source = .ok tokens)
    (hwrapped : tokenize ("\x7b" ++ source ++ "\x7d\\") = .ok tokens') :
    tokens'.head?.any (·.isSymbol "\x7b") = true ∧ Grammar.nesting tokens' =
      Grammar.nesting tokens + if endsOpen 0 source.toList then 1 else 0 := by
  cases hopen : endsOpen 0 source.toList with
  | true =>
      rw [tokenize_eq_tokensFrom] at h
      obtain ⟨rest, hrest, hnesting⟩ :=
        tokensFrom_open h (Nat.zero_le _) hopen (Position.start.after '\x7b')
      obtain rfl := Except.ok.inj (hwrapped.symm.trans (tokenize_brace hrest))
      refine ⟨rfl, ?_⟩
      rw [Grammar.nesting_brace, hnesting]
      rfl
  | false =>
      obtain ⟨first, brace, fold, rest, hrest, hspelled⟩ := tokenize_wrapped h hopen
      obtain rfl := Except.ok.inj (hwrapped.symm.trans hrest)
      refine ⟨rfl, ?_⟩
      rw [wrapped, Grammar.nesting_brace, Grammar.nesting_append, Grammar.nesting_spelled hspelled]
      have hclosing : Grammar.nesting [⟨.symbol, "\x7d", brace⟩, ⟨.symbol, "\\", fold⟩] = -1 := rfl
      rw [hclosing, if_neg Bool.false_ne_true]
      omega

end Lexeme

end Terse
