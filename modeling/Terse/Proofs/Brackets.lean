import Terse.Proofs.Depth

/-!
# Brackets of accepted programs

The brackets of a program form a word of marks, each of which opens or closes a bracket of one of
three kinds.  `WellNested` is the grammar of the words in which every bracket is closed by its own
mark.  `unclosed` reads a word from the front and keeps the brackets that are open, the innermost
first; it fails at a mark that does not close the innermost open bracket.

## Strategy

1. The words that `unclosed` reads to the end are the prefixes of well-nested words
(`exists_wellNested_iff`), and it fails exactly where a mark strays (`strays_iff`).  2. A rule of
the grammar hands on what it opened: whatever brackets are open, if the tokens behind the rule are
read to the end, so are the tokens in front of it (`Reads.handsOn`).  Items that end at a closing
bracket start with that bracket open.  3. Behind a whole program there is no token, so its own
tokens are read to the end.

For the first part, a word that closes some open brackets is taken apart at the marks that close
them (`Completes`).  The recursion of `unclosed` opens and closes brackets in front of such a word,
and this keeps it one (`Completes.enclose`).

The second part goes from the end of the tokens to their start, so the open brackets are those in
front of a rule and may be any.  A bracket that is left open at the end does no harm there, since
reading to the end only fails at a mark that strays.
-/

namespace Terse.Grammar

/-! ## Words of marks -/

/-- The kinds of brackets. -/
inductive Bracket where
  | round
  | square
  | curly
deriving DecidableEq

/-- A mark that opens or closes a bracket. -/
inductive Mark where
  | opens (bracket : Bracket)
  | closes (bracket : Bracket)
deriving DecidableEq

namespace Mark

/-- The spelling of a mark. -/
def spelling : Mark → String
  | opens .round => "("
  | opens .square => "["
  | opens .curly => "\x7b"
  | closes .round => ")"
  | closes .square => "]"
  | closes .curly => "\x7d"

def all : List Mark :=
  [opens .round, opens .square, opens .curly, closes .round, closes .square, closes .curly]

end Mark

/-- The words in which every bracket is closed by the mark of its own kind, the inner brackets
before the outer ones. -/
inductive WellNested : List Mark → Prop where
  | nil : WellNested []
  | enclose (b : Bracket) {inner behind : List Mark} (hinner : WellNested inner)
      (hbehind : WellNested behind) : WellNested (.opens b :: (inner ++ .closes b :: behind))

/-- The brackets that are open behind a word, the innermost first, given those that are open in
front of it.  There is no answer if a mark does not close the innermost open bracket. -/
def unclosed : List Bracket → List Mark → Option (List Bracket)
  | stack, [] => some stack
  | stack, .opens b :: word => unclosed (b :: stack) word
  | [], .closes _ :: _ => none
  | top :: stack, .closes b :: word => if b = top then unclosed stack word else none

/-- A mark closes nothing, or another bracket than the innermost open one. -/
def Strays (word : List Mark) : Prop :=
  ∃ front b behind stack, word = front ++ .closes b :: behind ∧
    unclosed [] front = some stack ∧ stack.head? ≠ some b

theorem unclosed_append (stack : List Bracket) (front behind : List Mark) :
    unclosed stack (front ++ behind) = (unclosed stack front).bind (unclosed · behind) := by
  fun_induction unclosed stack front with
  | case1 stack => rfl
  | case2 stack b word ih => exact ih
  | case3 => rfl
  | case4 stack b word ih => simpa [unclosed] using ih
  | case5 top stack b word hne => simp [unclosed, hne]

/-- A well-nested word leaves the open brackets as they are. -/
theorem WellNested.unclosed_append {word : List Mark} (h : WellNested word) (stack : List Bracket)
    (behind : List Mark) : unclosed stack (word ++ behind) = unclosed stack behind := by
  induction h generalizing stack behind with
  | nil => rfl
  | enclose b _ _ ihinner ihbehind =>
      rw [List.cons_append, List.append_assoc, unclosed, ihinner, List.cons_append, unclosed,
        if_pos rfl, ihbehind]

/-- A word that closes the given open brackets, the innermost first, with well-nested words around
the closing marks. -/
def Completes : List Bracket → List Mark → Prop
  | [], word => WellNested word
  | b :: stack, word =>
      ∃ front behind, word = front ++ .closes b :: behind ∧ WellNested front ∧
        Completes stack behind

theorem completes_map_closes (stack : List Bracket) : Completes stack (stack.map .closes) := by
  induction stack with
  | nil => exact .nil
  | cons b stack ih => exact ⟨[], _, rfl, .nil, ih⟩

/-- A bracket may be opened and closed in front of a word. -/
theorem Completes.enclose {stack : List Bracket} {inner behind : List Mark} (b : Bracket)
    (hinner : WellNested inner) (h : Completes stack behind) :
    Completes stack (.opens b :: (inner ++ .closes b :: behind)) := by
  cases stack with
  | nil => exact WellNested.enclose b hinner h
  | cons top stack =>
      obtain ⟨front, rest, rfl, hfront, hrest⟩ := h
      exact ⟨.opens b :: (inner ++ .closes b :: front), rest, by simp, .enclose b hinner hfront,
        hrest⟩

/-- What closes the brackets that are open behind a word closes, with the word in front of it, those
that are open in front. -/
theorem completes_append {stack stack' : List Bracket} {word behind : List Mark}
    (hword : unclosed stack word = some stack') (hbehind : Completes stack' behind) :
    Completes stack (word ++ behind) := by
  fun_induction unclosed stack word with
  | case1 stack =>
      obtain rfl := Option.some.inj hword
      exact hbehind
  | case2 stack b word ih =>
      -- What closes the new bracket comes first, and the rest closes what was open.
      obtain ⟨inner, rest, heq, hinner, hrest⟩ := ih hword
      rw [List.cons_append, heq]
      exact hrest.enclose b hinner
  | case3 => cases hword
  | case4 stack b word ih => exact ⟨[], _, rfl, .nil, ih hword⟩
  | case5 => cases hword

/-- A word that is read to the end becomes well-nested when the brackets that are still open are
closed behind it. -/
theorem wellNested_of_unclosed {word : List Mark} {stack : List Bracket}
    (h : unclosed [] word = some stack) : WellNested (word ++ stack.map .closes) :=
  completes_append h (completes_map_closes stack)

/-- The words that are read to the end are the prefixes of well-nested words. -/
theorem exists_wellNested_iff (word : List Mark) :
    (∃ behind, WellNested (word ++ behind)) ↔ (unclosed [] word).isSome = true := by
  constructor
  · rintro ⟨behind, h⟩
    have hread : unclosed [] (word ++ behind) = some [] := by
      simpa [unclosed] using h.unclosed_append [] []
    rw [unclosed_append] at hread
    obtain ⟨stack, hstack, -⟩ := Option.bind_eq_some_iff.1 hread
    rw [hstack, Option.isSome_some]
  · intro h
    obtain ⟨stack, hstack⟩ := Option.isSome_iff_exists.1 h
    exact ⟨_, wellNested_of_unclosed hstack⟩

/-- Reading fails at the first mark that strays. -/
theorem exists_of_unclosed_eq_none {stack : List Bracket} {word : List Mark}
    (h : unclosed stack word = none) :
    ∃ front b behind stack', word = front ++ .closes b :: behind ∧
      unclosed stack front = some stack' ∧ stack'.head? ≠ some b := by
  fun_induction unclosed stack word with
  | case1 => cases h
  | case2 stack b word ih =>
      obtain ⟨front, b', behind, stack', rfl, hfront, hne⟩ := ih h
      exact ⟨.opens b :: front, b', behind, stack', rfl, hfront, hne⟩
  | case3 b word => exact ⟨[], b, word, [], rfl, rfl, nofun⟩
  | case4 stack b word ih =>
      obtain ⟨front, b', behind, stack', rfl, hfront, hne⟩ := ih h
      exact ⟨.closes b :: front, b', behind, stack', rfl, by rwa [unclosed, if_pos rfl], hne⟩
  | case5 top stack b word hne =>
      exact ⟨[], b, word, top :: stack, rfl, rfl, fun heq => hne (Option.some.inj heq).symm⟩

/-- A mark strays in exactly the words that are no prefixes of well-nested words. -/
theorem strays_iff (word : List Mark) :
    Strays word ↔ ¬ ∃ behind, WellNested (word ++ behind) := by
  rw [exists_wellNested_iff, Option.not_isSome_iff_eq_none]
  constructor
  · rintro ⟨front, b, behind, stack, rfl, hfront, hne⟩
    rw [unclosed_append, hfront, Option.bind_some]
    cases stack with
    | nil => rfl
    | cons top stack => exact if_neg fun heq => hne (congrArg some heq.symm)
  · exact exists_of_unclosed_eq_none

/-! ## The marks among the tokens -/

/-- The mark that a token is. -/
def mark? (token : Token) : Option Mark := Mark.all.find? (token.isSymbol ·.spelling)

/-- The brackets among some tokens. -/
def marks (tokens : List Token) : List Mark := tokens.filterMap mark?

/-- The tokens are read to the end, given the brackets that are open in front of them. -/
def Nests (stack : List Bracket) (tokens : List Token) : Prop :=
  (unclosed stack (marks tokens)).isSome = true

theorem nests_nil (stack : List Bracket) : Nests stack [] := rfl

theorem nests_plain {token : Token} (h : mark? token = none) {stack : List Bracket}
    {rest : List Token} (hrest : Nests stack rest) : Nests stack (token :: rest) := by
  unfold Nests marks at *
  rwa [List.filterMap_cons_none h]

theorem nests_opens {token : Token} {b : Bracket} (h : mark? token = some (.opens b))
    {stack : List Bracket} {rest : List Token} (hrest : Nests (b :: stack) rest) :
    Nests stack (token :: rest) := by
  unfold Nests marks at *
  rwa [List.filterMap_cons_some h]

theorem nests_closes {token : Token} {b : Bracket} (h : mark? token = some (.closes b))
    {stack : List Bracket} {rest : List Token} (hrest : Nests stack rest) :
    Nests (b :: stack) (token :: rest) := by
  unfold Nests marks at *
  rwa [List.filterMap_cons_some h, unclosed, if_pos rfl]

section Tokens

variable {stack : List Bracket} {rest : List Token} (position : Position)

theorem mark?_spelling (mark : Mark) :
    mark? ⟨.symbol, mark.spelling, position⟩ = some mark := by
  cases mark with
  | opens b => cases b <;> rfl
  | closes b => cases b <;> rfl

theorem mark?_leading (op : LeadingOp) : mark? (op.token position) = none := by
  cases op <;> rfl

theorem mark?_binary (op : BinaryOp) : mark? (op.token position) = none := by
  cases op <;> rfl

theorem mark?_trailing (op : TrailingOp) : mark? (op.token position) = none := by
  cases op <;> rfl

theorem mark?_of_isSymbol {token : Token} {mark : Mark}
    (h : token.isSymbol mark.spelling = true) : mark? token = some mark := by
  rw [Token.eq_of_isSymbol h]
  exact mark?_spelling _ mark

/-- A symbol that spells the base conversion is no bracket. -/
theorem mark?_base {spelling : String} (h : TrailingOp.ofSpelling? spelling = some .base) :
    mark? ⟨.symbol, spelling, position⟩ = none := by
  apply List.find?_eq_none.2
  intro mark _ hmark
  have hspelling : spelling = mark.spelling :=
    congrArg Token.text (Token.eq_of_isSymbol hmark)
  rw [hspelling] at h
  cases mark with
  | opens b => cases b <;> cases h
  | closes b => cases b <;> cases h

theorem Nests.params {tokens : List Token} {params : List Param} (h : ParamList tokens params)
    (hrest : Nests stack rest) : Nests stack (tokens ++ rest) := by
  induction h with
  | nil => exact hrest
  | comma _ _ ih => exact nests_plain rfl ih
  | name _ _ _ ih => exact nests_plain rfl ih

/-- The parameters of a definition stand in brackets of their own. -/
theorem Nests.header {header : List Token} {params : List Param} (h : Header header params)
    (hrest : Nests stack rest) : Nests stack (header ++ rest) := by
  cases h with
  | bare assign => exact nests_plain rfl hrest
  | listed opening closing assign hparams =>
      rw [List.cons_append, List.append_assoc]
      apply nests_opens (b := .round) rfl
      apply Nests.params hparams
      apply nests_closes rfl
      exact nests_plain rfl hrest

theorem Nests.naming {naming : List Token} {param : String}
    (h : naming = [] ∧ param = implicitName ∨
      ∃ namePosition, naming = [⟨.name, param, namePosition⟩])
    (hrest : Nests stack rest) : Nests stack (naming ++ rest) := by
  rcases h with ⟨rfl, -⟩ | ⟨namePosition, rfl⟩
  · exact hrest
  · exact nests_plain rfl hrest

theorem Nests.width {numerals : List Token} {width : Nat}
    (h : numerals = [] ∧ width = 0 ∨ ∃ digits widthPosition,
      numerals = [⟨.numeral, digits, widthPosition⟩] ∧ readWidth? digits = some width)
    (hrest : Nests stack rest) : Nests stack (numerals ++ rest) := by
  rcases h with ⟨rfl, -⟩ | ⟨digits, widthPosition, rfl, -⟩
  · exact hrest
  · exact nests_plain rfl hrest

end Tokens

/-! ## What a rule hands on -/

/-- If the tokens behind a rule are read to the end, so are those in front of it, whatever brackets
are open.  Items up to a closing bracket are read with that bracket open. -/
def Reading.HandsOn (c c' : Cursor) : Reading → Prop
  | .items (some closer) _ _ =>
      ∀ b stack, closer = (Mark.closes b).spelling → Nests stack c'.rest →
        Nests (b :: stack) c.rest
  | _ => ∀ stack, Nests stack c'.rest → Nests stack c.rest

/-- Tokens in front of items hand on as the items do. -/
theorem Reading.HandsOn.before {c₀ c c' : Cursor} {closer : Option String}
    {siblings siblings₀ : List Sibling} {nodes : List Node}
    (h : (Reading.items closer siblings nodes).HandsOn c c')
    (hbefore : ∀ stack, Nests stack c.rest → Nests stack c₀.rest) :
    (Reading.items closer siblings₀ nodes).HandsOn c₀ c' := by
  cases closer with
  | none => exact fun stack hstack => hbefore stack (h stack hstack)
  | some closer => exact fun b stack hcloser hstack => hbefore _ (h b stack hcloser hstack)

theorem Reads.handsOn {reading : Reading} {c c' : Cursor} (h : Reads reading c c') :
    reading.HandsOn c c' := by
  induction h with
  | absent | standIn _ | noArguments | stop _ | combinator _ _ => exact fun _ hstack => hstack
  | text | numeral | var _ _ _ => exact fun _ hstack => nests_plain rfl hstack
  | missing _ _ ih | closed _ ih | adopt _ _ _ _ ih | fresh _ _ _ _ ih => exact ih
  | call _ _ _ _ ih => exact fun stack hstack => nests_plain rfl (ih stack hstack)
  | define hheader _ ih =>
      intro stack hstack
      apply nests_plain rfl
      exact Nests.header hheader (ih stack hstack)
  | namedBlock _ _ ih =>
      intro stack hstack
      apply nests_plain rfl
      exact nests_opens rfl (ih .curly stack rfl hstack)
  | block _ _ ih => exact fun stack hstack => nests_opens rfl (ih .curly stack rfl hstack)
  | group _ ih => exact fun stack hstack => nests_opens rfl (ih .round stack rfl hstack)
  | array _ _ ih => exact fun stack hstack => nests_opens rfl (ih .square stack rfl hstack)
  | leading _ _ ih => exact fun stack hstack => nests_plain (mark?_leading _ _) (ih stack hstack)
  -- The block closes its bracket in front of the operand.
  | filter _ hnaming _ _ ihbody iharg =>
      intro stack hstack
      apply nests_plain (mark?_leading _ _)
      apply Nests.naming hnaming
      apply nests_opens rfl
      exact ihbody .curly stack rfl (iharg stack hstack)
  | argument _ _ _ ihfirst ihnext | primary _ _ ihfirst ihnext | implicit _ _ ihfirst ihnext =>
      exact fun stack hstack => ihfirst stack (ihnext stack hstack)
  | dot _ _ _ _ ihargs ihrest =>
      intro stack hstack
      apply nests_plain (mark?_binary _ _)
      exact nests_plain rfl (ihargs stack (ihrest stack hstack))
  | zipWith _ _ _ _ _ ihcombinator ihright ihrest =>
      intro stack hstack
      apply nests_plain (mark?_binary _ _)
      apply nests_plain (mark?_binary _ _)
      exact ihcombinator stack (ihright stack (ihrest stack hstack))
  | binary _ _ _ _ _ ihright ihrest =>
      intro stack hstack
      apply nests_plain (mark?_binary _ _)
      exact ihright stack (ihrest stack hstack)
  | trailing _ _ _ ih =>
      intro stack hstack
      exact nests_plain (mark?_trailing _ _) (ih stack hstack)
  | base _ hop hwidth _ _ ih =>
      intro stack hstack
      apply nests_plain (mark?_base _ hop)
      apply Nests.width hwidth
      exact nests_plain rfl (ih stack hstack)
  | @done closer _ _ _ =>
      -- A bracket that is still open at the end counts as closed there.
      cases closer with
      | none => exact fun stack _ => nests_nil stack
      | some closer => exact fun b stack _ _ => nests_nil (b :: stack)
  | close htoken =>
      rintro b stack rfl hstack
      exact nests_closes (mark?_of_isSymbol htoken) hstack
  | comma _ hcomma _ ih =>
      apply ih.before
      intro stack hstack
      rw [Token.eq_of_isSymbol hcomma]
      exact nests_plain rfl hstack
  | next _ _ _ _ ihitem ihrest => exact ihrest.before ihitem
  | fold hfold _ _ _ _ iharg ihoperators =>
      intro stack hstack
      rw [Token.eq_of_isSymbol hfold]
      apply nests_plain rfl
      exact iharg stack (ihoperators stack hstack)
  | foldWith hfold _ _ _ _ _ ihread iharg ihoperators =>
      intro stack hstack
      rw [Token.eq_of_isSymbol hfold]
      apply nests_plain rfl
      exact ihread stack (iharg stack (ihoperators stack hstack))

/-! ## Whole programs -/

/-- A program ends with brackets open at most, or with a syntax error. -/
theorem parse_cases (tokens : List Token) (calls : CallTable) :
    Nests [] tokens ∨ ∃ error, (parse tokens calls).1 = .error (.fault error) := by
  rcases run_cases tokens calls with ⟨nodes, c, -, hreads⟩ | ⟨error, c, hrun⟩
  · left
    apply hreads.handsOn
    rw [hreads.rest_eq_nil _ _ rfl]
    exact nests_nil []
  · right
    exact ⟨error, by rw [parse_of_fault hrun]⟩

/-- The brackets of an accepted program are the start of a well-nested word, to which only the
closing marks of the brackets that are open at the end are missing.  If a mark strays, there is a
syntax error, and a mark strays wherever the brackets are not the start of a well-nested word. -/
theorem parse_nested (tokens : List Token) (calls : CallTable) :
    (∀ program, (parse tokens calls).1 = .ok program →
      ∃ stack, unclosed [] (marks tokens) = some stack ∧
        WellNested (marks tokens ++ stack.map .closes)) ∧
    (Strays (marks tokens) → ∃ error, (parse tokens calls).1 = .error (.fault error)) ∧
    (Strays (marks tokens) ↔ ¬ ∃ behind, WellNested (marks tokens ++ behind)) := by
  refine ⟨?_, ?_, strays_iff _⟩
  · intro program hparse
    rcases parse_cases tokens calls with hnests | ⟨error, herror⟩
    · obtain ⟨stack, hstack⟩ := Option.isSome_iff_exists.1 hnests
      exact ⟨stack, hstack, wellNested_of_unclosed hstack⟩
    · rw [hparse] at herror
      cases herror
  · intro hstrays
    rcases parse_cases tokens calls with hnests | herror
    · exact absurd ((exists_wellNested_iff _).2 hnests) ((strays_iff _).1 hstrays)
    · exact herror

namespace Unfinished

/-- `{[a`, which leaves two brackets open. -/
def openEnded : List Token :=
  [⟨.symbol, "\x7b", .start⟩, ⟨.symbol, "[", .start⟩, ⟨.name, "a", .start⟩]

/-- `([)`, in which the last mark strays: the square bracket is the innermost open one. -/
def crossed : List Token :=
  [⟨.symbol, "(", .start⟩, ⟨.symbol, "[", .start⟩, ⟨.symbol, ")", .start⟩]

theorem strays_crossed : Strays (marks crossed) :=
  ⟨[.opens .round, .opens .square], .round, [], [.square, .round], rfl, rfl, by decide⟩

theorem nested_openEnded :
    (parse openEnded []).1.isOk = true ∧
      (∃ stack, unclosed [] (marks openEnded) = some stack ∧
        WellNested (marks openEnded ++ stack.map .closes)) ∧
      Strays (marks crossed) ∧ ∃ error, (parse crossed []).1 = .error (.fault error) := by
  have hok : (parse openEnded []).1.isOk = true := by decide
  refine ⟨hok, ?_, strays_crossed, (parse_nested crossed []).2.1 strays_crossed⟩
  cases hparse : (parse openEnded []).1 with
  | ok program => exact (parse_nested openEnded []).1 program hparse
  | error stop =>
      rw [hparse] at hok
      cases hok

end Unfinished

end Terse.Grammar
