import Terse.Proofs.Behind
import Terse.Proofs.Delimited
import Terse.Proofs.Packed
import Terse.Proofs.WellFormed

/-!
# Programs that are mapped over the input

A program is wrapped as text: a brace is put in front of it, and a brace and a fold behind it.  If
the end of the text does not run into what is put behind it, the wrapped program is a fold with the
program as its map, of all of the input.  There are two ways for the end of a text to run into a
brace: its last lexeme goes on with the brace, or a bracket is left open, so that the brace closes
that one or none.

## Strategy

That the program is mapped otherwise is shown by reading it again.  The tokens of the wrapped text
are those of the program, at other positions, between the new ones (`Lexeme.tokenize_wrapped`), and
the items of the program are also what is read up to the brace (`parse_mapped`).

That it is not mapped in these cases is a matter of counting.  A fold that is all of a program and
has a block at its start as its map leaves no bracket open (`Reads.nesting_eq_zero`), but the
wrapped program does.  To see the former, follow the items behind the block.

* `Missed` says that the items so far cannot become a single one that maps over the input, and it
  stays true up to the end (`Reads.takesInput_of_missed`).
* An item behind the block is a fold that takes the block as its map and has no brackets, or the
  items are missed (`Reads.item_single`).
* So where nothing is missed, there are no brackets behind the block, and the block itself closes
  its own.
-/

namespace Terse

/-! ## The tree of a wrapped program -/

/-- A program that maps a program over the input: a fold without a combinator, of all of the input,
with the program as its map. -/
def Program.mapped (program : Program) : Program :=
  ⟨[.leading .fold (.implicit .start) (.fold (some ⟨implicitName, program, .start⟩) none) .start],
    .start⟩

/-- Whether a tree is that of a leading operator in front of nothing, which takes all of the
input. -/
def Node.takesInput : Node → Bool
  | .leading _ arg _ _ => arg.isImplicit
  | _ => false

/-- Whether a tree is that of an operator behind its left operand. -/
def Node.isFollower : Node → Bool
  | .binary .. | .trailing .. => true
  | _ => false

theorem Node.takesInput_of_isFollower {node : Node} (h : node.isFollower = true) :
    node.takesInput = false := by
  cases node with
  | binary | trailing => rfl
  | _ => cases h

theorem Node.isBlock_of_isFollower {node : Node} (h : node.isFollower = true) :
    node.isBlock = false := by
  cases node with
  | binary | trailing => rfl
  | _ => cases h

namespace Grammar

/-- Items up to a brace and a fold behind it are read as a fold with a block as its map, if a brace
stands in front of them. -/
theorem Reads.mapped {tokens : List Token} {finish finish' fold : Position}
    {calls calls' : CallTable} {nodes : List Node} (first : Position)
    (h : Reads (.items (some "\x7d") [] nodes) ⟨tokens, finish, calls⟩
      ⟨[⟨.symbol, "\\", fold⟩], finish', calls'⟩) :
    Reads (.items none [] [.leading .fold (.implicit finish') (.fold (some ⟨implicitName,
        ⟨nodes, Cursor.position ⟨tokens, finish, calls⟩⟩, first⟩) none) fold])
      ⟨⟨.symbol, "\x7b", first⟩ :: tokens, finish, calls⟩ ⟨[], finish', calls'⟩ := by
  -- The block has taken a token, and the fold then takes the block.
  have hprogress : [(⟨.symbol, "\\", fold⟩ : Token)].length ≠
      (⟨.symbol, "\x7b", first⟩ :: tokens).length := by
    have hlength := h.suffix.length_le
    simp only [List.length_cons, List.length_nil] at hlength ⊢
    omega
  have hblock : Reads (.item ⟨.symbol, "\x7b", first⟩ [] _)
      ⟨⟨.symbol, "\x7b", first⟩ :: tokens, finish, calls⟩ _ :=
    .fresh rfl nofun (.closed (.block nofun h)) hprogress
  exact .next rfl rfl hblock (.next rfl rfl
    (.fold rfl rfl rfl (.implicit .absent (.stop nofun)) (.stop nofun)) .done)

/-- A program that leaves no bracket open is mapped over the input if a brace stands in front of it
and a brace and a fold behind it. -/
theorem parse_mapped {tokens tokens' : List Token} {calls : CallTable} {program : Program}
    (h : (parse tokens calls).1 = .ok program)
    (hbrackets : tokens.countP isOpener = tokens.countP isCloser) (htokens : Spelled tokens' tokens)
    (first brace fold : Position) :
    ∃ program', parse (wrapped first brace fold tokens') calls =
        (.ok program', (parse tokens calls).2) ∧
      program'.unplaced = program.unplaced.mapped := by
  obtain ⟨c, hreads, hcalls⟩ := reads_of_parse h
  have hsettles : Settles (.items none [] program.items) (.start tokens calls) c := by
    rw [Settles, hreads.rest_eq_nil _ _ rfl]
    simp [nesting, Cursor.start, Reading.owed, hbrackets]
  -- The items of the program are also those in front of the brace, wherever the tokens stand.
  obtain ⟨nodes, d, hnodes, hd, hitems⟩ := (hreads.enclosed hsettles).recurs
    ⟨tokens' ++ [⟨.symbol, "\x7d", brace⟩, ⟨.symbol, "\\", fold⟩], fold, calls⟩
    ⟨htokens.append (.cons _ _ _ _ (.cons _ _ _ _ (.refl []))), rfl⟩ [] .nil
  obtain ⟨fold', behind, finish, rfl, hbehind⟩ := hd.exists_cons
  obtain rfl := hbehind.eq_nil
  have hstart : Cursor.start (wrapped first brace fold tokens') calls =
      ⟨wrapped first brace fold tokens', fold, calls⟩ := by
    rw [Cursor.start, wrapped, ← List.cons_append, List.getLast?_append]
    rfl
  have hwrapped := parse_of_reads (hstart ▸ hitems.mapped first)
  refine ⟨_, hwrapped.trans (by rw [hcalls]), ?_⟩
  obtain ⟨items, position⟩ := program
  simp [Program.mapped, Node.implicit, hnodes]

/-! ## Trees that map over the input -/

/-- Behind a left operand there are no operators, or the tree is one of an operator behind it. -/
theorem Reads.operators_node {reading : Reading} {c c' : Cursor} (h : Reads reading c c') :
    ∀ left bound force node, reading = .operators left bound force node →
      node = left ∧ c' = c ∨ node.isFollower = true := by
  induction h with
  | stop _ =>
      rintro left bound force node ⟨⟩
      exact .inl ⟨rfl, rfl⟩
  | dot _ _ _ _ _ ih | zipWith _ _ _ _ _ _ _ ih | binary _ _ _ _ _ _ ih | trailing _ _ _ ih
  | base _ _ _ _ _ ih =>
      rintro left bound force node ⟨⟩
      rcases ih _ _ _ _ rfl with ⟨rfl, -⟩ | hnode
      · exact .inr rfl
      · exact .inr hnode
  | _ =>
      rintro left bound force node heq
      cases heq

/-- The items cannot become a single one that maps over the input any more.  The first one stays: a
fold takes it neither as its map, which is a block, nor as its combinator. -/
def Missed (siblings : List Sibling) : Prop :=
  ∃ newer first, siblings = newer ++ [first] ∧ first.start.head?.any isBinary = false ∧
    (newer = [] → first.node.isBlock = false ∧ first.node.takesInput = false)

theorem Missed.cons {siblings : List Sibling} (h : Missed siblings) (sibling : Sibling) :
    Missed (sibling :: siblings) := by
  obtain ⟨newer, first, rfl, hbinary, -⟩ := h
  exact ⟨sibling :: newer, first, rfl, hbinary, nofun⟩

/-- A fold leaves the first item where it is, whatever it takes from those behind it. -/
theorem Missed.fold {start start₁ start₂ : List Token} {siblings siblings₁ siblings₂ : List Sibling}
    {map : Option Block} {tokens : Option (List Token)} (h : Missed siblings)
    (hmap : takeMap start siblings = (map, start₁, siblings₁))
    (hcombinator : takeCombinator start₁ siblings₁ = (tokens, start₂, siblings₂))
    (sibling : Sibling) : Missed (sibling :: siblings₂) := by
  obtain ⟨newer, first, rfl, hbinary, hfirst⟩ := h
  obtain ⟨newer₂, rfl⟩ := exists_of_taken hbinary (fun hnil => (hfirst hnil).1) hmap hcombinator
  exact ⟨sibling :: newer₂, first, rfl, hbinary, nofun⟩

/-- An operator that takes an item as its left operand makes it a tree of its own. -/
theorem Reads.isFollower_adopt {left node : Node} {token : Token} {precedence : Nat}
    {rest : List Token} {finish : Position} {calls : CallTable} {c : Cursor}
    (hop : adoptingPrecedence? token = some precedence)
    (h : Reads (.operators left .lowest true node) ⟨token :: rest, finish, calls⟩ c) :
    node.isFollower = true := by
  rcases h.operators_node _ _ _ _ rfl with ⟨rfl, rfl⟩ | hnode
  · obtain ⟨o, ho⟩ := exists_follower?_of_adopting hop
    rcases h.operators_cases with ⟨-, hstops⟩ | ⟨_, _, heq, hsuffix⟩
    · exact absurd (hstops _ rfl o ho) (by simp)
    · have hlength := hsuffix.length_le
      rw [← (List.cons.inj heq).2] at hlength
      simp at hlength
  · exact hnode

theorem missed_single {sibling : Sibling} (hstart : sibling.start.head?.any isBinary = false)
    (hblock : sibling.node.isBlock = false) (hinput : sibling.node.takesInput = false) :
    Missed [sibling] :=
  ⟨[], sibling, rfl, hstart, fun _ => ⟨hblock, hinput⟩⟩

/-- An item that an operator takes as its left operand is missed. -/
theorem missed_of_isFollower {sibling : Sibling}
    (hstart : sibling.start.head?.any isBinary = false) (h : sibling.node.isFollower = true) :
    Missed [sibling] :=
  missed_single hstart (Node.isBlock_of_isFollower h) (Node.takesInput_of_isFollower h)

theorem Missed.item {token : Token} {siblings after : List Sibling} {c c' : Cursor}
    (hmissed : Missed siblings) (h : Reads (.item token siblings after) c c') : Missed after := by
  cases h with
  | fresh _ _ _ _ => exact hmissed.cons _
  | adopt _ hop _ hread =>
      obtain ⟨newer, first, heq, hbinary, -⟩ := hmissed
      have hnode := hread.isFollower_adopt hop
      cases newer with
      | nil =>
          obtain ⟨rfl, rfl⟩ := List.cons.inj heq
          exact missed_of_isFollower hbinary hnode
      | cons _ newer =>
          obtain ⟨rfl, rfl⟩ := List.cons.inj heq
          exact ⟨_ :: newer, first, rfl, hbinary, nofun⟩
  | fold _ hmap hcombinator _ _ => exact hmissed.fold hmap hcombinator _
  | foldWith _ hmap hcombinator _ _ _ => exact hmissed.fold hmap hcombinator _

/-- What is missed stays missed up to the end. -/
theorem Reads.takesInput_of_missed {reading : Reading} {c c' : Cursor} (h : Reads reading c c') :
    ∀ siblings node, reading = .items none siblings [node] → Missed siblings →
      node.takesInput = false := by
  induction h with
  | done =>
      rintro siblings node heq ⟨newer, first, rfl, -, hfirst⟩
      obtain ⟨-, rfl, hnodes⟩ := Reading.items.inj heq
      rw [List.map_append, List.reverse_append] at hnodes
      obtain ⟨rfl, hnewer⟩ := List.cons.inj hnodes
      exact (hfirst (by simpa using hnewer)).2
  | comma _ _ _ ih =>
      rintro siblings node ⟨⟩ hmissed
      exact ih _ _ rfl hmissed
  | next _ _ hitem _ _ ih =>
      rintro siblings node ⟨⟩ hmissed
      exact ih _ _ rfl (hmissed.item hitem)
  | _ =>
      rintro siblings node heq
      cases heq

/-- A variable has no brackets. -/
theorem Reads.nesting_var {bound : Bound} {place : Place} {name : String} {position : Position}
    {c c' : Cursor} (h : Reads (.expression bound place (.var name position)) c c') :
    nesting c'.rest = nesting c.rest := by
  cases h with
  | closed hoperand => cases hoperand
  | primary hoperand hoperators =>
      rcases hoperators.operators_node _ _ _ _ rfl with ⟨rfl, rfl⟩ | hnode
      · cases hoperand
        exact (nesting_name _ _ _).symm
      · cases hnode
  | implicit hoperand hoperators =>
      rcases hoperators.operators_node _ _ _ _ rfl with ⟨rfl, rfl⟩ | hnode
      · cases hoperand <;> rfl
      · cases hnode

/-- An item behind the only one is missed, or it maps that one over the input and has no
brackets. -/
theorem Reads.item_single {token : Token} {sibling : Sibling} {after : List Sibling}
    {rest : List Token} {finish : Position} {calls : CallTable} {c : Cursor}
    (h : Reads (.item token [sibling] after) ⟨token :: rest, finish, calls⟩ c)
    (hstart : sibling.start.head?.any isBinary = false) :
    Missed after ∨ ∃ node stop, after = [⟨node, sibling.start, stop⟩] ∧
      nesting c.rest = nesting (token :: rest) := by
  cases h with
  | fresh _ _ _ _ => exact .inl ⟨[_], sibling, rfl, hstart, nofun⟩
  | adopt _ hop _ hread =>
      exact .inl (missed_of_isFollower hstart (hread.isFollower_adopt hop))
  -- A fold without a combinator is the only case that is not missed: it has to take the block, end
  -- behind its operand, and have all of the input as its operand.
  | @fold _ _ _ _ _ _ _ arg _ _ _ _ _ _ hfold hmap hcombinator harg hoperators =>
      rcases takeMap_cases hmap with ⟨-, -, rfl⟩ | ⟨block, stop, rfl, htaken⟩
      · rcases takeCombinator_cases hcombinator with ⟨-, -, rfl⟩ | ⟨_, hsome, -⟩
        · exact .inl ⟨[_], sibling, rfl, hstart, nofun⟩
        · cases hsome
      · obtain ⟨rfl, rfl⟩ := List.cons.inj htaken
        obtain ⟨-, rfl, rfl⟩ | ⟨_, hsome, -⟩ := takeCombinator_cases hcombinator
        · rcases hoperators.operators_node _ _ _ _ rfl with ⟨rfl, rfl⟩ | hnode
          · cases hinput : arg.isImplicit with
            | false => exact .inl (missed_single hstart rfl hinput)
            | true =>
                cases arg with
                | var name position =>
                    refine .inr ⟨_, _, rfl, ?_⟩
                    rw [harg.nesting_var, nesting_of_isSymbol hfold (by decide) (by decide)]
                | _ => cases hinput
          · exact .inl (missed_of_isFollower hstart hnode)
        · cases hsome
  | foldWith _ hmap hcombinator _ _ _ =>
      -- The only item is the map and leaves no combinator, or it starts with no operator.
      rcases takeMap_cases hmap with ⟨-, -, rfl⟩ | ⟨block, stop, rfl, htaken⟩
      · rcases takeCombinator_cases hcombinator with ⟨hnone, -⟩ | ⟨taken, -, -, htaken, hop⟩
        · cases hnone
        · obtain ⟨rfl, -⟩ := List.cons.inj htaken
          rw [hstart] at hop
          cases hop
      · obtain ⟨-, rfl⟩ := List.cons.inj htaken
        cases hcombinator

/-- Behind an item that is to be the only one and to map over the input there are no brackets. -/
theorem Reads.nesting_of_single {reading : Reading} {c c' : Cursor} (h : Reads reading c c') :
    ∀ sibling node, reading = .items none [sibling] [node] → node.takesInput = true →
      sibling.start.head?.any isBinary = false → nesting c.rest = 0 := by
  induction h with
  | done => exact fun _ _ _ _ _ => rfl
  | comma _ hcomma _ ih =>
      rintro sibling node ⟨⟩ hinput hstart
      rw [nesting_of_isSymbol hcomma (by decide) (by decide)]
      exact ih _ _ rfl hinput hstart
  | next _ _ hitem hrest _ ih =>
      rintro sibling node ⟨⟩ hinput hstart
      rcases hitem.item_single hstart with hmissed | ⟨made, stop, rfl, hnesting⟩
      · rw [hrest.takesInput_of_missed _ _ rfl hmissed] at hinput
        cases hinput
      · rw [← hnesting]
        exact ih _ _ rfl hinput hstart
  | _ =>
      rintro sibling node heq
      cases heq

/-- A program that starts with a brace and maps over the input closes all brackets. -/
theorem Reads.nesting_eq_zero {node : Node} {first : Position} {rest : List Token}
    {finish : Position} {calls : CallTable} {c : Cursor}
    (h : Reads (.items none [] [node]) ⟨⟨.symbol, "\x7b", first⟩ :: rest, finish, calls⟩ c)
    (hinput : node.takesInput = true) : nesting (⟨.symbol, "\x7b", first⟩ :: rest) = 0 := by
  obtain ⟨made, c₁, hread, hrest⟩ := h.exists_first rfl rfl rfl
  cases hread with
  | primary hoperand _ | implicit hoperand _ =>
      obtain ⟨_, hstart, -⟩ := hoperand.operand_bracket (b := .curly) rfl
      cases hstart
  | closed hoperand =>
      obtain ⟨nodes, hstart, hbody, -⟩ := hoperand.operand_bracket (b := .curly) rfl
      cases hstart
      -- If the block ended with the tokens, it would be all of the program.
      have hbehind : c₁.rest ≠ [] := by
        intro hnil
        obtain ⟨rfl, -⟩ := List.cons.inj (hrest.items_nil hnil).1
        cases hinput
      have hsettles := hbody.settles (Bracket.upToBracket _ _ _) hbehind
      have hzero := hrest.nesting_of_single _ _ rfl hinput rfl
      rw [nesting_brace]
      exact hsettles.symm.trans hzero

end Grammar

/-! ## Wrapping -/

theorem Node.takesInput_unplaced (node : Node) : node.unplaced.takesInput = node.takesInput := by
  cases node with
  | leading op arg extra position => cases arg <;> rfl
  | _ => rfl

theorem Program.exists_of_mapped {program program' : Program}
    (h : program'.unplaced = program.mapped) :
    ∃ node, program'.items = [node] ∧ node.takesInput = true := by
  obtain ⟨items, position⟩ := program'
  rw [Program.unplaced_mk, mapped, Program.mk.injEq] at h
  obtain ⟨node, rfl, hnode⟩ := List.map_eq_singleton_iff.1 h.1
  exact ⟨node, rfl, node.takesInput_unplaced ▸ hnode ▸ rfl⟩

theorem programText_wrap {source : String} (h : Packing.isPacked source = false) :
    Run.programText source true = "\x7b" ++ source ++ "\x7d\\" := by
  rw [Run.programText, h]
  rfl

section Wrapping

variable {source : String} {tokens : List Token} {calls : CallTable} {program : Program}

/-- A program whose text does not run into what is put behind it is mapped over the input. -/
theorem exists_mapped (hpacked : Packing.isPacked source = false)
    (htokens : tokenize source = .ok tokens) (hparse : (parse tokens calls).1 = .ok program)
    (hopen : Lexeme.endsOpen 0 source.toList = false)
    (hbrackets : tokens.countP Grammar.isOpener = tokens.countP Grammar.isCloser) :
    ∃ tokens' program', tokenize (Run.programText source true) = .ok tokens' ∧
      (parse tokens' calls).1 = .ok program' ∧ program'.unplaced = program.unplaced.mapped := by
  obtain ⟨first, brace, fold, tokens', hwrapped, hspelled⟩ :=
    Lexeme.tokenize_wrapped htokens hopen
  obtain ⟨program', hmapped, hprogram⟩ :=
    Grammar.parse_mapped hparse hbrackets hspelled first brace fold
  refine ⟨_, program', ?_, congrArg Prod.fst hmapped, hprogram⟩
  rw [programText_wrap hpacked]
  exact hwrapped

/-- A program that is mapped over the input ends neither in an open lexeme nor in an open bracket:
the wrapped text closes all brackets, and it has one more to close than the program. -/
theorem closed_of_mapped (hpacked : Packing.isPacked source = false)
    (htokens : tokenize source = .ok tokens) (hparse : (parse tokens calls).1 = .ok program)
    {tokens' : List Token} {program' target : Program}
    (hwrapped : tokenize (Run.programText source true) = .ok tokens')
    (hparse' : (parse tokens' calls).1 = .ok program')
    (hmapped : program'.unplaced = target.mapped) :
    Lexeme.endsOpen 0 source.toList = false ∧
      tokens.countP Grammar.isOpener = tokens.countP Grammar.isCloser := by
  rw [programText_wrap hpacked] at hwrapped
  obtain ⟨hbrace, hnesting⟩ := Lexeme.nesting_tokenize htokens hwrapped
  obtain ⟨first, rest, rfl⟩ := Token.exists_of_head_isSymbol hbrace
  obtain ⟨c, hreads, -⟩ := Grammar.reads_of_parse hparse
  obtain ⟨c', hreads', -⟩ := Grammar.reads_of_parse hparse'
  obtain ⟨node, hitems, hnode⟩ := Program.exists_of_mapped hmapped
  rw [hitems] at hreads'
  have hzero := hreads'.nesting_eq_zero hnode
  have hle := hreads.nesting_le
  rw [hreads.rest_eq_nil _ _ rfl] at hle
  have hle : 0 ≤ Grammar.nesting tokens + 0 := hle
  rw [hnesting] at hzero
  unfold Grammar.nesting at hzero hle
  -- With an open lexeme the new brace is lost, and the one in front remains open.
  cases hopen : Lexeme.endsOpen 0 source.toList with
  | true =>
      rw [hopen, if_pos rfl] at hzero
      omega
  | false =>
      rw [hopen, if_neg Bool.false_ne_true] at hzero
      exact ⟨rfl, by omega⟩

/-- Wrapping a program maps it over the input exactly if the end of its text does not run into what
is put behind it: the last lexeme does not go on with a brace, and as many brackets are closed as
are opened.  The wrapped text is then that of a fold without a combinator, of all of the input, with
the program as its map. -/
theorem parse_wrapped_iff (hpacked : Packing.isPacked source = false)
    (htokens : tokenize source = .ok tokens) (hparse : (parse tokens calls).1 = .ok program) :
    (∃ tokens' program', tokenize (Run.programText source true) = .ok tokens' ∧
        (parse tokens' calls).1 = .ok program' ∧
        program'.unplaced = program.unplaced.mapped) ↔
      Lexeme.endsOpen 0 source.toList = false ∧
        tokens.countP Grammar.isOpener = tokens.countP Grammar.isCloser := by
  constructor
  · rintro ⟨tokens', program', hwrapped, hparse', hmapped⟩
    exact closed_of_mapped hpacked htokens hparse hwrapped hparse' hmapped
  · rintro ⟨hopen, hbrackets⟩
    exact exists_mapped hpacked htokens hparse hopen hbrackets

end Wrapping

namespace Doubling

/-- A source text with a definition, a filter, a fold with a combinator and a text that holds a
brace. -/
def source : String := "f(a):=a*2,$\x7b_>1\x7d[f _ (3)],+\\[1 2],\"\x7d:\".."

def tokens : List Token := (tokenize source).toOption.getD []

theorem reads_source : Builtin.reads source (fun tokens _ =>
    !Lexeme.endsOpen 0 source.toList &&
      tokens.countP Grammar.isOpener == tokens.countP Grammar.isCloser) = true := by
  decide +kernel

/-- The source text is mapped over the input. -/
theorem exists_mapped_source :
    ∃ program tokens' program', tokenize source = .ok tokens ∧
      (parse tokens Builtin.calls).1 = .ok program ∧
      tokenize (Run.programText source true) = .ok tokens' ∧
      (parse tokens' Builtin.calls).1 = .ok program' ∧
      program'.unplaced = program.unplaced.mapped := by
  have hprintable : Packing.Printable source := by decide
  obtain ⟨read, program, htokens, hparse, hclosed⟩ := Builtin.exists_of_reads reads_source
  obtain rfl : tokens = read := by rw [tokens, htokens]; rfl
  obtain ⟨hopen, hbrackets⟩ := Bool.and_eq_true_iff.1 hclosed
  obtain ⟨tokens', program', hwrapped⟩ :=
    (parse_wrapped_iff (Packing.not_isPacked hprintable) htokens hparse).2
      ⟨by simpa using hopen, eq_of_beq hbrackets⟩
  exact ⟨program, tokens', program', htokens, hparse, hwrapped⟩

end Doubling

/-- Source texts whose end runs into what is put behind them: a quoted text is not closed, a bracket
is left open, the last character makes a symbol with a brace. -/
def openTexts : List String := ["\"ab", "(1", "a:"]

theorem reads_openTexts : ∀ source ∈ openTexts, Builtin.reads source (fun tokens _ =>
    Lexeme.endsOpen 0 source.toList ||
      tokens.countP Grammar.isOpener != tokens.countP Grammar.isCloser) = true := by
  decide +kernel

/-- The open source texts are those of programs, but wrapping does not map these over the input. -/
theorem not_mapped_openTexts : ¬ ∃ source ∈ openTexts,
    ∀ tokens program, Packing.isPacked source = false → tokenize source = .ok tokens →
      (parse tokens Builtin.calls).1 = .ok program →
      ∃ tokens' program', tokenize (Run.programText source true) = .ok tokens' ∧
        (parse tokens' Builtin.calls).1 = .ok program' ∧
        program'.unplaced = program.unplaced.mapped := by
  rintro ⟨source, hsource, hmapped⟩
  have hprintable : ∀ source ∈ openTexts, Packing.Printable source := by decide
  have hpacked := Packing.not_isPacked (hprintable source hsource)
  obtain ⟨tokens, program, htokens, hparse, hopen⟩ :=
    Builtin.exists_of_reads (reads_openTexts source hsource)
  obtain ⟨tokens', program', hwrapped, hparse', hprogram⟩ :=
    hmapped tokens program hpacked htokens hparse
  obtain ⟨hends, hbrackets⟩ := closed_of_mapped hpacked htokens hparse hwrapped hparse' hprogram
  simp [hends, hbrackets] at hopen

end Terse
