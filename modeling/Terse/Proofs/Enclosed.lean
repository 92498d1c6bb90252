import Terse.Proofs.Nesting

/-!
# Tokens behind others

What a rule reads depends on the tokens that it reads and on where they end.  With other tokens
behind them the same is read if the rule does not notice these (`Leaves`): it closes all that it
opens, and it does not come to the end of its own tokens, but for a bracket that it closes there, or
a closing bracket now ends what the end of the tokens ended.  `Reads.followed` is the statement.

A program that leaves no bracket open is an instance: what is read from its tokens is also read with
a brace and a fold behind them, since the brace stands where the tokens ended (`Reads.enclosed`).

## Strategy

The statement is shown by induction on the derivation.  Two things stand in the way.

* Rules look ahead.  Whether a name starts a block, a definition, a call or a variable, whether an
  argument is left out, and whether the operators stop depends on the next token, and where there is
  none a token from behind comes into view.  `StandsAtEnd` says that it is a closing bracket, and
  the lemmas `opensBlock_followed`, `startsDefinition_followed`, `all_isCloser_followed` and
  `Stops.followed` say that this bracket is seen as the end was.  Only the head of a definition is
  looked for beyond the next token; `Trails` excludes that one is completed from behind.
* A bracket that was open at the end of the tokens is closed by the tokens behind.  So a rule has to
  close all that it opens.  It is enough to know this of the whole rule (`Settles`): as a part of it
  can close no bracket that it did not open, each part closes its own (`Leaves.split`).

`Undisturbed` is the induction hypothesis, with one lemma for each rule.  It also keeps the
derivation itself, since the numbers of brackets of its parts are needed.

Items that no bracket closes are not covered, because they go on behind the end of the tokens.  For
the items of a whole program this is what is wanted, and `Reads.enclosed_items` treats it on its
own: the brace closes what was read to the end.
-/

namespace Terse.Grammar

/-! ## Tokens behind others -/

/-- Tokens that the rules do not look at when they stand behind others: they do not start with a
binary operator, and a name among the others is not made the head of a definition by them. -/
structure Trails (behind tokens : List Token) : Prop where
  binary : behind.head?.any isBinary = false
  definition : ∀ rest, rest <:+ tokens → rest ≠ [] →
    startsDefinition (rest ++ behind) = startsDefinition rest

theorem Trails.of_suffix {behind tokens tokens' : List Token} (h : Trails behind tokens)
    (hsuffix : tokens' <:+ tokens) : Trails behind tokens' :=
  ⟨h.binary, fun rest hrest => h.definition rest (hrest.trans hsuffix)⟩

/-- Tokens that end the same rules as the end of the tokens did: a closing bracket stands in its
place. -/
def StandsAtEnd (finish : Position) (behind : List Token) : Prop :=
  ∃ token rest, behind = token :: rest ∧ isCloser token = true ∧ token.position = finish

theorem text_of_isCloser {token : Token} (h : isCloser token = true) :
    token.kind = .symbol ∧ (token.text = ")" ∨ token.text = "]" ∨ token.text = "\x7d") := by
  simp only [isCloser, Token.isSymbol, Bool.or_eq_true, Bool.and_eq_true, beq_iff_eq] at h
  tauto

section AtEnd

variable {behind rest : List Token} {finish : Position}

theorem any_isBinary_followed (h : behind.head?.any isBinary = false) (rest : List Token) :
    (rest ++ behind).head?.any isBinary = rest.head?.any isBinary := by
  cases rest with
  | nil => exact h
  | cons token rest => rfl

theorem opensBlock_followed {place : Place} (hend : rest = [] → StandsAtEnd finish behind)
    (h : opensBlock place rest = false) : opensBlock place (rest ++ behind) = false := by
  cases rest with
  | nil =>
      obtain ⟨token, others, rfl, hcloser, -⟩ := hend rfl
      obtain ⟨-, htext | htext | htext⟩ := text_of_isCloser hcloser <;>
        simp [opensBlock, Token.isSymbol, htext]
  | cons token rest => exact h

theorem startsDefinition_followed {tokens : List Token} (htrails : Trails behind tokens)
    (hsuffix : rest <:+ tokens) (hend : rest = [] → StandsAtEnd finish behind)
    (h : startsDefinition rest = false) : startsDefinition (rest ++ behind) = false := by
  cases rest with
  | nil =>
      obtain ⟨token, others, rfl, hcloser, -⟩ := hend rfl
      obtain ⟨-, htext | htext | htext⟩ := text_of_isCloser hcloser <;>
        simp [startsDefinition, Token.isSymbol, htext]
  | cons token rest => rw [htrails.definition _ hsuffix (List.cons_ne_nil _ _), h]

theorem all_isCloser_followed {b : Bool} (hend : rest = [] → StandsAtEnd finish behind)
    (h : rest.head?.all isCloser = b) : (rest ++ behind).head?.all isCloser = b := by
  cases rest with
  | nil =>
      obtain ⟨token, others, rfl, hcloser, -⟩ := hend rfl
      exact hcloser.trans h
  | cons token rest => exact h

theorem Stops.followed {bound : Bound} {force : Bool}
    (hend : rest = [] → StandsAtEnd finish behind) (h : Stops bound force rest) :
    Stops bound force (rest ++ behind) := by
  cases rest with
  | nil =>
      obtain ⟨token, others, rfl, hcloser, -⟩ := hend rfl
      rintro _ ⟨⟩ o ho
      obtain ⟨hkind, htext⟩ := text_of_isCloser hcloser
      have hnone : token.follower? = none := by
        rw [Token.follower?, if_pos hkind]
        rcases htext with htext | htext | htext <;> rw [htext] <;> rfl
      rw [hnone] at ho
      cases ho
  | cons token rest => exact h

end AtEnd

/-! ## Cursors and items with tokens behind -/

/-- A cursor with tokens behind its own, and another place that stands for the end. -/
def Cursor.followed (behind : List Token) (finish : Position) (c : Cursor) : Cursor :=
  ⟨c.rest ++ behind, finish, c.calls⟩

/-- An item with tokens behind those that it was read from. -/
def Sibling.followed (behind : List Token) (s : Sibling) : Sibling :=
  ⟨s.node, s.start ++ behind, s.stop ++ behind⟩

section Followed

variable {behind : List Token} {finish : Position}

theorem Cursor.followed_append (token : Token) (front rest : List Token) (finish' : Position)
    (calls : CallTable) :
    Cursor.followed behind finish ⟨token :: (front ++ rest), finish', calls⟩ =
      ⟨token :: (front ++ (rest ++ behind)), finish, calls⟩ := by
  rw [Cursor.followed, List.cons_append, List.append_assoc]

theorem Cursor.position_followed {c : Cursor} (hend : c.rest = [] → StandsAtEnd c.finish behind) :
    (c.followed behind finish).position = c.position := by
  obtain ⟨rest, finish', calls⟩ := c
  cases rest with
  | nil =>
      obtain ⟨token, others, rfl, -, hposition⟩ := hend rfl
      exact hposition
  | cons token rest => rfl

theorem Sibling.tokens_followed (behind : List Token) (s : Sibling) :
    (s.followed behind).tokens = s.tokens := by
  have hlength : (s.start ++ behind).length - (s.stop ++ behind).length =
      s.start.length - s.stop.length := by
    rw [List.length_append, List.length_append]
    omega
  simp only [Sibling.tokens, Sibling.followed, hlength]
  exact List.take_append_of_le_length (Nat.sub_le _ _)

theorem map_node_followed (behind : List Token) (siblings : List Sibling) :
    (siblings.map (Sibling.followed behind)).map (·.node) = siblings.map (·.node) := by
  rw [List.map_map]
  rfl

theorem StandsAlone.followed {token : Token} {siblings : List Sibling}
    (h : StandsAlone token siblings) (behind : List Token) :
    StandsAlone token (siblings.map (Sibling.followed behind)) := by
  cases siblings with
  | nil => exact h
  | cons previous others =>
      rintro precedence hprecedence _ ⟨⟩
      exact h precedence hprecedence previous rfl

theorem takeMap_followed {start start₁ : List Token} {siblings siblings₁ : List Sibling}
    {map : Option Block} (h : takeMap start siblings = (map, start₁, siblings₁))
    (behind : List Token) :
    takeMap (start ++ behind) (siblings.map (Sibling.followed behind)) =
      (map, start₁ ++ behind, siblings₁.map (Sibling.followed behind)) := by
  cases siblings with
  | nil =>
      cases h
      rfl
  | cons previous others =>
      obtain ⟨node, first, stop⟩ := previous
      -- Whether the item before is a block does not depend on the tokens behind.
      cases node <;>
        · cases h
          rfl

theorem takeCombinator_followed {start start₁ : List Token} {siblings siblings₁ : List Sibling}
    {tokens : Option (List Token)}
    (h : takeCombinator start siblings = (tokens, start₁, siblings₁))
    (hbehind : behind.head?.any isBinary = false) :
    takeCombinator (start ++ behind) (siblings.map (Sibling.followed behind)) =
      (tokens, start₁ ++ behind, siblings₁.map (Sibling.followed behind)) := by
  cases siblings with
  | nil =>
      cases h
      rfl
  | cons previous others =>
      have hbinary : (previous.followed behind).start.head?.any isBinary =
        previous.start.head?.any isBinary := any_isBinary_followed hbehind _
      have htokens := previous.tokens_followed behind
      simp only [takeCombinator, List.map_cons, htokens, hbinary] at h ⊢
      split at h
      · cases h
        exact if_pos ‹_›
      · cases h
        exact if_neg ‹_›

end Followed

/-! ## Derivations with tokens behind -/

/-- A rule does not notice what stands behind the tokens: it closes all that it opens, and it ends
in front of a token, or with a closing bracket, or the tokens behind end it as the end did. -/
structure Leaves (behind : List Token) (reading : Reading) (c c' : Cursor) : Prop where
  trails : Trails behind c.rest
  settles : Settles reading c c'
  ends : c'.rest ≠ [] ∨ reading.owed = 1 ∨ StandsAtEnd c.finish behind

namespace Leaves

variable {behind : List Token} {reading first next : Reading} {c c₀ c₁ c₂ : Cursor}

/-- Tokens that are left in front of a rule that reads no closing bracket. -/
theorem atEnd (h : Leaves behind reading c c₁) (howed : reading.owed = 0) {rest : List Token}
    (hrest : c₁.rest <:+ rest) (hnil : rest = []) : StandsAtEnd c.finish behind := by
  rcases h.ends with hne | howed' | hend
  · exact absurd (List.suffix_nil.1 (hnil ▸ hrest)) hne
  · omega
  · exact hend

/-- There is a token where items are read up to a bracket that closes. -/
theorem rest_ne_nil (h : Leaves behind reading c c₁) (hread : Reads reading c c₁)
    (howed : reading.owed = 1) : c.rest ≠ [] := by
  intro hnil
  have hsettles := h.settles
  have hsuffix := hread.suffix
  rw [hnil, List.suffix_nil] at hsuffix
  rw [Settles, hnil, hsuffix, howed] at hsettles
  omega

/-- What holds of a rule holds of the last one that it uses. -/
theorem last (h : Leaves behind reading c c₁) (_ : Reads next c₀ c₁) (hsuffix : c₀.rest <:+ c.rest)
    (hfinish : c₀.finish = c.finish)
    (hstart : nesting c.rest + reading.owed = nesting c₀.rest + next.owed)
    (howed : reading.owed = 0 ∨ next.owed = 1) : Leaves behind next c₀ c₁ := by
  refine ⟨h.trails.of_suffix hsuffix, h.settles.behind hstart, ?_⟩
  rw [hfinish]
  exact h.ends.imp_right (Or.imp_left fun hone => howed.resolve_left (by omega))

/-- There is a token behind an opening bracket. -/
theorem position_body (h : Leaves behind reading c c₁) (hread : Reads reading c c₁)
    (howed : reading.owed = 1) (finish : Position) :
    (c.followed behind finish).position = c.position :=
  Cursor.position_followed fun hnil => absurd hnil (h.rest_ne_nil hread howed)

/-- Of two rules in a row, the first one ends in front of a token if the second one reads up to a
closing bracket. -/
theorem split (h : Leaves behind reading c c₂) (hfirst : Reads first c₀ c₁)
    (hnext : Reads next c₁ c₂) (hsuffix : c₀.rest <:+ c.rest) (hfinish : c₀.finish = c.finish)
    (hstart : nesting c.rest + reading.owed = nesting c₀.rest + first.owed + next.owed)
    (howed : reading.owed = 0 ∨ next.owed = 1) :
    Leaves behind first c₀ c₁ ∧ Leaves behind next c₁ c₂ := by
  obtain ⟨hsettles, hsettles'⟩ := h.settles.split hfirst hnext hstart
  have hlast : Leaves behind next c₁ c₂ := by
    refine ⟨h.trails.of_suffix (hfirst.suffix.trans hsuffix), hsettles', ?_⟩
    rw [hfirst.finish_eq, hfinish]
    exact h.ends.imp_right (Or.imp_left fun hone => howed.resolve_left (by omega))
  refine ⟨⟨h.trails.of_suffix hsuffix, hsettles, ?_⟩, hlast⟩
  -- The rule that follows has a token in front of it in each case but the last.
  rcases h.ends with hne | howed' | hend
  · exact .inl (hnext.rest_ne_nil hne)
  · exact .inl (hlast.rest_ne_nil hnext (howed.resolve_left (by omega)))
  · exact .inr (.inr (hfinish ▸ hend))

end Leaves

/-- What a rule reads with tokens behind those that it read.  Nothing is said about items that no
bracket closes.  An operand that starts an item is only read where there is a token. -/
def Reading.Followed (behind : List Token) (finish : Position) (c c' : Cursor) : Reading → Prop
  | .items none _ _ => True
  | .items (some closer) siblings nodes =>
      Reads (.items (some closer) (siblings.map (.followed behind)) nodes)
        (c.followed behind finish) (c'.followed behind finish)
  | .item token siblings after =>
      Reads (.item token (siblings.map (.followed behind)) (after.map (.followed behind)))
        (c.followed behind finish) (c'.followed behind finish)
  | .expression bound place node =>
      place ≠ .item ∨ c.rest ≠ [] →
        Reads (.expression bound place node) (c.followed behind finish)
          (c'.followed behind finish)
  | .operand place start =>
      place ≠ .item ∨ c.rest ≠ [] →
        Reads (.operand place start) (c.followed behind finish) (c'.followed behind finish)
  | reading => Reads reading (c.followed behind finish) (c'.followed behind finish)

/-- A combinator is read from tokens of its own, whatever stands behind the fold. -/
theorem Reads.combinator_followed {tokens : List Token} {position : Position} {made : Combinator}
    {c c' : Cursor} (h : Reads (.combinator tokens position made) c c') (behind : List Token)
    (finish : Position) :
    Reads (.combinator tokens position made) (c.followed behind finish)
      (c'.followed behind finish) := by
  cases h with
  | combinator hread =>
      have hcombinator := @Reads.combinator _ _ _ (c.followed behind finish) _ hread
      exact hcombinator

/-- A rule reads something, and reads the same with other tokens behind that it does not notice. -/
structure Undisturbed (behind : List Token) (finish : Position) (reading : Reading)
    (c c' : Cursor) : Prop where
  reads : Reads reading c c'
  followed : Leaves behind reading c c' → reading.Followed behind finish c c'

/-! A rule that uses others leaves the tokens behind to the last of them.  The rules before it end
in front of a token, or the tokens behind end them as the end did (`Leaves.split`); with this, the
rule finds the same in front of it as before.  There is one lemma for each such rule. -/

namespace Undisturbed

variable {behind : List Token} {finish : Position} {place : Place} {bound : Bound} {force : Bool}
  {name : String} {token : Token} {position position₁ finish' : Position}
  {rest tokens start₁ start₂ : List Token} {calls : CallTable} {nodes args : List Node}
  {arg body first left right node : Node} {siblings siblings₁ siblings₂ : List Sibling}
  {map : Option Block} {combinator : Combinator} {count : Nat} {c c₁ c₂ c₃ : Cursor}

/-! ### Operands -/

theorem absent : Undisturbed behind finish (.operand place (.implicit (.implicit finish')))
    ⟨[], finish', calls⟩ ⟨[], finish', calls⟩ where
  reads := .absent
  followed := by
    intro hleaves hplace
    -- The closing bracket leaves the operand out, as the end of the tokens did.
    obtain ⟨token, others, rfl, hcloser, rfl⟩ := hleaves.atEnd rfl List.suffix_rfl rfl
    have hplace : place ≠ .item := hplace.resolve_right (absurd rfl)
    exact .standIn ⟨(text_of_isCloser hcloser).1, .inr (.inr (.inr ⟨hplace, .inl hcloser⟩))⟩

theorem var (hblock : opensBlock place rest = false) (hdefinition : startsDefinition rest = false)
    (hname : calls.find? name = none) :
    Undisturbed behind finish (.operand place (.primary (.var name position)))
      ⟨⟨.name, name, position⟩ :: rest, finish', calls⟩ ⟨rest, finish', calls⟩ where
  reads := .var hblock hdefinition hname
  followed := by
    intro hleaves _
    have hend := hleaves.atEnd rfl List.suffix_rfl
    have hdefinition' :=
      startsDefinition_followed hleaves.trails (List.suffix_cons _ _) hend hdefinition
    exact .var (opensBlock_followed hend hblock) hdefinition' hname

theorem call (hblock : opensBlock place rest = false) (hdefinition : startsDefinition rest = false)
    (hname : calls.find? name = some count)
    (hargs : Undisturbed behind finish (.arguments count args) ⟨rest, finish', calls⟩ c) :
    Undisturbed behind finish (.operand place (.primary (.call name args position)))
      ⟨⟨.name, name, position⟩ :: rest, finish', calls⟩ c where
  reads := .call hblock hdefinition hname hargs.reads
  followed := by
    intro hleaves _
    have hend := hleaves.atEnd rfl hargs.reads.suffix
    have hdefinition' :=
      startsDefinition_followed hleaves.trails (List.suffix_cons _ _) hend hdefinition
    have hlast := hleaves.last hargs.reads (List.suffix_cons _ _) rfl (by simp [Reading.owed])
      (.inl rfl)
    exact .call (opensBlock_followed hend hblock) hdefinition' hname (hargs.followed hlast)

theorem define {header : List Token} {params : List Param} (hheader : Header header params)
    (hbody : Undisturbed behind finish (.expression .lowest .operand body)
      ⟨rest, finish', calls.insert name params.length⟩ c) :
    Undisturbed behind finish (.operand place (.closed (.define name params body position)))
      ⟨⟨.name, name, position⟩ :: (header ++ rest), finish', calls⟩ c where
  reads := .define hheader hbody.reads
  followed := by
    intro hleaves _
    have hlast := hleaves.last hbody.reads
      ((List.suffix_append _ _).trans (List.suffix_cons _ _)) rfl
      (by simp [Reading.owed, nesting_header hheader]) (.inl rfl)
    rw [Cursor.followed_append]
    exact .define hheader (hbody.followed hlast (.inl (by decide)))

theorem namedBlock (hplace : place ≠ .right)
    (hbody : Undisturbed behind finish (.items (some "\x7d") [] nodes) ⟨rest, finish', calls⟩ c) :
    Undisturbed behind finish (.operand place (.closed (.block
        ⟨name, ⟨nodes, Cursor.position ⟨rest, finish', calls⟩⟩, position⟩)))
      ⟨⟨.name, name, position⟩ :: ⟨.symbol, "\x7b", position₁⟩ :: rest, finish', calls⟩ c where
  reads := .namedBlock hplace hbody.reads
  followed := by
    intro hleaves _
    have hlast := hleaves.last hbody.reads ((List.suffix_cons _ _).trans (List.suffix_cons _ _))
      rfl (by simp [Reading.owed]) (.inl rfl)
    -- The body starts at the same place, with a token or with the bracket that closes it.
    rw [← hlast.position_body hbody.reads rfl finish]
    exact .namedBlock hplace (hbody.followed hlast)

theorem block (hplace : place ≠ .right)
    (hbody : Undisturbed behind finish (.items (some "\x7d") [] nodes) ⟨rest, finish', calls⟩ c) :
    Undisturbed behind finish (.operand place (.closed (.block
        ⟨implicitName, ⟨nodes, Cursor.position ⟨rest, finish', calls⟩⟩, position⟩)))
      ⟨⟨.symbol, "\x7b", position⟩ :: rest, finish', calls⟩ c where
  reads := .block hplace hbody.reads
  followed := by
    intro hleaves _
    have hlast := hleaves.last hbody.reads (List.suffix_cons _ _) rfl (by simp [Reading.owed])
      (.inl rfl)
    rw [← hlast.position_body hbody.reads rfl finish]
    exact .block hplace (hbody.followed hlast)

theorem group
    (hbody : Undisturbed behind finish (.items (some ")") [] nodes) ⟨rest, finish', calls⟩ c) :
    Undisturbed behind finish (.operand place (.primary (.group
        ⟨nodes, Cursor.position ⟨rest, finish', calls⟩⟩ position)))
      ⟨⟨.symbol, "(", position⟩ :: rest, finish', calls⟩ c where
  reads := .group hbody.reads
  followed := by
    intro hleaves _
    have hlast := hleaves.last hbody.reads (List.suffix_cons _ _) rfl (by simp [Reading.owed])
      (.inl rfl)
    rw [← hlast.position_body hbody.reads rfl finish]
    exact .group (hbody.followed hlast)

theorem array
    (hbody : Undisturbed behind finish (.items (some "]") [] nodes) ⟨rest, finish', calls⟩ c)
    (hblocks : nodes.countP Node.isBlock ≤ 1) :
    Undisturbed behind finish (.operand place (.primary (.array
        ⟨nodes, Cursor.position ⟨rest, finish', calls⟩⟩ position)))
      ⟨⟨.symbol, "[", position⟩ :: rest, finish', calls⟩ c where
  reads := .array hbody.reads hblocks
  followed := by
    intro hleaves _
    have hlast := hleaves.last hbody.reads (List.suffix_cons _ _) rfl (by simp [Reading.owed])
      (.inl rfl)
    rw [← hlast.position_body hbody.reads rfl finish]
    exact .array (hbody.followed hlast) hblocks

theorem leading {op : LeadingOp} (hop : op.plain = true)
    (harg : Undisturbed behind finish (.expression (.level op.precedence) .operand arg)
      ⟨rest, finish', calls⟩ c) :
    Undisturbed behind finish (.operand place (.primary (.leading op arg .none position)))
      ⟨op.token position :: rest, finish', calls⟩ c where
  reads := .leading hop harg.reads
  followed := by
    intro hleaves _
    have hlast := hleaves.last harg.reads (List.suffix_cons _ _) rfl (by simp [Reading.owed])
      (.inl rfl)
    exact .leading hop (harg.followed hlast (.inl (by decide)))

theorem filter {op : LeadingOp} {param : String} {naming : List Token}
    (hop : op = .filter ∨ op = .any)
    (hnaming : naming = [] ∧ param = implicitName ∨
      ∃ namePosition, naming = [⟨.name, param, namePosition⟩])
    (hbody : Undisturbed behind finish (.items (some "\x7d") [] nodes) ⟨rest, finish', calls⟩ c₁)
    (harg : Undisturbed behind finish (.expression (.level op.precedence) .operand arg) c₁ c₂) :
    Undisturbed behind finish (.operand place (.primary (.leading op arg (.filter
        ⟨param, ⟨nodes, Cursor.position ⟨rest, finish', calls⟩⟩, position₁⟩) position)))
      ⟨op.token position :: (naming ++ ⟨.symbol, "\x7b", position₁⟩ :: rest), finish', calls⟩
      c₂ where
  reads := .filter hop hnaming hbody.reads harg.reads
  followed := by
    intro hleaves _
    obtain ⟨hfirst, hnext⟩ := hleaves.split hbody.reads harg.reads
      ((suffix_behind _ _ _).trans (List.suffix_cons _ _)) rfl
      (by simp [Reading.owed, nesting_naming hnaming]) (.inl rfl)
    rw [← hfirst.position_body hbody.reads rfl finish, Cursor.followed_append]
    exact .filter hop hnaming (hbody.followed hfirst) (harg.followed hnext (.inl (by decide)))

/-! ### Arguments and expressions -/

theorem missing (hboundary : c.rest.head?.all isCloser = true)
    (hrest : Undisturbed behind finish (.arguments count args) c c₁) :
    Undisturbed behind finish (.arguments (count + 1) (.implicit c.position :: args)) c c₁ where
  reads := .missing hboundary hrest.reads
  followed := by
    intro hleaves
    have hend := hleaves.atEnd rfl hrest.reads.suffix
    have hlast := hleaves.last hrest.reads List.suffix_rfl rfl rfl (.inl rfl)
    show Reads _ (c.followed behind finish) _
    rw [← @Cursor.position_followed behind finish c hend]
    exact .missing (all_isCloser_followed hend hboundary) (hrest.followed hlast)

theorem argument (hboundary : c.rest.head?.all isCloser = false)
    (harg : Undisturbed behind finish (.expression .highest .argument arg) c c₁)
    (hrest : Undisturbed behind finish (.arguments count args) c₁ c₂) :
    Undisturbed behind finish (.arguments (count + 1) (arg :: args)) c c₂ where
  reads := .argument hboundary harg.reads hrest.reads
  followed := by
    intro hleaves
    have hend := hleaves.atEnd rfl (hrest.reads.suffix.trans harg.reads.suffix)
    obtain ⟨hfirst, hnext⟩ := hleaves.split harg.reads hrest.reads List.suffix_rfl rfl
      (by simp [Reading.owed]) (.inl rfl)
    exact .argument (all_isCloser_followed hend hboundary)
      (harg.followed hfirst (.inl (by decide))) (hrest.followed hnext)

theorem closed (hoperand : Undisturbed behind finish (.operand place (.closed node)) c c₁) :
    Undisturbed behind finish (.expression bound place node) c c₁ where
  reads := .closed hoperand.reads
  followed := by
    intro hleaves hplace
    have hlast := hleaves.last hoperand.reads List.suffix_rfl rfl rfl (.inl rfl)
    exact .closed (hoperand.followed hlast hplace)

theorem primary (hoperand : Undisturbed behind finish (.operand place (.primary first)) c c₁)
    (hoperators : Undisturbed behind finish (.operators first bound false node) c₁ c₂) :
    Undisturbed behind finish (.expression bound place node) c c₂ where
  reads := .primary hoperand.reads hoperators.reads
  followed := by
    intro hleaves hplace
    obtain ⟨hfirst, hnext⟩ := hleaves.split hoperand.reads hoperators.reads List.suffix_rfl rfl
      (by simp [Reading.owed]) (.inl rfl)
    exact .primary (hoperand.followed hfirst hplace) (hoperators.followed hnext)

theorem implicit (hoperand : Undisturbed behind finish (.operand place (.implicit first)) c c₁)
    (hoperators : Undisturbed behind finish (.operators first bound true node) c₁ c₂) :
    Undisturbed behind finish (.expression bound place node) c c₂ where
  reads := .implicit hoperand.reads hoperators.reads
  followed := by
    intro hleaves hplace
    obtain ⟨hfirst, hnext⟩ := hleaves.split hoperand.reads hoperators.reads List.suffix_rfl rfl
      (by simp [Reading.owed]) (.inl rfl)
    exact .implicit (hoperand.followed hfirst hplace) (hoperators.followed hnext)

/-! ### Operators behind a left operand -/

theorem stop (hstops : Stops bound force c.rest) :
    Undisturbed behind finish (.operators left bound force left) c c where
  reads := .stop hstops
  followed := by
    intro hleaves
    exact .stop (hstops.followed (hleaves.atEnd rfl List.suffix_rfl))

theorem dot (htaken : (force || bound.admits BinaryOp.call.precedence BinaryOp.call.chains) = true)
    (hname : calls.find? name = some (count + 1))
    (hargs : Undisturbed behind finish (.arguments count args) ⟨rest, finish', calls⟩ c₁)
    (hrest : Undisturbed behind finish (.operators
      (.binary .call left (.call name args position₁) .none position) bound false node) c₁ c₂) :
    Undisturbed behind finish (.operators left bound force node)
      ⟨BinaryOp.call.token position :: ⟨.name, name, position₁⟩ :: rest, finish', calls⟩ c₂ where
  reads := .dot htaken hname hargs.reads hrest.reads
  followed := by
    intro hleaves
    obtain ⟨hfirst, hnext⟩ := hleaves.split hargs.reads hrest.reads
      ((List.suffix_cons _ _).trans (List.suffix_cons _ _)) rfl (by simp [Reading.owed]) (.inl rfl)
    exact .dot htaken hname (hargs.followed hfirst) (hrest.followed hnext)

theorem zipWith {op : BinaryOp}
    (htaken : (force || bound.admits BinaryOp.zip.precedence BinaryOp.zip.chains) = true)
    (hcombinator : Reads (.combinator [op.token position₁] position combinator)
      ⟨rest, finish', calls⟩ c₁)
    (hboundary : c₁.rest.head?.all isCloser = false)
    (hright : Undisturbed behind finish (.expression (.level BinaryOp.zip.precedence) .right right)
      c₁ c₂)
    (hrest : Undisturbed behind finish (.operators
      (.binary .zip left right (.zip combinator) position) bound false node) c₂ c₃) :
    Undisturbed behind finish (.operators left bound force node)
      ⟨BinaryOp.zip.token position :: op.token position₁ :: rest, finish', calls⟩ c₃ where
  reads := .zipWith htaken hcombinator hboundary hright.reads hrest.reads
  followed := by
    intro hleaves
    have hend := hleaves.atEnd rfl (hrest.reads.suffix.trans hright.reads.suffix)
    obtain ⟨hfirst, hnext⟩ := hleaves.split hright.reads hrest.reads
      (hcombinator.suffix.trans ((List.suffix_cons _ _).trans (List.suffix_cons _ _)))
      hcombinator.finish_eq (by simp [Reading.owed, hcombinator.rest_combinator]) (.inl rfl)
    exact .zipWith htaken (hcombinator.combinator_followed behind finish)
      (all_isCloser_followed hend hboundary) (hright.followed hfirst (.inl (by decide)))
      (hrest.followed hnext)

theorem binary {op : BinaryOp} (htaken : (force || bound.admits op.precedence op.chains) = true)
    (hcall : op ≠ .call) (hzip : op = .zip → rest.head?.any isBinary = false)
    (hright : Undisturbed behind finish (.expression (.level op.precedence) .right right)
      ⟨rest, finish', calls⟩ c₁)
    (hrest : Undisturbed behind finish (.operators (.binary op left right .none position) bound
      false node) c₁ c₂) :
    Undisturbed behind finish (.operators left bound force node)
      ⟨op.token position :: rest, finish', calls⟩ c₂ where
  reads := .binary htaken hcall hzip hright.reads hrest.reads
  followed := by
    intro hleaves
    obtain ⟨hfirst, hnext⟩ := hleaves.split hright.reads hrest.reads (List.suffix_cons _ _) rfl
      (by simp [Reading.owed]) (.inl rfl)
    -- A zip would take a binary operator from behind as its combinator.
    have hzip' (heq : op = .zip) : (rest ++ behind).head?.any isBinary = false :=
      (any_isBinary_followed hleaves.trails.binary _).trans (hzip heq)
    exact .binary htaken hcall hzip' (hright.followed hfirst (.inl (by decide)))
      (hrest.followed hnext)

theorem trailing {op : TrailingOp} (htaken : (force || bound.admits op.precedence true) = true)
    (hop : op.plain = true)
    (hrest : Undisturbed behind finish (.operators (.trailing op left .none position) bound false
      node) ⟨rest, finish', calls⟩ c) :
    Undisturbed behind finish (.operators left bound force node)
      ⟨op.token position :: rest, finish', calls⟩ c where
  reads := .trailing htaken hop hrest.reads
  followed := by
    intro hleaves
    have hlast := hleaves.last hrest.reads (List.suffix_cons _ _) rfl (by simp [Reading.owed])
      (.inl rfl)
    exact .trailing htaken hop (hrest.followed hlast)

theorem base {spelling word : String} {width : Nat} {codes : List BaseCode} {numerals : List Token}
    (htaken : (force || bound.admits TrailingOp.base.precedence true) = true)
    (hop : TrailingOp.ofSpelling? spelling = some .base)
    (hwidth : numerals = [] ∧ width = 0 ∨ ∃ digits widthPosition,
      numerals = [⟨.numeral, digits, widthPosition⟩] ∧ readWidth? digits = some width)
    (hcodes : word.toList.mapM BaseCode.ofChar? = some codes)
    (hrest : Undisturbed behind finish (.operators
      (.trailing .base left (.base width codes) position) bound false node)
      ⟨rest, finish', calls⟩ c) :
    Undisturbed behind finish (.operators left bound force node)
      ⟨⟨.symbol, spelling, position⟩ :: (numerals ++ ⟨.name, word, position₁⟩ :: rest), finish',
        calls⟩ c where
  reads := .base htaken hop hwidth hcodes hrest.reads
  followed := by
    intro hleaves
    have hlast := hleaves.last hrest.reads ((suffix_behind _ _ _).trans (List.suffix_cons _ _)) rfl
      (by simp [Reading.owed, nesting_base hop, nesting_width hwidth]) (.inl rfl)
    show Reads _ (Cursor.followed _ _ _) _
    rw [Cursor.followed_append]
    exact .base htaken hop hwidth hcodes (hrest.followed hlast)

/-! ### Items -/

theorem done {closer : Option String} :
    Undisturbed behind finish (.items closer siblings (siblings.map (·.node)).reverse)
      ⟨[], finish', calls⟩ ⟨[], finish', calls⟩ where
  reads := .done
  followed := by
    intro hleaves
    cases closer with
    | none => trivial
    | some closer =>
        -- The bracket was left open, so not all is closed.
        have hopen : (0 : Int) = 0 + 1 := hleaves.settles
        omega

theorem close {spelling : String} (htoken : token.isSymbol spelling = true) :
    Undisturbed behind finish (.items (some spelling) siblings (siblings.map (·.node)).reverse)
      ⟨token :: rest, finish', calls⟩ ⟨rest, finish', calls⟩ where
  reads := .close htoken
  followed := by
    intro _
    rw [Reading.Followed, ← map_node_followed behind]
    exact .close htoken

theorem comma {closer : Option String} (hclose : closer.any token.isSymbol = false)
    (hcomma : token.isSymbol "," = true)
    (hrest : Undisturbed behind finish (.items closer siblings nodes) ⟨rest, finish', calls⟩ c) :
    Undisturbed behind finish (.items closer siblings nodes) ⟨token :: rest, finish', calls⟩
      c where
  reads := .comma hclose hcomma hrest.reads
  followed := by
    intro hleaves
    cases closer with
    | none => trivial
    | some closer =>
        have hlast := hleaves.last hrest.reads (List.suffix_cons _ _) rfl
          (by rw [nesting_of_isSymbol hcomma (by decide) (by decide)]) (.inr rfl)
        exact .comma hclose hcomma (hrest.followed hlast)

theorem next {closer : Option String} (hclose : closer.any token.isSymbol = false)
    (hcomma : token.isSymbol "," = false)
    (hitem : Undisturbed behind finish (.item token siblings siblings₁)
      ⟨token :: rest, finish', calls⟩ c₁)
    (hrest : Undisturbed behind finish (.items closer siblings₁ nodes) c₁ c₂) :
    Undisturbed behind finish (.items closer siblings nodes) ⟨token :: rest, finish', calls⟩
      c₂ where
  reads := .next hclose hcomma hitem.reads hrest.reads
  followed := by
    intro hleaves
    cases closer with
    | none => trivial
    | some closer =>
        obtain ⟨hfirst, hnext⟩ := hleaves.split hitem.reads hrest.reads List.suffix_rfl rfl
          (by simp [Reading.owed]) (.inr rfl)
        exact .next hclose hcomma (hitem.followed hfirst) (hrest.followed hnext)

theorem fresh (hfold : token.isSymbol "\\" = false) (halone : StandsAlone token siblings)
    (hread : Undisturbed behind finish (.expression .lowest .item node)
      ⟨token :: rest, finish', calls⟩ c)
    (hprogress : c.rest.length ≠ (token :: rest).length) :
    Undisturbed behind finish (.item token siblings (⟨node, token :: rest, c.rest⟩ :: siblings))
      ⟨token :: rest, finish', calls⟩ c where
  reads := .fresh hfold halone hread.reads hprogress
  followed := by
    intro hleaves
    have hlast := hleaves.last hread.reads List.suffix_rfl rfl rfl (.inl rfl)
    refine .fresh hfold (halone.followed behind)
      (hread.followed hlast (.inr (List.cons_ne_nil _ _))) ?_
    show (c.rest ++ behind).length ≠ (token :: rest ++ behind).length
    rw [List.length_append, List.length_append]
    omega

theorem adopt {previous : Sibling} {others : List Sibling} {precedence : Nat}
    (hfold : token.isSymbol "\\" = false) (hop : adoptingPrecedence? token = some precedence)
    (hadopt : adoptable precedence previous.node = true)
    (hread : Undisturbed behind finish (.operators previous.node .lowest true node)
      ⟨token :: rest, finish', calls⟩ c) :
    Undisturbed behind finish (.item token (previous :: others)
        (⟨node, previous.start, c.rest⟩ :: others)) ⟨token :: rest, finish', calls⟩ c where
  reads := .adopt hfold hop hadopt hread.reads
  followed := by
    intro hleaves
    have hlast := hleaves.last hread.reads List.suffix_rfl rfl rfl (.inl rfl)
    exact @Reads.adopt _ (previous.followed behind) (others.map (Sibling.followed behind)) _ _ _ _
      _ _ hfold hop hadopt (hread.followed hlast)

theorem fold (hfold : token.isSymbol "\\" = true)
    (hmap : takeMap (token :: rest) siblings = (map, start₁, siblings₁))
    (hcombinator : takeCombinator start₁ siblings₁ = (none, start₂, siblings₂))
    (harg : Undisturbed behind finish (.expression (.level 0) .operand arg)
      ⟨rest, finish', calls⟩ c₁)
    (hoperators : Undisturbed behind finish (.operators
      (.leading .fold arg (.fold map none) token.position) .lowest false node) c₁ c₂) :
    Undisturbed behind finish (.item token siblings (⟨node, start₂, c₂.rest⟩ :: siblings₂))
      ⟨token :: rest, finish', calls⟩ c₂ where
  reads := .fold hfold hmap hcombinator harg.reads hoperators.reads
  followed := by
    intro hleaves
    obtain ⟨hfirst, hnext⟩ := hleaves.split harg.reads hoperators.reads (List.suffix_cons _ _) rfl
      (by simp [Reading.owed, nesting_of_isSymbol hfold]) (.inl rfl)
    exact .fold hfold (takeMap_followed hmap behind)
      (takeCombinator_followed hcombinator hleaves.trails.binary)
      (harg.followed hfirst (.inl (by decide))) (hoperators.followed hnext)

theorem foldWith (hfold : token.isSymbol "\\" = true)
    (hmap : takeMap (token :: rest) siblings = (map, start₁, siblings₁))
    (hcombinator : takeCombinator start₁ siblings₁ = (some tokens, start₂, siblings₂))
    (hread : Reads (.combinator tokens token.position combinator) ⟨rest, finish', calls⟩ c₁)
    (harg : Undisturbed behind finish (.expression (.level 0) .operand arg) c₁ c₂)
    (hoperators : Undisturbed behind finish (.operators
      (.leading .fold arg (.fold map (some combinator)) token.position) .lowest false node) c₂
      c₃) :
    Undisturbed behind finish (.item token siblings (⟨node, start₂, c₃.rest⟩ :: siblings₂))
      ⟨token :: rest, finish', calls⟩ c₃ where
  reads := .foldWith hfold hmap hcombinator hread harg.reads hoperators.reads
  followed := by
    intro hleaves
    obtain ⟨hfirst, hnext⟩ := hleaves.split harg.reads hoperators.reads
      (hread.suffix.trans (List.suffix_cons _ _)) hread.finish_eq
      (by simp [Reading.owed, nesting_of_isSymbol hfold, hread.rest_combinator]) (.inl rfl)
    exact .foldWith hfold (takeMap_followed hmap behind)
      (takeCombinator_followed hcombinator hleaves.trails.binary)
      (hread.combinator_followed behind finish) (harg.followed hfirst (.inl (by decide)))
      (hoperators.followed hnext)

end Undisturbed

theorem Reads.undisturbed {reading : Reading} {c c' : Cursor} (h : Reads reading c c')
    (behind : List Token) (finish : Position) : Undisturbed behind finish reading c c' := by
  induction h with
  -- Operands.
  | absent => exact .absent
  | standIn htoken => exact ⟨.standIn htoken, fun _ _ => .standIn htoken⟩
  | text => exact ⟨.text, fun _ _ => .text⟩
  | numeral => exact ⟨.numeral, fun _ _ => .numeral⟩
  | var hblock hdefinition hname => exact .var hblock hdefinition hname
  | call hblock hdefinition hname _ ih => exact .call hblock hdefinition hname ih
  | define hheader _ ih => exact .define hheader ih
  | namedBlock hplace _ ih => exact .namedBlock hplace ih
  | block hplace _ ih => exact .block hplace ih
  | group _ ih => exact .group ih
  | array _ hblocks ih => exact .array ih hblocks
  | leading hop _ ih => exact .leading hop ih
  | filter hop hnaming _ _ ihbody iharg => exact .filter hop hnaming ihbody iharg
  -- Arguments and expressions.
  | noArguments => exact ⟨.noArguments, fun _ => .noArguments⟩
  | missing hboundary _ ih => exact .missing hboundary ih
  | argument hboundary _ _ iharg ihrest => exact .argument hboundary iharg ihrest
  | closed _ ih => exact .closed ih
  | primary _ _ ihoperand ihoperators => exact .primary ihoperand ihoperators
  | implicit _ _ ihoperand ihoperators => exact .implicit ihoperand ihoperators
  -- Operators behind a left operand.
  | stop hstops => exact .stop hstops
  | dot htaken hname _ _ ihargs ihrest => exact .dot htaken hname ihargs ihrest
  | zipWith htaken hcombinator hboundary _ _ _ ihright ihrest =>
      exact .zipWith htaken hcombinator hboundary ihright ihrest
  | binary htaken hcall hzip _ _ ihright ihrest => exact .binary htaken hcall hzip ihright ihrest
  | trailing htaken hop _ ih => exact .trailing htaken hop ih
  | base htaken hop hwidth hcodes _ ih => exact .base htaken hop hwidth hcodes ih
  -- Items.
  | done => exact .done
  | close htoken => exact .close htoken
  | comma hclose hcomma _ ih => exact .comma hclose hcomma ih
  | next hclose hcomma _ _ ihitem ihrest => exact .next hclose hcomma ihitem ihrest
  | fresh hfold halone _ hprogress ih => exact .fresh hfold halone ih hprogress
  | adopt hfold hop hadopt _ ih => exact .adopt hfold hop hadopt ih
  | fold hfold hmap hcombinator _ _ iharg ihoperators =>
      exact .fold hfold hmap hcombinator iharg ihoperators
  | foldWith hfold hmap hcombinator hread _ _ _ iharg ihoperators =>
      exact .foldWith hfold hmap hcombinator hread iharg ihoperators
  | combinator hread _ =>
      have hcombinator := Reads.combinator hread
      exact ⟨hcombinator, fun _ => hcombinator.combinator_followed behind finish⟩

/-- What a rule reads does not depend on tokens behind that it does not notice. -/
theorem Reads.followed {reading : Reading} {c c' : Cursor} (h : Reads reading c c')
    {behind : List Token} (hleaves : Leaves behind reading c c') (finish : Position) :
    reading.Followed behind finish c c' :=
  (h.undisturbed behind finish).followed hleaves

/-! ## Programs between braces -/

/-- What stands behind a program that is mapped over the input: a brace and a fold. -/
def closing (finish : Position) : List Token := [⟨.symbol, "\x7d", finish⟩, ⟨.symbol, "\\", finish⟩]

theorem closesIntoDefinition_closing (depth : Nat) (rest : List Token) (finish : Position) :
    closesIntoDefinition depth (rest ++ closing finish) = closesIntoDefinition depth rest := by
  induction rest generalizing depth with
  | nil => rfl
  | cons token rest ih =>
      have hassign : (rest ++ closing finish).head?.any (·.isSymbol ":=") =
          rest.head?.any (·.isSymbol ":=") := by
        cases rest <;> rfl
      rw [List.cons_append]
      unfold closesIntoDefinition
      simp only [ih, hassign]

theorem startsDefinition_closing (rest : List Token) (finish : Position) :
    startsDefinition (rest ++ closing finish) = startsDefinition rest := by
  cases rest with
  | nil => rfl
  | cons token rest =>
      have hcloses := closesIntoDefinition_closing 0 (token :: rest) finish
      rw [List.cons_append] at hcloses ⊢
      rw [startsDefinition, startsDefinition, hcloses]

/-- A rule that closes all that it opens does not notice a brace where the tokens ended. -/
theorem Settles.leaves_closing {reading : Reading} {c c' : Cursor} (h : Settles reading c c') :
    Leaves (closing c.finish) reading c c' where
  trails := ⟨rfl, fun rest _ _ => startsDefinition_closing rest c.finish⟩
  settles := h
  ends := .inr (.inr ⟨_, _, rfl, rfl, rfl⟩)

/-- An operand at the start of an item is left out in front of an operator only. -/
theorem StandsIn.text_ne {token : Token} {spelling : String} (h : StandsIn .item token)
    (hspelling : spelling ≠ "\\" ∧ BinaryOp.ofSpelling? spelling = none ∧
      TrailingOp.ofSpelling? spelling = none) : token.text ≠ spelling := by
  rintro rfl
  obtain ⟨hfold, hbinary, htrailing⟩ := hspelling
  rcases h.cases with ⟨-, hplace⟩ | htext | ⟨-, hop⟩ | ⟨hplace, -⟩
  · cases hplace
  · exact hfold htext
  · simp [hbinary, htrailing] at hop
  · exact hplace rfl

/-- No item starts with a closing brace. -/
theorem Reads.isSymbol_operand {start : Start} {c c' : Cursor}
    (h : Reads (.operand .item start) c c') :
    ∀ token ∈ c.rest.head?, token.isSymbol "\x7d" = false := by
  cases h with
  | absent => exact nofun
  | @standIn _ token _ _ _ htoken =>
      rintro _ ⟨⟩
      rw [Bool.eq_false_iff]
      intro hbrace
      have htext : token.text = "\x7d" := congrArg Token.text (Token.eq_of_isSymbol hbrace)
      exact htoken.text_ne (by decide) htext
  | @leading _ op _ _ _ _ _ _ _ _ | @filter _ op _ _ _ _ _ _ _ _ _ _ _ _ _ _ _ =>
      rintro _ ⟨⟩
      cases op <;> rfl
  | _ =>
      rintro _ ⟨⟩
      rfl

theorem Reads.isSymbol_item {token : Token} {siblings siblings' : List Sibling} {rest : List Token}
    {finish : Position} {calls : CallTable} {c : Cursor}
    (h : Reads (.item token siblings siblings') ⟨token :: rest, finish, calls⟩ c) :
    token.isSymbol "\x7d" = false := by
  cases h with
  | fresh _ _ hread _ =>
      cases hread with
      | closed hoperand => exact hoperand.isSymbol_operand token rfl
      | primary hoperand _ => exact hoperand.isSymbol_operand token rfl
      | implicit hoperand _ => exact hoperand.isSymbol_operand token rfl
  | adopt _ hop _ _ =>
      rw [Bool.eq_false_iff]
      intro hbrace
      rw [Token.eq_of_isSymbol hbrace] at hop
      cases hop
  | fold hfold _ _ _ _ | foldWith hfold _ _ _ _ _ =>
      rw [Token.eq_of_isSymbol hfold]
      rfl

/-- Where the items of a program close all that they open, a brace and a fold may stand behind the
tokens.  The brace closes the items that were read to the end. -/
theorem Reads.enclosed_items {reading : Reading} {c c' : Cursor} (h : Reads reading c c') :
    ∀ siblings nodes, reading = .items none siblings nodes → Settles reading c c' →
      Reads (.items (some "\x7d") (siblings.map (.followed (closing c.finish))) nodes)
        (c.followed (closing c.finish) c.finish)
        ⟨[⟨.symbol, "\\", c.finish⟩], c.finish, c'.calls⟩ := by
  induction h with
  -- The end of the tokens is the only place where the closing brace has to be read.
  | done =>
      rintro siblings nodes ⟨⟩ -
      rw [← map_node_followed]
      exact .close rfl
  | comma _ hcomma _ ih =>
      rintro siblings nodes ⟨⟩ hsettles
      refine .comma ?_ hcomma (ih _ _ rfl (hsettles.behind
        (by rw [nesting_of_isSymbol hcomma (by decide) (by decide)])))
      rw [Token.eq_of_isSymbol hcomma]
      rfl
  | next _ hcomma hitem hrest _ ih =>
      rintro siblings nodes ⟨⟩ hsettles
      obtain ⟨hfirst, hnext⟩ := hsettles.split hitem hrest (by simp [Reading.owed])
      have hmore := ih _ _ rfl hnext
      rw [hitem.finish_eq] at hmore
      exact .next hitem.isSymbol_item hcomma (hitem.followed hfirst.leaves_closing _) hmore
  | _ =>
      rintro siblings nodes heq
      cases heq

theorem Reads.enclosed {nodes : List Node} {c c' : Cursor} (h : Reads (.items none [] nodes) c c')
    (hsettles : Settles (.items none [] nodes) c c') :
    Reads (.items (some "\x7d") [] nodes) (c.followed (closing c.finish) c.finish)
      ⟨[⟨.symbol, "\\", c.finish⟩], c.finish, c'.calls⟩ :=
  h.enclosed_items [] nodes rfl hsettles

end Terse.Grammar
