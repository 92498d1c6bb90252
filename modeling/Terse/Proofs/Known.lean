import Terse.Proofs.Accepted
import Terse.Proofs.Frame

/-!
# What reading a program makes known

Reading hands the table of known functions from rule to rule, and into the combinators of folds and
zips, which are read apart from the tokens around them.  However reading ends, the table that comes
out differs from the one that went in only by definitions: every name has the entry that it had, or
the number of parameters of a definition of it in the tokens.  So no name is lost, a name that is
not defined keeps its entry, and the definitions in the tree of a program are all in the table
(`parse_registers`).

## Strategy

Derivations say nothing about runs that fail, and a table comes out of these as well.  So this is
shown about the rules themselves, not about `Reads`.

* `Extends` is what one step, and every run of steps, does to a table.  It is reflexive and
  transitive, and it holds of the entry that a definition makes.
* `Records` says it of a run, whether it ends with a result or with an error.  If there is a result,
  it says besides that the definitions in the tree are in the table.
* `Registers` collects it for the rules that call each other; `registers_ofDepth` is the induction
  over the number of levels.

A name that is defined several times has the number of parameters of one of the definitions.  Which
one it is depends on the order in which they are read, and the combinator of a fold is read twice.
So `Registered` asks for some definition of the name.
-/

namespace Terse.Grammar

/-! ## Tables -/

/-- A table gives a name the number of parameters of a definition in the tokens. -/
def Registered (tokens : List Token) (calls : CallTable) (name : String) : Prop :=
  ∃ count, Defines tokens name count ∧ calls.find? name = some count

/-- The second table has the entries of the first one, except for definitions in the tokens. -/
def Extends (tokens : List Token) (calls calls' : CallTable) : Prop :=
  ∀ name, calls'.find? name = calls.find? name ∨ Registered tokens calls' name

namespace Extends

variable {tokens : List Token} {calls calls' calls'' : CallTable} {name : String}

theorem refl (calls : CallTable) : Extends tokens calls calls := fun _ => .inl rfl

theorem registered (h : Extends tokens calls calls') (hname : Registered tokens calls name) :
    Registered tokens calls' name := by
  rcases h name with hsame | hregistered
  · obtain ⟨count, hdefines, hfind⟩ := hname
    exact ⟨count, hdefines, hsame.trans hfind⟩
  · exact hregistered

theorem trans (h : Extends tokens calls calls') (h' : Extends tokens calls' calls'') :
    Extends tokens calls calls'' := by
  intro name
  rcases h name with hsame | hregistered
  · rcases h' name with hsame' | hregistered'
    · exact .inl (hsame'.trans hsame)
    · exact .inr hregistered'
  · exact .inr (h'.registered hregistered)

/-- A definition in the tokens is entered. -/
theorem insert {count : Nat} (h : Defines tokens name count) (calls : CallTable) :
    Extends tokens calls (calls.insert name count) := by
  intro other
  rw [Bindings.find?_insert]
  split
  · rename_i hsame
    subst hsame
    exact .inr ⟨count, h, by rw [Bindings.find?_insert, if_pos rfl]⟩
  · exact .inl rfl

/-- No name is lost. -/
theorem isSome (h : Extends tokens calls calls') (hname : (calls.find? name).isSome = true) :
    (calls'.find? name).isSome = true := by
  rcases h name with hsame | ⟨count, -, hfind⟩
  · rwa [hsame]
  · rw [hfind]
    rfl

end Extends

/-! ## Tokens and trees -/

/-- What a part of the tokens defines is defined by the tokens. -/
def Supplies (tokens part : List Token) : Prop :=
  ∀ name count, Defines part name count → Defines tokens name count

theorem Supplies.of_suffix {tokens part part' : List Token} (h : Supplies tokens part)
    (hsuffix : part' <:+ part) : Supplies tokens part' :=
  fun name count hdefines => h name count (hdefines.of_suffix hsuffix)

/-- Also with the names of the operands around it, a part that starts with a binary operator defines
nothing else. -/
theorem Supplies.operandsAround {tokens part start : List Token} (h : Supplies tokens start)
    (hpart : part <+: start) (hbinary : start.head?.any isBinary = true) (position : Position) :
    Supplies tokens (operandsAround part position) :=
  fun name count hdefines =>
    h name count (defines_of_operandsAround hpart hbinary hdefines)

/-- The definitions in a tree are definitions in the tokens, and their names are in the table. -/
def Entered (tokens : List Token) (calls : CallTable) (n : Node) : Prop :=
  ∀ name params body position, n.Contains (.define name params body position) →
    Defines tokens name params.length ∧ Registered tokens calls name

/-- Trees whose definitions are in the table. -/
def EnteredAll (tokens : List Token) (calls : CallTable) (nodes : List Node) : Prop :=
  ∀ n ∈ nodes, Entered tokens calls n

section Trees

variable {tokens : List Token} {calls calls' : CallTable}

theorem Entered.mono {n : Node} (h : Entered tokens calls n)
    (hcalls : Extends tokens calls calls') : Entered tokens calls' n :=
  fun name params body position hcontains =>
    ⟨(h name params body position hcontains).1,
      hcalls.registered (h name params body position hcontains).2⟩

/-- A node that is not a definition itself contains the definitions of its parts. -/
theorem entered_of_parts {n : Node} (hn : n.definition? = none)
    (hoperands : EnteredAll tokens calls n.operands)
    (hblocks : ∀ b ∈ n.blocks, EnteredAll tokens calls b.body.items)
    (hcombinators : ∀ c ∈ n.combinators, Entered tokens calls c.expr) :
    Entered tokens calls n := by
  intro name params body position hcontains
  -- A definition in the tree is the node itself, or is in one of its parts.
  rcases Relation.ReflTransGen.cases_head hcontains with rfl | ⟨child, hchild, hcontains⟩
  · cases hn
  · simp only [Node.children, hn, List.mem_append, List.mem_flatMap, List.mem_map,
      Option.mem_toList, reduceCtorEq, false_and, exists_false, or_false] at hchild
    rcases hchild with (hoperand | ⟨b, hb, hitem⟩) | ⟨c, hc, rfl⟩
    · exact hoperands child hoperand name params body position hcontains
    · exact hblocks b hb child hitem name params body position hcontains
    · exact hcombinators c hc name params body position hcontains

theorem entered_define {name : String} {params : List Param} {body : Node} {position : Position}
    (hdefines : Defines tokens name params.length) (hname : Registered tokens calls name)
    (hbody : Entered tokens calls body) :
    Entered tokens calls (.define name params body position) := by
  intro name' params' body' position' hcontains
  rcases Relation.ReflTransGen.cases_head hcontains with heq | ⟨child, hchild, hcontains⟩
  · cases heq
    exact ⟨hdefines, hname⟩
  · obtain rfl : body = child := by
      simpa [Node.children, Node.operands, Node.blocks, Node.combinators, Node.definition?, eq_comm]
        using hchild
    exact hbody name' params' body' position' hcontains

/-- A node without parts, or whose only parts are its operands. -/
theorem entered_of_operands {n : Node} (hn : n.definition? = none) (hblocks : n.blocks = [])
    (hcombinators : n.combinators = []) (hoperands : EnteredAll tokens calls n.operands) :
    Entered tokens calls n :=
  entered_of_parts hn hoperands (by simp [hblocks]) (by simp [hcombinators])

theorem entered_block {b : Block} (h : EnteredAll tokens calls b.body.items) :
    Entered tokens calls (.block b) :=
  entered_of_parts rfl (List.forall_mem_nil _) (List.forall_mem_singleton.2 h)
    (List.forall_mem_nil _)

theorem entered_implicit (position : Position) : Entered tokens calls (.implicit position) :=
  entered_of_operands rfl rfl rfl (List.forall_mem_nil _)

end Trees

/-! ## Runs -/

/-- However a run ends, the table is extended.  If it ends with a result, what is left to be read
defines nothing new, and the result is as `Q` says, given the table. -/
def Records (tokens : List Token) {α : Type} (x : Parse α) (c : Cursor)
    (Q : CallTable → α → Prop) : Prop :=
  match x c with
  | .ok a c' => Extends tokens c.calls c'.calls ∧ Supplies tokens c'.rest ∧ Q c'.calls a
  | .error _ c' => Extends tokens c.calls c'.calls

namespace Records

variable {tokens : List Token} {α β : Type} {x : Parse α} {f : α → Parse β} {c c' : Cursor}
  {Q : CallTable → α → Prop} {R : CallTable → β → Prop}

theorem pure {a : α} (hc : Supplies tokens c.rest) (ha : Q c.calls a) :
    Records tokens (Pure.pure a) c Q :=
  ⟨.refl _, hc, ha⟩

theorem fail (error : SyntaxError) : Records tokens (Grammar.fail error : Parse α) c Q :=
  Extends.refl c.calls

/-- A step whose result is known, and which extends the table. -/
theorem after (a : α) (c' : Cursor) (hx : x c = .ok a c') (hcalls : Extends tokens c.calls c'.calls)
    (hf : Records tokens (f a) c' R) : Records tokens (x >>= f) c R := by
  unfold Records at hf ⊢
  simp only [Bind.bind, EStateM.bind, hx]
  cases hrun : f a c' with
  | ok b c'' =>
      rw [hrun] at hf
      exact ⟨hcalls.trans hf.1, hf.2⟩
  | error stop c'' =>
      rw [hrun] at hf
      exact hcalls.trans hf

/-- What follows a step starts where the step ends, with a table that is extended. -/
theorem bind (hx : Records tokens x c Q)
    (hf : ∀ a c', x c = .ok a c' → Extends tokens c.calls c'.calls → Supplies tokens c'.rest →
      Q c'.calls a → Records tokens (f a) c' R) :
    Records tokens (x >>= f) c R := by
  unfold Records at hx
  cases hrun : x c with
  | ok a c' =>
      rw [hrun] at hx
      obtain ⟨hcalls, hrest, ha⟩ := hx
      exact after a c' hrun hcalls (hf a c' hrun hcalls hrest ha)
  | error stop c' =>
      rw [hrun] at hx
      unfold Records
      simp only [Bind.bind, EStateM.bind, hrun]
      exact hx

theorem ite {p : Prop} [Decidable p] {y : Parse α} (hx : p → Records tokens x c Q)
    (hy : ¬ p → Records tokens y c Q) : Records tokens (if p then x else y) c Q := by
  by_cases hp : p
  · rw [if_pos hp]
    exact hx hp
  · rw [if_neg hp]
    exact hy hp

/-- A step that only looks at the cursor. -/
theorem look (a : α) (hx : x c = .ok a c) (hf : Records tokens (f a) c R) :
    Records tokens (x >>= f) c R :=
  after a c hx (.refl _) hf

/-- A token is passed over, if there is one. -/
theorem skip {f : Unit → Parse β} (hc : Supplies tokens c.rest)
    (hf : ∀ c', c'.calls = c.calls → c'.rest = c.rest.tail → Supplies tokens c'.rest →
      Records tokens (f ()) c' R) :
    Records tokens (Grammar.skip >>= f) c R := by
  obtain ⟨rest, finish, calls⟩ := c
  cases rest with
  | nil => exact Extends.refl calls
  | cons token rest =>
      exact after () ⟨rest, finish, calls⟩ rfl (.refl _)
        (hf _ rfl rfl (hc.of_suffix (List.suffix_cons _ _)))

/-- The table goes into a parser that reads tokens of its own, and comes out of it also if the
parser fails; the tokens around it stay. -/
theorem apart {part : List Token} {finish : Position} (hc : Supplies tokens c.rest)
    (hx : Records tokens x ⟨part, finish, c.calls⟩ Q) :
    Records tokens (Grammar.apart part finish x) c Q := by
  unfold Records at hx ⊢
  unfold Grammar.apart
  cases hrun : x ⟨part, finish, c.calls⟩ with
  | ok a c' =>
      rw [hrun] at hx
      exact ⟨hx.1, hc, hx.2.2⟩
  | error stop c' =>
      rw [hrun] at hx
      exact hx

end Records

/-! ## Rules that need no other rule -/

section

variable {tokens : List Token} {c : Cursor}

theorem readParams_suffix {error : SyntaxError} {rest behind : List Token} {params : List Param}
    (h : readParams error rest = .ok (params, behind)) : behind <:+ rest := by
  rcases readParams_cases h with ⟨-, rfl⟩ | ⟨listed, closing, -, rfl⟩
  · exact List.nil_suffix
  · exact suffix_behind _ _ _

theorem optionalParams_records (hc : Supplies tokens c.rest) (name : Token) :
    Records tokens (optionalParams name) c fun _ _ => True := by
  refine .look (c.rest.head?.any (·.isSymbol "(")) rfl
    (.ite (fun _ => ?_) fun _ => .pure hc trivial)
  refine .skip hc fun c' _ _ hc' => .look c' rfl ?_
  cases hread : readParams (.invalidDefinition name.text name.position) c'.rest with
  | error error => exact .fail error
  | ok result =>
      exact .after () { c' with rest := result.2 } rfl (.refl _)
        (.pure (hc'.of_suffix (readParams_suffix hread)) trivial)

theorem blockStart?_records (hc : Supplies tokens c.rest) :
    Records tokens blockStart? c fun _ _ => True := by
  refine .look c rfl ?_
  split
  · split
    · exact .skip hc fun _ _ _ hc' => .pure hc' trivial
    split
    · split
      · exact .skip hc fun _ _ _ hc₁ => .skip hc₁ fun _ _ _ hc₂ => .pure hc₂ trivial
      · exact .pure hc trivial
    · exact .pure hc trivial
  · exact .pure hc trivial

theorem baseWidth_records (hc : Supplies tokens c.rest) (token : Token) :
    Records tokens (baseWidth token) c fun _ _ => True := by
  refine .look c.rest.head? rfl ?_
  split
  · refine .ite (fun _ => ?_) fun _ => .pure hc trivial
    split
    · exact .skip hc fun _ _ _ hc' => .pure hc' trivial
    · exact .fail _
  · exact .pure hc trivial

theorem baseCodes_records (hc : Supplies tokens c.rest) (token : Token) :
    Records tokens (baseCodes token) c fun _ _ => True := by
  refine .look c.rest.head? rfl ?_
  split
  · refine .ite (fun _ => .skip hc fun _ _ _ hc' => ?_) fun _ => .fail _
    split
    · exact .pure hc' trivial
    · exact .fail _
  · exact .fail _

theorem trailing_records (hc : Supplies tokens c.rest) {left : Node}
    (hleft : Entered tokens c.calls left) (op : TrailingOp) (token : Token) :
    Records tokens (trailing left op token) c (Entered tokens) := by
  have hnode {calls : CallTable} {extra : Extra} (hblocks : extra.blocks = [])
      (hcombinators : extra.combinators = []) (hcalls : Extends tokens c.calls calls) :
      Entered tokens calls (.trailing op left extra token.position) :=
    entered_of_operands rfl hblocks hcombinators (List.forall_mem_singleton.2 (hleft.mono hcalls))
  refine .ite (fun _ => ?_) fun _ => .pure hc (hnode rfl rfl (.refl _))
  refine .bind (baseWidth_records hc token) fun width c₁ _ hcalls₁ hc₁ _ => ?_
  refine .bind (baseCodes_records hc₁ token) fun codes c₂ _ hcalls₂ hc₂ _ => ?_
  exact .pure hc₂ (hnode rfl rfl (hcalls₁.trans hcalls₂))

end

/-! ## Rules that need other rules -/

/-- The node that an operand starts with. -/
def Start.node : Start → Node
  | .primary node | .closed node | .implicit node => node

/-- An item that was read: its definitions are in the table, and nothing new is defined when its
tokens are read again. -/
structure Held (tokens : List Token) (calls : CallTable) (sibling : Sibling) : Prop where
  node : Entered tokens calls sibling.node
  start : Supplies tokens sibling.start

theorem Held.mono {tokens : List Token} {calls calls' : CallTable} {sibling : Sibling}
    (h : Held tokens calls sibling) (hcalls : Extends tokens calls calls') :
    Held tokens calls' sibling :=
  ⟨h.node.mono hcalls, h.start⟩

/-- The items that were read so far. -/
def HeldAll (tokens : List Token) (calls : CallTable) (siblings : List Sibling) : Prop :=
  ∀ s ∈ siblings, Held tokens calls s

theorem HeldAll.mono {tokens : List Token} {calls calls' : CallTable} {siblings : List Sibling}
    (h : HeldAll tokens calls siblings) (hcalls : Extends tokens calls calls') :
    HeldAll tokens calls' siblings :=
  fun s hs => (h s hs).mono hcalls

/-- The rules of a grammar extend the table by definitions, and enter the definitions that they
read. -/
structure Registers (tokens : List Token) (g : Grammar) : Prop where
  expression : ∀ (bound : Bound) (place : Place) (c : Cursor), Supplies tokens c.rest →
    Records tokens (g.expression bound place) c (Entered tokens)
  operators : ∀ (left : Node) (bound : Bound) (force : Bool) (c : Cursor),
    Supplies tokens c.rest → Entered tokens c.calls left →
    Records tokens (g.operators left bound force) c (Entered tokens)
  items : ∀ (closer : Option String) (siblings : List Sibling) (c : Cursor),
    Supplies tokens c.rest → HeldAll tokens c.calls siblings →
    Records tokens (g.items closer siblings) c (EnteredAll tokens)

namespace Registers

variable {tokens : List Token} {g : Grammar} {c : Cursor}

/-- Items of their own. -/
theorem body (hg : Registers tokens g) (closer : Option String) (hc : Supplies tokens c.rest) :
    Records tokens (g.items closer []) c (EnteredAll tokens) :=
  hg.items closer [] c hc (List.forall_mem_nil _)

theorem blockBody (hg : Registers tokens g) (hc : Supplies tokens c.rest) (param : String)
    (position : Position) :
    Records tokens (Grammar.blockBody g param position) c
      fun calls b => EnteredAll tokens calls b.body.items :=
  .look c.position rfl (.bind (hg.body _ hc) fun _ _ _ _ hc' hnodes => .pure hc' hnodes)

theorem arguments (hg : Registers tokens g) (hc : Supplies tokens c.rest) (count : Nat) :
    Records tokens (Grammar.arguments g count) c (EnteredAll tokens) := by
  induction count generalizing c with
  | zero => exact .pure hc (List.forall_mem_nil _)
  | succ count ih =>
      have hargument : Records tokens (Grammar.argument g) c (Entered tokens) := by
        refine .look (c.rest.head?.all isCloser) rfl (.ite (fun _ => ?_) fun _ => ?_)
        · exact .look c.position rfl (.pure hc (entered_implicit _))
        · exact hg.expression _ _ c hc
      refine .bind hargument fun arg c₁ _ _ hc₁ harg => ?_
      refine .bind (ih hc₁) fun args c₂ _ hcalls hc₂ hargs => ?_
      exact .pure hc₂ (List.forall_mem_cons.2 ⟨harg.mono hcalls, hargs⟩)

theorem combinator (hg : Registers tokens g) (hc : Supplies tokens c.rest) {part : List Token}
    {position : Position} (haround : Supplies tokens (operandsAround part position)) :
    Records tokens (Grammar.combinator g part position) c
      fun calls combined => Entered tokens calls combined.expr := by
  refine .bind (.apart hc (hg.body none haround)) fun nodes c' _ _ hc' hnodes => ?_
  match nodes, hnodes with
  | [], _ => exact .fail _
  | [expr], hnodes => exact .pure hc' (hnodes expr List.mem_cons_self)
  | _ :: _ :: _, _ => exact .fail _

/-! ### Operands -/

theorem definition (hg : Registers tokens g) {name : String} {position : Position}
    (hc : Supplies tokens (⟨.name, name, position⟩ :: c.rest))
    (hstarts : startsDefinition c.rest = true) :
    Records tokens (Grammar.definition g ⟨.name, name, position⟩) c (Entered tokens) := by
  have hrest := hc.of_suffix (List.suffix_cons _ _)
  refine .bind (optionalParams_records hrest _) fun params c₁ hrun _ hc₁ _ => ?_
  -- The parameters were read from the head of the definition.
  have hdefines : Defines tokens name params.length := by
    have hmeets : Meets (optionalParams ⟨.name, name, position⟩) c _ True :=
      optionalParams_meets hstarts
    obtain ⟨before, assign, behind, -, heq, hheader⟩ := hmeets.of_ok hrun
    refine hc name _ ⟨[], position, _, params, behind, hheader, rfl, ?_⟩
    rw [heq]
    simp
  refine .skip hc₁ fun c₂ _ _ hc₂ => ?_
  refine .after () { c₂ with calls := c₂.calls.insert name params.length } rfl
    (.insert hdefines _) ?_
  -- The function is known in its own body, so that the entry is made before the body is read.
  have hname : Registered tokens (c₂.calls.insert name params.length) name :=
    ⟨_, hdefines, by rw [Bindings.find?_insert, if_pos rfl]⟩
  refine .bind (hg.expression .lowest .operand _ hc₂) fun body c₃ _ hcalls hc₃ hbody => ?_
  exact .pure hc₃ (entered_define hdefines (hcalls.registered hname) hbody)

theorem named (hg : Registers tokens g) (place : Place) {name : String} {position : Position}
    {rest : List Token} (hrest : c.rest = ⟨.name, name, position⟩ :: rest)
    (hc : Supplies tokens c.rest) :
    Records tokens (Grammar.named g ⟨.name, name, position⟩ place) c
      fun calls start => Entered tokens calls start.node := by
  refine .skip hc fun c₁ _ hrest₁ hc₁ => ?_
  refine .look (c₁.rest.head?.any (·.isSymbol "\x7b")) rfl (.ite (fun _ => ?_) fun _ => ?_)
  · refine .skip hc₁ fun c₂ _ _ hc₂ => ?_
    refine .bind (hg.blockBody hc₂ name position) fun b c₃ _ _ hc₃ hb => ?_
    exact .pure hc₃ (entered_block hb)
  refine .look c₁ rfl (.ite (fun hstarts => ?_) fun _ => .look c₁ rfl ?_)
  · have hdefinition : Supplies tokens (⟨.name, name, position⟩ :: c₁.rest) := by
      rw [hrest₁, hrest, List.tail_cons, ← hrest]
      exact hc
    exact .bind (hg.definition hdefinition hstarts) fun _ _ _ _ hc' hnode => .pure hc' hnode
  · split
    · rename_i count _
      refine .bind (hg.arguments hc₁ count) fun args c₂ _ _ hc₂ hargs => ?_
      exact .pure hc₂ (entered_of_operands rfl rfl rfl hargs)
    · exact .pure hc₁ (entered_of_operands rfl rfl rfl (List.forall_mem_nil _))

theorem leading (hg : Registers tokens g) (hc : Supplies tokens c.rest) (op : LeadingOp)
    (token : Token) :
    Records tokens (Grammar.leading g op token) c
      fun calls start => Entered tokens calls start.node := by
  refine .skip hc fun c₁ _ _ hc₁ => .ite (fun _ => ?_) fun _ => ?_
  · refine .bind (blockStart?_records hc₁) fun start c₂ _ _ hc₂ _ => ?_
    split
    · exact .fail _
    · refine .bind (hg.blockBody hc₂ _ _) fun b c₃ _ _ hc₃ hb => ?_
      refine .bind (hg.expression _ _ c₃ hc₃) fun arg c₄ _ hcalls hc₄ harg => ?_
      exact .pure hc₄ (entered_of_parts rfl (List.forall_mem_singleton.2 harg)
        (List.forall_mem_singleton.2 fun n hn => (hb n hn).mono hcalls) (List.forall_mem_nil _))
  · refine .bind (hg.expression _ _ c₁ hc₁) fun arg c₂ _ _ hc₂ harg => ?_
    exact .pure hc₂ (entered_of_operands rfl rfl rfl (List.forall_mem_singleton.2 harg))

theorem symbol (hg : Registers tokens g) (hc : Supplies tokens c.rest) (place : Place)
    (token : Token) :
    Records tokens (Grammar.symbol g token place) c
      fun calls start => Entered tokens calls start.node := by
  have himplicit : Records tokens (Pure.pure (Start.implicit (.implicit token.position))) c
      fun calls start => Entered tokens calls start.node :=
    .pure hc (entered_implicit _)
  unfold Grammar.symbol
  split
  · refine .skip hc fun c₁ _ _ hc₁ => ?_
    refine .bind (Q := Entered tokens) ?_ fun _ _ _ _ hc' hnode => .pure hc' hnode
    refine .look c₁.position rfl (.bind (hg.body _ hc₁) fun nodes c₂ _ _ hc₂ hnodes => ?_)
    exact .pure hc₂ (entered_of_operands rfl rfl rfl hnodes)
  split
  · refine .skip hc fun c₁ _ _ hc₁ => ?_
    refine .bind (Q := Entered tokens) ?_ fun _ _ _ _ hc' hnode => .pure hc' hnode
    refine .look c₁.position rfl (.bind (hg.body _ hc₁) fun nodes c₂ _ _ hc₂ hnodes => ?_)
    refine .ite (fun _ => .fail _) fun _ => ?_
    exact .pure hc₂ (entered_of_operands rfl rfl rfl hnodes)
  split
  · refine .ite (fun _ => himplicit) fun _ => .skip hc fun c₁ _ _ hc₁ => ?_
    refine .bind (hg.blockBody hc₁ _ _) fun b c₂ _ _ hc₂ hb => ?_
    exact .pure hc₂ (entered_block hb)
  split
  · exact himplicit
  split
  · exact hg.leading hc _ token
  · exact .ite (fun _ => himplicit) fun _ => .ite (fun _ => himplicit) fun _ => .fail _

theorem operand (hg : Registers tokens g) (place : Place) (hc : Supplies tokens c.rest) :
    Records tokens (Grammar.operand g place) c
      fun calls start => Entered tokens calls start.node := by
  refine .look c.rest.head? rfl ?_
  cases hrest : c.rest with
  | nil => exact .look c.position rfl (.pure hc (entered_implicit _))
  | cons token rest =>
      obtain ⟨kind, text, position⟩ := token
      cases kind with
      | text quote =>
          exact .skip hc fun _ _ _ hc' =>
            .pure hc' (entered_of_operands rfl rfl rfl (List.forall_mem_nil _))
      | numeral =>
          exact .skip hc fun _ _ _ hc' =>
            .pure hc' (entered_of_operands rfl rfl rfl (List.forall_mem_nil _))
      | name => exact hg.named place hrest hc
      | symbol => exact hg.symbol hc place _

theorem readExpression (hg : Registers tokens g) (bound : Bound) (place : Place)
    (hc : Supplies tokens c.rest) :
    Records tokens (Grammar.readExpression g bound place) c (Entered tokens) := by
  refine .bind (hg.operand place hc) fun start c₁ _ _ hc₁ hstart => ?_
  cases start with
  | closed node => exact .pure hc₁ hstart
  | primary node => exact hg.operators node bound false c₁ hc₁ hstart
  | implicit node => exact hg.operators node bound true c₁ hc₁ hstart

/-! ### Operators -/

theorem callTarget (hg : Registers tokens g) (hc : Supplies tokens c.rest) {left : Node}
    (hleft : Entered tokens c.calls left) (dot : Token) :
    Records tokens (Grammar.callTarget g left dot) c (Entered tokens) := by
  refine .look c rfl ?_
  split
  · split
    · rename_i name _ _ _ count _
      refine .skip hc fun c₁ hcalls₁ _ hc₁ => ?_
      refine .bind (hg.arguments hc₁ count) fun args c₂ _ hcalls₂ hc₂ hargs => ?_
      rw [hcalls₁] at hcalls₂
      have hcall : Entered tokens c₂.calls (.call name.text args name.position) :=
        entered_of_operands rfl rfl rfl hargs
      exact .pure hc₂ (entered_of_operands rfl rfl rfl
        (List.forall_mem_cons.2 ⟨hleft.mono hcalls₂, List.forall_mem_singleton.2 hcall⟩))
    · exact .fail _
  · exact .fail _

theorem zipCombinator (hg : Registers tokens g) (hc : Supplies tokens c.rest) (zip : Token) :
    Records tokens (Grammar.zipCombinator g zip) c fun calls extra =>
      extra.blocks = [] ∧ ∀ combined ∈ extra.combinators, Entered tokens calls combined.expr := by
  refine .look c.rest.head? rfl ?_
  cases hrest : c.rest with
  | nil => exact .pure hc ⟨rfl, List.forall_mem_nil _⟩
  | cons token rest =>
      refine .ite (fun hbinary => ?_) fun _ => .pure hc ⟨rfl, List.forall_mem_nil _⟩
      have haround : Supplies tokens (operandsAround [token] zip.position) := by
        rw [hrest] at hc
        exact hc.operandsAround (List.prefix_append [token] rest) hbinary _
      refine .skip hc fun c₁ _ _ hc₁ => ?_
      refine .bind (hg.combinator hc₁ haround) fun combined c₂ _ _ hc₂ hcombined => ?_
      refine .look (c₂.rest.head?.all isCloser) rfl (.ite (fun _ => .fail _) fun _ => ?_)
      exact .pure hc₂ ⟨rfl, List.forall_mem_singleton.2 hcombined⟩

theorem binary (hg : Registers tokens g) (hc : Supplies tokens c.rest) {left : Node}
    (hleft : Entered tokens c.calls left) (op : BinaryOp) (token : Token) :
    Records tokens (Grammar.binary g left op token) c (Entered tokens) := by
  refine .ite (fun _ => hg.callTarget hc hleft token) fun _ => ?_
  -- Once it is known what the operator carries, only the right operand is left.
  have hrest {extra : Extra} {c₁ : Cursor} (hcalls₁ : Extends tokens c.calls c₁.calls)
      (hc₁ : Supplies tokens c₁.rest) (hextra : extra.blocks = [] ∧
        ∀ combined ∈ extra.combinators, Entered tokens c₁.calls combined.expr) :
      Records tokens (do
        let right ← g.expression (.level op.precedence) .right
        return .binary op left right extra token.position) c₁ (Entered tokens) := by
    refine .bind (hg.expression _ _ c₁ hc₁) fun right c₂ _ hcalls₂ hc₂ hright => ?_
    have hleft' := hleft.mono (hcalls₁.trans hcalls₂)
    refine .pure hc₂ (entered_of_parts rfl
      (List.forall_mem_cons.2 ⟨hleft', List.forall_mem_singleton.2 hright⟩) ?_ ?_)
    · simp [Node.blocks, hextra.1]
    · exact fun combined hcombined => (hextra.2 combined hcombined).mono hcalls₂
  refine .ite (fun _ => ?_) fun _ => .look _ rfl (hrest (.refl _) hc ⟨rfl, List.forall_mem_nil _⟩)
  exact .bind (hg.zipCombinator hc token) fun _ _ _ hcalls₁ hc₁ hextra => hrest hcalls₁ hc₁ hextra

theorem readOperators (hg : Registers tokens g) (hc : Supplies tokens c.rest) {left : Node}
    (hleft : Entered tokens c.calls left) (bound : Bound) (force : Bool) :
    Records tokens (Grammar.readOperators g left bound force) c (Entered tokens) := by
  have hstop : Records tokens (Pure.pure left) c (Entered tokens) := .pure hc hleft
  -- An operator is applied, and those behind it follow.
  have hmore {x : Parse Node}
      (hx : ∀ {c' : Cursor}, Supplies tokens c'.rest → Entered tokens c'.calls left →
        Records tokens x c' (Entered tokens)) :
      Records tokens (do Grammar.skip; g.operators (← x) bound false) c (Entered tokens) := by
    refine .skip hc fun c₁ hcalls₁ _ hc₁ => ?_
    rw [← hcalls₁] at hleft
    exact .bind (hx hc₁ hleft) fun node c₂ _ _ hc₂ hnode =>
      hg.operators node bound false c₂ hc₂ hnode
  refine .look c.rest.head? rfl ?_
  split
  · exact hstop
  refine .ite (fun _ => ?_) fun _ => hstop
  split
  · exact .ite (fun _ => hmore fun hc' hleft' => hg.binary hc' hleft' _ _) fun _ => hstop
  split
  · exact .ite (fun _ => hmore fun hc' hleft' => trailing_records hc' hleft' _ _) fun _ => hstop
  · exact hstop

/-! ### Items -/

variable {siblings : List Sibling}

/-- What a fold takes as its map was read before. -/
theorem takeMap {start start' : List Token} {others : List Sibling} {map : Option Block}
    {calls : CallTable} (h : Grammar.takeMap start siblings = (map, start', others))
    (hstart : Supplies tokens start) (hsiblings : HeldAll tokens calls siblings) :
    (∀ b ∈ map, EnteredAll tokens calls b.body.items) ∧ Supplies tokens start' ∧
      HeldAll tokens calls others := by
  rcases takeMap_cases h with ⟨rfl, rfl, rfl⟩ | ⟨block, stop, rfl, rfl⟩
  · exact ⟨by simp, hstart, hsiblings⟩
  · obtain ⟨⟨hblock, hfirst⟩, hothers⟩ := List.forall_mem_cons.1 hsiblings
    refine ⟨fun b hb n hn => ?_, hfirst, hothers⟩
    obtain rfl := Option.some.inj hb
    intro name params body position hcontains
    exact hblock name params body position
      ((Node.contains_of_mem_block List.mem_cons_self hn).trans hcontains)

/-- What a fold takes as its combinator starts with a binary operator. -/
theorem takeCombinator {start start' : List Token} {others : List Sibling}
    {part? : Option (List Token)} {calls : CallTable}
    (h : Grammar.takeCombinator start siblings = (part?, start', others))
    (hstart : Supplies tokens start) (hsiblings : HeldAll tokens calls siblings) :
    Supplies tokens start' ∧ HeldAll tokens calls others ∧
      ∀ part ∈ part?, ∀ position, Supplies tokens (operandsAround part position) := by
  rcases takeCombinator_cases h with ⟨rfl, rfl, rfl⟩ | ⟨sibling, rfl, rfl, rfl, hbinary⟩
  · exact ⟨hstart, hsiblings, by simp⟩
  · obtain ⟨⟨-, hfirst⟩, hothers⟩ := List.forall_mem_cons.1 hsiblings
    refine ⟨hfirst, hothers, fun part hpart position => ?_⟩
    obtain rfl := Option.some.inj hpart
    exact hfirst.operandsAround (List.take_prefix _ _) hbinary position

theorem fold (hg : Registers tokens g) (hc : Supplies tokens c.rest)
    (hsiblings : HeldAll tokens c.calls siblings) (token : Token) :
    Records tokens (Grammar.fold g token siblings) c (HeldAll tokens) := by
  refine .look c rfl ?_
  cases hmap : Grammar.takeMap c.rest siblings with
  | mk map taken =>
  obtain ⟨start₁, siblings₁⟩ := taken
  cases hpart : Grammar.takeCombinator start₁ siblings₁ with
  | mk part? taken =>
  obtain ⟨start₂, siblings₂⟩ := taken
  simp only [hpart]
  obtain ⟨hmapped, hstart₁, hsiblings₁⟩ := takeMap hmap hc hsiblings
  obtain ⟨hstart₂, hsiblings₂, haround⟩ := takeCombinator hpart hstart₁ hsiblings₁
  refine .skip hc fun c₁ hcalls₁ _ hc₁ => ?_
  rw [← hcalls₁] at hmapped hsiblings₂
  -- With the combinator read or left out, the operand and the operators behind it follow.
  have hrest {combined? : Option Combinator} {c₂ : Cursor}
      (hcalls₂ : Extends tokens c₁.calls c₂.calls) (hc₂ : Supplies tokens c₂.rest)
      (hcombined : ∀ combined ∈ combined?, Entered tokens c₂.calls combined.expr) :
      Records tokens (do
        let arg ← g.expression (.level 0) .operand
        let node ← g.operators (.leading .fold arg (.fold map combined?) token.position) .lowest
          false
        return ⟨node, start₂, (← get).rest⟩ :: siblings₂) c₂ (HeldAll tokens) := by
    refine .bind (hg.expression _ _ c₂ hc₂) fun arg c₃ _ hcalls₃ hc₃ harg => ?_
    have hnode : Entered tokens c₃.calls
        (.leading .fold arg (.fold map combined?) token.position) := by
      refine entered_of_parts rfl (List.forall_mem_singleton.2 harg) (fun b hb n hn => ?_)
        fun combined h => ?_
      · exact (hmapped b (Option.mem_toList.1 hb) n hn).mono (hcalls₂.trans hcalls₃)
      · exact (hcombined combined (Option.mem_toList.1 h)).mono hcalls₃
    refine .bind (hg.operators _ .lowest false c₃ hc₃ hnode) fun node c₄ _ hcalls₄ hc₄ hnode' => ?_
    refine .look c₄ rfl (.pure hc₄ (List.forall_mem_cons.2 ⟨⟨hnode', hstart₂⟩, ?_⟩))
    exact hsiblings₂.mono (hcalls₂.trans (hcalls₃.trans hcalls₄))
  cases part? with
  | none => exact .look none rfl (hrest (.refl _) hc₁ (by simp))
  | some part =>
      have hcombined : Records tokens (some <$> Grammar.combinator g part token.position) c₁
          fun calls combined? => ∀ combined ∈ combined?, Entered tokens calls combined.expr :=
        .bind (hg.combinator hc₁ (haround part rfl _)) fun combined c₂ _ _ hc₂ h =>
          .pure hc₂ (by simpa using h)
      exact .bind hcombined fun _ _ _ hcalls₂ hc₂ h => hrest hcalls₂ hc₂ h

theorem freshItem (hg : Registers tokens g) (hc : Supplies tokens c.rest)
    (hsiblings : HeldAll tokens c.calls siblings) (token : Token) :
    Records tokens (Grammar.freshItem g token siblings) c (HeldAll tokens) := by
  refine .look c rfl (.bind (hg.expression _ _ c hc) fun node c₁ _ hcalls hc₁ hnode => ?_)
  refine .look c₁ rfl (.ite (fun _ => .fail _) fun _ => ?_)
  exact .pure hc₁ (List.forall_mem_cons.2 ⟨⟨hnode, hc⟩, hsiblings.mono hcalls⟩)

theorem item (hg : Registers tokens g) (hc : Supplies tokens c.rest)
    (hsiblings : HeldAll tokens c.calls siblings) (token : Token) :
    Records tokens (Grammar.item g token siblings) c (HeldAll tokens) := by
  refine .ite (fun _ => hg.fold hc hsiblings token) fun _ => ?_
  split
  · rename_i precedence previous others _
    refine .ite (fun _ => ?_) fun _ => hg.freshItem hc hsiblings token
    obtain ⟨hprevious, hothers⟩ := List.forall_mem_cons.1 hsiblings
    refine .bind (hg.operators _ .lowest true c hc hprevious.node) fun node c₁ _ hcalls hc₁ h => ?_
    refine .look c₁ rfl (.pure hc₁ (List.forall_mem_cons.2 ⟨⟨h, hprevious.start⟩, ?_⟩))
    exact HeldAll.mono hothers hcalls
  · exact hg.freshItem hc hsiblings token

theorem readItems (hg : Registers tokens g) (closer : Option String) (hc : Supplies tokens c.rest)
    (hsiblings : HeldAll tokens c.calls siblings) :
    Records tokens (Grammar.readItems g closer siblings) c (EnteredAll tokens) := by
  have hdone {c' : Cursor} (hcalls : c'.calls = c.calls) (hc' : Supplies tokens c'.rest) :
      Records tokens (Pure.pure (siblings.map (·.node)).reverse) c' (EnteredAll tokens) := by
    refine .pure hc' fun n hn => ?_
    obtain ⟨s, hs, rfl⟩ := List.mem_map.1 (List.mem_reverse.1 hn)
    rw [hcalls]
    exact (hsiblings s hs).node
  refine .look c.rest.head? rfl ?_
  split
  · exact hdone rfl hc
  refine .ite (fun _ => .skip hc fun c₁ hcalls _ hc₁ => hdone hcalls hc₁) fun _ => ?_
  refine .ite (fun _ => .skip hc fun c₁ hcalls _ hc₁ => ?_) fun _ => ?_
  · rw [← hcalls] at hsiblings
    exact hg.items closer siblings c₁ hc₁ hsiblings
  · exact .bind (hg.item hc hsiblings _) fun siblings' c₁ _ _ hc₁ hsiblings' =>
      hg.items closer siblings' c₁ hc₁ hsiblings'

end Registers

/-- The rules of every depth register definitions. -/
theorem registers_ofDepth (tokens : List Token) (D : Nat) : Registers tokens (ofDepth D) := by
  induction D with
  | zero =>
      exact ⟨fun _ _ c _ => Extends.refl c.calls, fun _ _ _ c _ _ => Extends.refl c.calls,
        fun _ _ c _ _ => Extends.refl c.calls⟩
  | succ D ih =>
      exact ⟨fun bound place _ hc => ih.readExpression bound place hc,
        fun _ bound force _ hc hleft => ih.readOperators hc hleft bound force,
        fun closer _ _ hc hsiblings => ih.readItems closer hc hsiblings⟩

/-! ## Programs -/

theorem parse_extends (tokens : List Token) (calls : CallTable) :
    Extends tokens calls (parse tokens calls).2 ∧
      ∀ program, (parse tokens calls).1 = .ok program →
        EnteredAll tokens (parse tokens calls).2 program.items := by
  have hrecords : Records tokens ((ofDepth (sufficientDepth tokens.length)).items none [])
      (.start tokens calls) (EnteredAll tokens) :=
    (registers_ofDepth tokens _).body none fun _ _ hdefines => hdefines
  unfold Records at hrecords
  -- The table that `parse` gives is that of the run, in both cases.
  rcases run_cases tokens calls with ⟨nodes, c, hrun, -⟩ | ⟨error, c, hrun⟩
  · rw [hrun] at hrecords
    rw [parse_of_ok hrun]
    refine ⟨hrecords.1, fun program hprogram => ?_⟩
    obtain rfl := Except.ok.inj hprogram
    exact hrecords.2.2
  · rw [hrun] at hrecords
    rw [parse_of_fault hrun]
    exact ⟨hrecords, fun program hprogram => by cases hprogram⟩

/-- Whether a program is read or refused, the table that comes out has all names of the table that
went in, and a name that no definition in the tokens has keeps its entry or is still absent.  If the
program is read, each definition in its tree, also inside of other definitions, blocks and
combinators, is a definition in the tokens, and the table has the number of parameters of some
definition of that name. -/
theorem parse_registers (tokens : List Token) (calls : CallTable) :
    (∀ name, (calls.find? name).isSome = true →
      ((parse tokens calls).2.find? name).isSome = true) ∧
    (∀ name, (∀ count, ¬ Defines tokens name count) →
      (parse tokens calls).2.find? name = calls.find? name) ∧
    ∀ program, (parse tokens calls).1 = .ok program → ∀ n ∈ program.items,
      ∀ name params body position, n.Contains (.define name params body position) →
        Defines tokens name params.length ∧
          ∃ count, Defines tokens name count ∧ (parse tokens calls).2.find? name = some count := by
  obtain ⟨hextends, hentered⟩ := parse_extends tokens calls
  refine ⟨fun name => hextends.isSome, fun name hnone => ?_,
    fun program hprogram n hn => hentered program hprogram n hn⟩
  rcases hextends name with hsame | ⟨count, hdefines, -⟩
  · exact hsame
  · exact absurd hdefines (hnone count)

/-- A definition in the combinator of a fold stays known though the program is refused, because the
combinator is not one expression. -/
example (p : Position) :
    let read := parse [BinaryOp.add.token p, ⟨.symbol, "(", p⟩, ⟨.name, "f", p⟩, ⟨.symbol, "(", p⟩,
      ⟨.name, "a", p⟩, ⟨.symbol, ")", p⟩, ⟨.symbol, ":=", p⟩, ⟨.name, "a", p⟩,
      ⟨.symbol, ")", p⟩, ⟨.symbol, "\\", p⟩] [("g", 2)]
    read.1.isOk = false ∧ read.2 = [("g", 2), ("f", 1)] :=
  ⟨rfl, rfl⟩

end Terse.Grammar
