import Mathlib.Tactic.Linarith
import Terse.Proofs.Totality

/-!
# The number of levels does not matter

A run that does not reach the bound on the number of levels is the same with more levels: more
levels matter only where the bound is reached.  With `Terse.Proofs.Totality` it follows that the
number of levels that `parse` takes is as good as any larger one, and that `parse` ends with a tree
of all tokens or with a syntax error.

## Strategy

`Below x y` says that the parser `x` reaches the bound or does as `y`, from every cursor.  It is a
congruence: it holds of two sequences of steps if it holds of their steps.  `Refines g h` says this
of the three rules that the rules of a grammar go through, and each lemma of `Refines` follows one
rule and shows that it keeps the relation.  So the grammar of depth `D` refines that of depth `D +
1`, by induction on `D`: with no level every rule reaches the bound at once.

That the depth `parse` takes is not short is an estimate of `levels`, which `Totality` gives in
terms of the weight of the tokens, by the square of the number of tokens.
-/

namespace Terse.Grammar

/-! ## Runs that more levels do not change -/

/-- The first run reaches the bound, or both are the same. -/
def Below {α : Type} (x y : Parse α) : Prop :=
  ∀ c, (∃ c', x c = .error .exhausted c') ∨ x c = y c

namespace Below

variable {α β : Type}

theorem refl (x : Parse α) : Below x x := fun _ => .inr rfl

theorem trans {x y z : Parse α} (hxy : Below x y) (hyz : Below y z) : Below x z := by
  intro c
  rcases hxy c with hleft | hleft
  · exact .inl hleft
  · rw [hleft]
    exact hyz c

theorem exhausted (y : Parse α) : Below (throw .exhausted) y := fun c => .inl ⟨c, rfl⟩

theorem bind {x y : Parse α} {f g : α → Parse β} (hx : Below x y) (hf : ∀ a, Below (f a) (g a)) :
    Below (x >>= f) (y >>= g) := by
  intro c
  simp only [Bind.bind, EStateM.bind]
  rcases hx c with ⟨c', hrun⟩ | hrun
  · exact .inl ⟨c', by rw [hrun]⟩
  · rw [← hrun]
    -- The first step is the same in both runs, so they part only behind it.
    cases x c with
    | ok a c' => exact hf a c'
    | error stop c' => exact .inr rfl

theorem ite {p : Prop} [Decidable p] {x x' y y' : Parse α} (hx : Below x x') (hy : Below y y') :
    Below (if p then x else y) (if p then x' else y') := by
  split
  · exact hx
  · exact hy

/-- A step that does not depend on the number of levels. -/
theorem andThen (x : Parse α) {f g : α → Parse β} (hf : ∀ a, Below (f a) (g a)) :
    Below (x >>= f) (x >>= g) :=
  bind (refl x) hf

/-- A parser that reads tokens of its own reaches the bound where the parser does. -/
theorem apart {x y : Parse α} (hx : Below x y) (tokens : List Token) (finish : Position) :
    Below (Grammar.apart tokens finish x) (Grammar.apart tokens finish y) := by
  intro c
  rcases hx ⟨tokens, finish, c.calls⟩ with ⟨c', hrun⟩ | hrun
  · exact .inl ⟨{ c with calls := c'.calls }, by simp only [Grammar.apart, hrun]⟩
  · exact .inr (by simp only [Grammar.apart, hrun])

end Below

/-- The rules of the first grammar reach the bound, or do as those of the second. -/
structure Refines (g h : Grammar) : Prop where
  expression : ∀ bound place, Below (g.expression bound place) (h.expression bound place)
  operators : ∀ left bound force,
    Below (g.operators left bound force) (h.operators left bound force)
  items : ∀ closer siblings, Below (g.items closer siblings) (h.items closer siblings)

namespace Refines

variable {g h : Grammar}

theorem refl (g : Grammar) : Refines g g :=
  ⟨fun _ _ => .refl _, fun _ _ _ => .refl _, fun _ _ => .refl _⟩

theorem trans {k : Grammar} (hgh : Refines g h) (hhk : Refines h k) : Refines g k :=
  ⟨fun _ _ => (hgh.expression _ _).trans (hhk.expression _ _),
    fun _ _ _ => (hgh.operators _ _ _).trans (hhk.operators _ _ _),
    fun _ _ => (hgh.items _ _).trans (hhk.items _ _)⟩

theorem combinator (hgh : Refines g h) (tokens : List Token) (position : Position) :
    Below (Grammar.combinator g tokens position) (Grammar.combinator h tokens position) :=
  .bind ((hgh.items none []).apart _ _) fun _ => .refl _

theorem blockBody (hgh : Refines g h) (param : String) (position : Position) :
    Below (Grammar.blockBody g param position) (Grammar.blockBody h param position) :=
  .andThen _ fun _ => .bind (hgh.items _ _) fun _ => .refl _

theorem arguments (hgh : Refines g h) (count : Nat) :
    Below (Grammar.arguments g count) (Grammar.arguments h count) := by
  induction count with
  | zero => exact .refl _
  | succ count ih =>
      refine .bind ?_ fun first => .bind ih fun _ => .refl _
      exact .andThen _ fun _ => .ite (.refl _) (hgh.expression _ _)

theorem definition (hgh : Refines g h) (name : Token) :
    Below (Grammar.definition g name) (Grammar.definition h name) :=
  .andThen _ fun _ => .andThen _ fun _ => .andThen _ fun _ =>
    .bind (hgh.expression _ _) fun _ => .refl _

theorem named (hgh : Refines g h) (name : Token) (place : Place) :
    Below (Grammar.named g name place) (Grammar.named h name place) := by
  refine .andThen _ fun _ => .andThen _ fun _ => .ite ?_ (.andThen _ fun cursor => .ite ?_ ?_)
  · exact .andThen _ fun _ => .bind (hgh.blockBody _ _) fun _ => .refl _
  · exact .bind (hgh.definition name) fun _ => .refl _
  · refine .andThen _ fun cursor => ?_
    split
    · exact .bind (hgh.arguments _) fun _ => .refl _
    · exact .refl _

theorem leading (hgh : Refines g h) (op : LeadingOp) (token : Token) :
    Below (Grammar.leading g op token) (Grammar.leading h op token) := by
  refine .andThen _ fun _ => .ite (.andThen _ fun start => ?_) ?_
  · split
    · exact .refl _
    · exact .bind (hgh.blockBody _ _) fun _ => .bind (hgh.expression _ _) fun _ => .refl _
  · exact .bind (hgh.expression _ _) fun _ => .refl _

theorem symbol (hgh : Refines g h) (token : Token) (place : Place) :
    Below (Grammar.symbol g token place) (Grammar.symbol h token place) := by
  refine .ite ?_ (.ite ?_ (.ite ?_ (.ite (.refl _) ?_)))
  · refine .andThen _ fun _ => .bind ?_ fun _ => .refl _
    exact .andThen _ fun _ => .bind (hgh.items _ _) fun _ => .refl _
  · refine .andThen _ fun _ => .bind ?_ fun _ => .refl _
    exact .andThen _ fun _ => .bind (hgh.items _ _) fun _ => .refl _
  · exact .ite (.refl _) (.andThen _ fun _ => .bind (hgh.blockBody _ _) fun _ => .refl _)
  · split
    · exact hgh.leading _ _
    · exact .refl _

theorem operand (hgh : Refines g h) (place : Place) :
    Below (Grammar.operand g place) (Grammar.operand h place) := by
  refine .andThen _ fun token => ?_
  split
  · exact .refl _
  · split
    · exact .refl _
    · exact .refl _
    · exact hgh.named _ _
    · exact hgh.symbol _ _

theorem readExpression (hgh : Refines g h) (bound : Bound) (place : Place) :
    Below (Grammar.readExpression g bound place) (Grammar.readExpression h bound place) := by
  refine .bind (hgh.operand place) fun start => ?_
  cases start with
  | closed node => exact .refl _
  | primary node => exact hgh.operators _ _ _
  | implicit node => exact hgh.operators _ _ _

theorem binary (hgh : Refines g h) (left : Node) (op : BinaryOp) (token : Token) :
    Below (Grammar.binary g left op token) (Grammar.binary h left op token) := by
  refine .ite (.andThen _ fun cursor => ?_) ?_
  -- Behind a dot stands a name with arguments; all other operators have a right operand.
  · split
    · split
      · exact .andThen _ fun _ => .bind (hgh.arguments _) fun _ => .refl _
      · exact .refl _
    · exact .refl _
  · have hzip : Below (Grammar.zipCombinator g token) (Grammar.zipCombinator h token) := by
      refine .andThen _ fun next => ?_
      split
      · refine .ite (.andThen _ fun _ => .bind (hgh.combinator _ _) fun _ => .refl _) (.refl _)
      · exact .refl _
    split
    · exact .bind hzip fun _ => .bind (hgh.expression _ _) fun _ => .refl _
    · exact .andThen _ fun _ => .bind (hgh.expression _ _) fun _ => .refl _

theorem readOperators (hgh : Refines g h) (left : Node) (bound : Bound) (force : Bool) :
    Below (Grammar.readOperators g left bound force)
      (Grammar.readOperators h left bound force) := by
  refine .andThen _ fun token => ?_
  split
  · exact .refl _
  · refine .ite ?_ (.refl _)
    split
    · refine .ite (.andThen _ fun _ => .bind (hgh.binary _ _ _) fun _ => ?_) (.refl _)
      exact hgh.operators _ _ _
    · split
      · exact .ite (.andThen _ fun _ => .andThen _ fun _ => hgh.operators _ _ _) (.refl _)
      · exact .refl _

theorem item (hgh : Refines g h) (token : Token) (siblings : List Sibling) :
    Below (Grammar.item g token siblings) (Grammar.item h token siblings) := by
  have hfresh : Below (Grammar.freshItem g token siblings) (Grammar.freshItem h token siblings) :=
    .andThen _ fun _ => .bind (hgh.expression _ _) fun _ => .refl _
  refine .ite ?_ ?_
  · unfold Grammar.fold
    refine .andThen _ fun cursor => ?_
    -- What a fold takes from the items before it does not depend on the grammar.
    rcases takeMap cursor.rest siblings with ⟨map, start₁, siblings₁⟩
    dsimp only
    rcases takeCombinator start₁ siblings₁ with ⟨tokens, start₂, siblings₂⟩
    refine .andThen _ fun _ => ?_
    cases tokens with
    | none =>
        refine .andThen _ fun _ => .bind (hgh.expression _ _) fun _ => ?_
        exact .bind (hgh.operators _ _ _) fun _ => .refl _
    | some tokens =>
        refine .bind (.bind (hgh.combinator _ _) fun _ => .refl _) fun _ => ?_
        exact .bind (hgh.expression _ _) fun _ => .bind (hgh.operators _ _ _) fun _ => .refl _
  · split
    · refine .ite (.bind (hgh.operators _ _ _) fun _ => .refl _) hfresh
    · exact hfresh

theorem readItems (hgh : Refines g h) (closer : Option String) (siblings : List Sibling) :
    Below (Grammar.readItems g closer siblings) (Grammar.readItems h closer siblings) := by
  refine .andThen _ fun token => ?_
  split
  · exact .refl _
  · refine .ite (.refl _) (.ite (.andThen _ fun _ => hgh.items _ _) ?_)
    exact .bind (hgh.item _ _) fun _ => hgh.items _ _

end Refines

/-- One level more changes only runs that reach the bound. -/
theorem ofDepth_refines_succ (D : Nat) : Refines (ofDepth D) (ofDepth (D + 1)) := by
  induction D with
  | zero => exact ⟨fun _ _ => .exhausted _, fun _ _ _ => .exhausted _, fun _ _ => .exhausted _⟩
  | succ D ih => exact ⟨ih.readExpression, ih.readOperators, ih.readItems⟩

theorem ofDepth_refines_add (D extra : Nat) : Refines (ofDepth D) (ofDepth (D + extra)) := by
  induction extra with
  | zero => exact .refl _
  | succ extra ih => exact ih.trans (ofDepth_refines_succ (D + extra))

/-! ## The depth suffices -/

/-- The state of the parser in front of a whole program. -/
def Cursor.start (tokens : List Token) (calls : CallTable) : Cursor :=
  ⟨tokens, (tokens.getLast?.map (·.position)).getD .start, calls⟩

/-- The depth that is taken for a number of tokens is more than they need. -/
theorem levels_le_sufficientDepth (tokens : List Token) :
    levels (weight tokens) + weight tokens + 2 ≤ sufficientDepth tokens.length := by
  have hweight := weight_le_length tokens
  have hlevels := levels_mono hweight
  have htwice := two_mul_levels (3 * tokens.length)
  unfold sufficientDepth
  nlinarith

/-- With the depth that is taken, a run ends with a derivation or with a syntax error. -/
theorem run_cases (tokens : List Token) (calls : CallTable) :
    (∃ nodes c, (ofDepth (sufficientDepth tokens.length)).items none [] (.start tokens calls) =
        .ok nodes c ∧ Reads (.items none [] nodes) (.start tokens calls) c) ∨
      ∃ error c, (ofDepth (sufficientDepth tokens.length)).items none [] (.start tokens calls) =
        .error (.fault error) c := by
  -- There are no items in front of the first token.
  have hspans : Spans [] tokens (weight tokens) := ⟨Nat.le_refl _, by simp⟩
  have hmeets :=
    (serves (sufficientDepth tokens.length)).items none [] (.start tokens calls) _ hspans
  have hdepth := levels_le_sufficientDepth tokens
  unfold Meets at hmeets
  split at hmeets
  · rename_i nodes c hrun
    exact .inl ⟨nodes, c, hrun, hmeets⟩
  · rename_i error c hrun
    exact .inr ⟨error, c, hrun⟩
  · exact absurd hmeets (Nat.not_lt.2 hdepth)
  · exact hmeets.elim

/-- Items that no bracket closes end with the tokens. -/
theorem Reads.rest_eq_nil {reading : Reading} {c c' : Cursor} (h : Reads reading c c') :
    ∀ siblings nodes, reading = .items none siblings nodes → c'.rest = [] := by
  induction h with
  | done => exact fun _ _ _ => rfl
  | comma _ _ _ ih =>
      rintro siblings nodes heq
      exact ih siblings nodes heq
  | next _ _ _ _ _ ih =>
      rintro siblings nodes heq
      cases heq
      exact ih _ _ rfl
  | _ =>
      rintro siblings nodes heq
      cases heq

theorem parse_of_ok {tokens : List Token} {calls : CallTable} {nodes : List Node} {c : Cursor}
    (hrun : (ofDepth (sufficientDepth tokens.length)).items none [] (.start tokens calls) =
      .ok nodes c) :
    parse tokens calls = (.ok ⟨nodes, (Cursor.start tokens calls).position⟩, c.calls) := by
  have hposition : (tokens.head?.map (·.position)).getD .start =
      (Cursor.start tokens calls).position := by
    cases tokens <;> rfl
  rw [← hposition]
  unfold Cursor.start at hrun
  simp only [parse, hrun]

theorem parse_of_fault {tokens : List Token} {calls : CallTable} {error : SyntaxError} {c : Cursor}
    (hrun : (ofDepth (sufficientDepth tokens.length)).items none [] (.start tokens calls) =
      .error (.fault error) c) :
    parse tokens calls = (.error (.fault error), c.calls) := by
  unfold Cursor.start at hrun
  simp only [parse, hrun]

/-- What follows a dot has one argument more than are read behind it. -/
theorem callTarget_cases {D : Nat} {left node : Node} {dot : Token} {c c' : Cursor}
    (h : callTarget (ofDepth D) left dot c = .ok node c') :
    ∃ name args namePosition, node = .binary .call left (.call name args namePosition) .none
      dot.position ∧ c.calls.find? name = some (args.length + 1) := by
  obtain ⟨rest, finish, calls⟩ := c
  obtain ⟨name, args, namePosition, tokens, -, hnode, hname, -⟩ :=
    ((serves D).callTarget (Nat.lt_succ_self (weight rest))).of_ok h
  exact ⟨name, args, namePosition, hnode, hname⟩

/-- Where a block starts, the token before what is left is its brace. -/
theorem blockStart?_cases {c c' : Cursor} {param : String} {brace : Position}
    (h : blockStart? c = .ok (some (param, brace)) c') :
    ∃ before, c.rest = before ++ ⟨.symbol, "\x7b", brace⟩ :: c'.rest := by
  obtain ⟨rest, finish, calls⟩ := c
  obtain ⟨naming, tokens, hrest, rfl, -⟩ :=
    (blockStart?_meets False rest).of_ok h param brace rfl
  exact ⟨naming, hrest⟩

/-! ## Every run ends -/

/-- Reading a program ends with all tokens read or with a syntax error, and with more levels it ends
in the same way.  Neither are more brackets closed than opened while looking for the head of a
definition, nor has a function behind a dot fewer arguments than its left operand, nor does a block
start without a brace. -/
theorem parse_ends (tokens : List Token) (calls : CallTable) (extra : Nat) :
    ((∃ nodes c, (ofDepth (sufficientDepth tokens.length + extra)).items none []
          (.start tokens calls) = .ok nodes c ∧ c.rest = [] ∧
        parse tokens calls = (.ok ⟨nodes, (Cursor.start tokens calls).position⟩, c.calls)) ∨
      ∃ error c, (ofDepth (sufficientDepth tokens.length + extra)).items none []
          (.start tokens calls) = .error (.fault error) c ∧
        parse tokens calls = (.error (.fault error), c.calls)) ∧
    (∀ opening rest, closesIntoDefinition 0 (⟨.symbol, "(", opening⟩ :: rest) ≠ none) ∧
    (∀ D left dot c node c', callTarget (ofDepth D) left dot c = .ok node c' →
      ∃ name args namePosition, node = .binary .call left (.call name args namePosition) .none
        dot.position ∧ c.calls.find? name = some (args.length + 1)) ∧
    ∀ c param brace c', blockStart? c = .ok (some (param, brace)) c' →
      ∃ before, c.rest = before ++ ⟨.symbol, "\x7b", brace⟩ :: c'.rest := by
  -- Neither end of the run with the depth of `parse` is the bound, so more levels give the same
  -- one.
  have hmore := (ofDepth_refines_add (sufficientDepth tokens.length) extra).items none []
    (.start tokens calls)
  refine ⟨?_, fun _ rest => closesIntoDefinition_ne_none 0 rest,
    fun _ _ _ _ _ _ => callTarget_cases, fun _ _ _ _ => blockStart?_cases⟩
  rcases run_cases tokens calls with ⟨nodes, c, hrun, hreads⟩ | ⟨error, c, hrun⟩
  · left
    refine ⟨nodes, c, ?_, hreads.rest_eq_nil _ _ rfl, parse_of_ok hrun⟩
    rcases hmore with ⟨c', hexhausted⟩ | hsame
    · rw [hrun] at hexhausted
      cases hexhausted
    · rw [← hsame, hrun]
  · right
    refine ⟨error, c, ?_, parse_of_fault hrun⟩
    rcases hmore with ⟨c', hexhausted⟩ | hsame
    · rw [hrun] at hexhausted
      cases hexhausted
    · rw [← hsame, hrun]

end Terse.Grammar
