import Mathlib.Logic.Relation
import Terse.Proofs.Operators
import Terse.Proofs.Runs

/-!
# What evaluation leaves alone in a scope

Blocks, combinators and functions run in a copy of the scope around them, and the outer scope takes
over what the copy says about names that both of them bind, parameters excepted.  So a node can
change only the variables that an operator in it, or in a function that it may call, assigns to; and
it can bind new variables only by operators that stand outside of all inner scopes.

`Respects D R run` collects what a relation between scopes has to satisfy so that all honest
computations that follow the discipline `D` stay within it.  The two parts of the last theorem are
two such relations, each with a discipline that says where a variable is not assigned to.

## Strategy

* `Honest.stays` is the induction over honest computations: a relation that each step respects is
  respected by the whole run, however it ends.  `nested_respects` is the induction on the depth of
  nesting.
* New variables: `StaysUnbound` holds of whatever runs in an inner scope, so the discipline
  `avoidingOutside` says nothing about blocks, combinators and functions.
* Old variables: `Keeps` also says that no function of the scope assigns to the variable, because a
  call may run any function of the scope, and definitions add new ones.

The parameters of an inner scope may have the name of the variable.  Then the inner scope does not
keep its value, but the outer scope does not take it over either (`keeps_inChild`).
-/

namespace Terse

namespace Node

/-- The nodes that stand directly in a node, in whatever scope they are evaluated. -/
def children (n : Node) : List Node :=
  n.operands ++ n.blocks.flatMap (·.body.items) ++ n.combinators.map (·.expr) ++
    n.definition?.toList.map (·.body)

/-- A node stands somewhere in another, which may be the node itself. -/
def Contains : Node → Node → Prop := Relation.ReflTransGen fun n m => m ∈ n.children

/-- A node stands in another outside of every block, function body and combinator. -/
def ContainsOutside : Node → Node → Prop := Relation.ReflTransGen fun n m => m ∈ n.operands

/-- What a node evaluates stands in it outside of every inner scope. -/
theorem containsOutside_of_mem_evaluated {n m : Node} (hm : m ∈ n.evaluated) :
    n.ContainsOutside m := by
  unfold evaluated at hm
  split at hm
  · rename_i left name args callPosition extra position
    rcases List.mem_cons.1 hm with rfl | hm
    · exact .single List.mem_cons_self
    · exact .head (List.mem_cons_of_mem _ List.mem_cons_self) (.single hm)
  · exact .single hm

theorem ContainsOutside.contains {n m : Node} (h : n.ContainsOutside m) : n.Contains m := by
  induction h with
  | refl => exact .refl
  | tail _ hstep ih => exact Relation.ReflTransGen.tail ih (by simp [children, hstep])

theorem contains_of_mem_block {n m : Node} {b : Block} (hb : b ∈ n.blocks)
    (hm : m ∈ b.body.items) : n.Contains m := by
  refine .single ?_
  simp only [children, List.mem_append, List.mem_flatMap]
  exact .inl (.inl (.inr ⟨b, hb, hm⟩))

theorem contains_of_mem_combinators {n : Node} {c : Combinator} (hc : c ∈ n.combinators) :
    n.Contains c.expr := by
  refine .single ?_
  simp only [children, List.mem_append, List.mem_map]
  exact .inl (.inr ⟨c, hc, rfl⟩)

theorem contains_of_define (name : String) (params : List Param) (body : Node)
    (position : Position) : (Node.define name params body position).Contains body := by
  refine .single ?_
  simp only [children, List.mem_append, List.mem_map, Option.mem_toList]
  exact .inr ⟨_, rfl, rfl⟩

/-- Nothing in a node assigns to a variable. -/
def Avoids (x : String) (n : Node) : Prop := ∀ m, n.Contains m → m.target? ≠ some x

/-- Nothing in a node assigns to a variable, inner scopes apart. -/
def AvoidsOutside (x : String) (n : Node) : Prop := ∀ m, n.ContainsOutside m → m.target? ≠ some x

theorem avoids_iff {x : String} {n : Node} :
    n.Avoids x ↔ n.target? ≠ some x ∧ ∀ m ∈ n.children, m.Avoids x := by
  constructor
  · exact fun h => ⟨h n .refl, fun m hm m' hcontains => h m' (.head hm hcontains)⟩
  · rintro ⟨htarget, hchildren⟩ m hcontains
    rcases Relation.ReflTransGen.cases_head hcontains with rfl | ⟨child, hchild, hcontains⟩
    · exact htarget
    · exact hchildren child hchild m hcontains

theorem Avoids.contains {x : String} {n m : Node} (h : n.Avoids x) (hm : n.Contains m) :
    m.Avoids x :=
  fun m' hm' => h m' (hm.trans hm')

end Node

namespace Discipline

/-- Nothing that may run assigns to a variable. -/
def avoiding (x : String) : Discipline where
  node n := n.Avoids x
  block b := ∀ n ∈ b.body.items, n.Avoids x
  combinator c := c.expr.Avoids x
  function _ f := f.body.Avoids x
  target name := name ≠ x
  generator _ := True
  call _ _ := True
  error _ := True

theorem avoiding_closed (x : String) : (avoiding x).Closed where
  operand hn hm := hn.contains (Node.containsOutside_of_mem_evaluated hm).contains
  block hn hb _ hm := hn.contains (Node.contains_of_mem_block hb hm)
  combinator hn hc := hn.contains (Node.contains_of_mem_combinators hc)
  function hn := hn.contains (Node.contains_of_define _ _ _ _)
  target {n _} hn hy := fun heq => hn n .refl (heq ▸ hy)
  generator _ _ := trivial
  call _ := trivial
  dot _ := trivial
  noBlock _ _ := trivial

/-- Nothing that may run in the scope itself assigns to a variable. -/
def avoidingOutside (x : String) : Discipline where
  node n := n.AvoidsOutside x
  block _ := True
  combinator _ := True
  function _ _ := True
  target name := name ≠ x
  generator _ := True
  call _ _ := True
  error _ := True

theorem avoidingOutside_closed (x : String) : (avoidingOutside x).Closed where
  operand hn hm := fun m' hcontains =>
    hn m' ((Node.containsOutside_of_mem_evaluated hm).trans hcontains)
  block _ _ := trivial
  combinator _ _ := trivial
  function _ := trivial
  target {n _} hn hy := fun heq => hn n .refl (heq ▸ hy)
  generator _ _ := trivial
  call _ := trivial
  dot _ := trivial
  noBlock _ _ := trivial

end Discipline

/-! ## Relations between scopes -/

/-- What a relation between the scopes before and after a computation has to satisfy. -/
structure Respects (D : Discipline) (R : Scope → Scope → Prop) (run : Evaluator) : Prop where
  refl : ∀ scope, R scope scope
  trans : ∀ {scope scope' scope''}, R scope scope' → R scope' scope'' → R scope scope''
  assign : ∀ scope {name} v, D.target name → R scope (scope.set name v)
  define : ∀ scope name {f}, D.function name f → R scope (scope.define name f)
  node : ∀ {n}, D.node n → ∀ settings M, R M.scope (Eval.final (run n) settings M).scope
  block : ∀ {b}, D.block b → ∀ v settings M,
    R M.scope (Eval.final (Eval.applyBlock run b v) settings M).scope
  combinator : ∀ {c}, D.combinator c → ∀ v w settings M,
    R M.scope (Eval.final (Eval.applyCombinator run c v w) settings M).scope
  invoke : ∀ name values position settings M,
    R M.scope (Eval.final (Eval.invoke run name values position) settings M).scope

/-- A run stays within a relation between scopes, and its result satisfies `P`. -/
structure Stays (R : Scope → Scope → Prop) (settings : Settings) (M : Machine) {α : Type}
    (x : Eval α) (P : α → Prop) : Prop where
  scope : R M.scope (Eval.final x settings M).scope
  result : ∀ a M', x settings M = .ok a M' → P a

theorem Stays.bind {R : Scope → Scope → Prop} {settings : Settings} {M : Machine} {α β : Type}
    {x : Eval α} {f : α → Eval β} {P : α → Prop} {Q : β → Prop}
    (htrans : ∀ {scope scope' scope''}, R scope scope' → R scope' scope'' → R scope scope'')
    (hx : Stays R settings M x P) (hf : ∀ a M', P a → Stays R settings M' (f a) Q) :
    Stays R settings M (x >>= f) Q := by
  -- The relation is transitive, and a run that fails ends with its first step.
  have hfirst := hx.scope
  cases hrun : x settings M with
  | ok a M' =>
      have hrest := hf a M' (hx.result a M' hrun)
      rw [Eval.final_ok hrun] at hfirst
      refine ⟨?_, fun b M'' hboth => hrest.result b M'' ?_⟩
      · rw [Eval.final_bind_ok hrun]
        exact htrans hfirst hrest.scope
      · rwa [Eval.bind_ok hrun] at hboth
  | error halt M' =>
      rw [Eval.final_error hrun] at hfirst
      refine ⟨?_, fun b M'' hboth => ?_⟩
      · rwa [Eval.final_bind_error hrun]
      · rw [Eval.bind_error hrun] at hboth
        cases hboth

/-- An honest computation stays within a relation that its steps respect.  Values do not matter, so
all of them are known; the results have to satisfy `P` all the same, because what is run next may
depend on them. -/
theorem Honest.stays {D : Discipline} {R : Scope → Scope → Prop} {run : Evaluator} {α : Type}
    {K : Knowledge} {x : Evaluator → Eval α} {P : Knowledge → α → Prop} (hR : Respects D R run)
    (hx : Honest D K x P) (hK : ∀ v, K.has v) (settings : Settings) (M : Machine) :
    Stays R settings M (x run) (P K) := by
  induction hx generalizing M with
  | @pure _ K a P ha =>
      refine ⟨hR.refl _, fun b M' hrun => ?_⟩
      cases hrun
      exact ha
  | bind _ _ ihx ihf =>
      exact .bind hR.trans (ihx hK M) fun a M' ha => ihf _ a (le_refl _) ha hK M'
  | weaken _ himp ih =>
      obtain ⟨hscope, ha⟩ := ih hK M
      exact ⟨hscope, fun a M' hrun => himp _ a (le_refl _) (ha a M' hrun)⟩
  | fail _ | exhaust => exact ⟨hR.refl _, fun _ _ h => by cases h⟩
  | settings | current _ | makeSequence _ _ => exact ⟨hR.refl _, fun _ _ _ => hK _⟩
  | readVariable name position =>
      refine ⟨?_, fun _ _ _ => hK _⟩
      cases hget : M.scope.get? M.lookback name with
      | none =>
          rw [Eval.final_error (Eval.readVariable_error hget)]
          exact hR.refl _
      | some result =>
          rw [Eval.final_ok (Eval.readVariable_ok hget)]
          exact hR.refl _
  | assign hname _ => exact ⟨hR.assign _ _ hname, fun _ _ _ => trivial⟩
  | define hfunction => exact ⟨hR.define _ _ hfunction, fun _ _ _ => trivial⟩
  | writeLine text =>
      refine ⟨?_, fun _ _ _ => trivial⟩
      obtain ⟨output, -, hrun | ⟨-, hrun⟩⟩ := Eval.writeLine_cases settings M text
      · rw [Eval.final_ok hrun]
        exact hR.refl _
      · rw [Eval.final_error hrun]
        exact hR.refl _
  | node hn => exact ⟨hR.node hn settings M, fun _ _ _ => hK _⟩
  | block hb _ => exact ⟨hR.block hb _ settings M, fun _ _ _ => hK _⟩
  | combinator hc _ _ => exact ⟨hR.combinator hc _ _ settings M, fun _ _ _ => hK _⟩
  | invoke name position _ _ => exact ⟨hR.invoke name _ position settings M, fun _ _ _ => hK _⟩
  | @element K s index _ =>
      -- A generator runs in the scope of its sequence, so the scope here is not touched at all.
      refine ⟨?_, fun _ _ _ _ _ => hK _⟩
      rw [(Eval.elementAt_samePlace run settings M s index).scope]
      exact hR.refl _

/-- Everything is known. -/
def Knowledge.everything : Knowledge :=
  ⟨fun _ => True, fun _ => trivial, fun _ _ => trivial, ⟨fun _ _ _ => trivial, fun _ => trivial⟩⟩

/-- A relation that is respected at every depth, if it is at the depths below, relates the scopes
before and after the evaluation of a node. -/
theorem nested_respects {D : Discipline} {R : Scope → Scope → Prop} (hD : D.Closed)
    (hrefl : ∀ scope, R scope scope)
    (hR : ∀ run, (∀ {n}, D.node n → ∀ settings M,
      R M.scope (Eval.final (run n) settings M).scope) → Respects D R run)
    (d : Nat) {n : Node} (hn : D.node n) (settings : Settings) (M : Machine) :
    R M.scope (Eval.final (Eval.nested d n) settings M).scope := by
  induction d generalizing n settings M with
  | zero => exact hrefl _
  | succ d ih =>
      have heval : Honest D .everything (fun run => Eval.node run n) Knowledge.has := .eval hD hn
      exact (heval.stays (hR (Eval.nested d) ih) (fun _ => trivial) settings M).scope

/-! ## New variables -/

/-- A variable that is not bound stays so. -/
def StaysUnbound (x : String) (scope scope' : Scope) : Prop :=
  scope.lookup x = none → scope'.lookup x = none

/-- Whatever runs in an inner scope, the outer scope gets no new variables from it. -/
theorem staysUnbound_inChild (x : String) (settings : Settings) (M : Machine) (inner : Scope)
    (excluded : List String) {α : Type} (step : Eval α) :
    StaysUnbound x M.scope (Eval.final (Eval.inChild inner excluded step) settings M).scope := by
  intro hunbound
  rcases Eval.scope_final_inChild settings M inner excluded step with hsame | hmerged
  · rw [hsame, hunbound]
  · rw [hmerged, Scope.lookup_merge, hunbound, Option.map_none]

theorem respects_staysUnbound (x : String) (run : Evaluator)
    (hrun : ∀ {n : Node}, n.AvoidsOutside x → ∀ settings M,
      StaysUnbound x M.scope (Eval.final (run n) settings M).scope) :
    Respects (.avoidingOutside x) (StaysUnbound x) run where
  refl _ := id
  trans h h' := h' ∘ h
  assign scope name v hname hunbound := by
    rw [Scope.lookup_set, if_neg (Ne.symm hname), hunbound]
  define _ _ _ _ hunbound := hunbound
  node := hrun
  block _ _ _ _ := staysUnbound_inChild x _ _ _ _ _
  combinator _ _ _ _ _ := staysUnbound_inChild x _ _ _ _ _
  invoke name values position settings M := by
    rcases Eval.scope_final_invoke run settings M name values position with hsame | ⟨f, -, hcall⟩
    · rw [hsame]
      exact id
    · rw [hcall]
      exact staysUnbound_inChild x _ _ _ _ _

/-! ## Variables that are not assigned to -/

/-- No function of a scope assigns to a variable. -/
def Scope.FunctionsAvoid (x : String) (scope : Scope) : Prop :=
  ∀ name f, scope.function? name = some f → f.body.Avoids x

/-- If no function assigns to a variable, it has the value it had, and no function assigns to it
still. -/
def Keeps (x : String) (scope scope' : Scope) : Prop :=
  scope.FunctionsAvoid x → scope'.FunctionsAvoid x ∧ scope'.lookup x = scope.lookup x

namespace Scope

theorem functionsAvoid_define {x : String} {scope : Scope} (h : scope.FunctionsAvoid x)
    (name : String) {f : Function} (hf : f.body.Avoids x) :
    (scope.define name f).FunctionsAvoid x :=
  Bindings.forall_insert h hf

theorem functionsAvoid_merge {x : String} {scope inner : Scope} (h : scope.FunctionsAvoid x)
    (hinner : inner.FunctionsAvoid x) (excluded : List String) :
    (scope.merge inner excluded).FunctionsAvoid x :=
  Bindings.forall_update h hinner excluded

theorem function?_setAll (scope : Scope) (values : List (String × Value)) (name : String) :
    (scope.setAll values).function? name = scope.function? name := by
  induction values generalizing scope with
  | nil => rfl
  | cons first rest ih => exact ih (scope.set first.1 first.2)

theorem lookup_setAll_of_notMem {x : String} {values : List (String × Value)}
    (hx : ∀ b ∈ values, b.1 ≠ x) (scope : Scope) :
    (scope.setAll values).lookup x = scope.lookup x := by
  induction values generalizing scope with
  | nil => rfl
  | cons first rest ih =>
      have hrest := ih (fun b hb => hx b (List.mem_cons_of_mem _ hb)) (scope.set first.1 first.2)
      have hfirst : x ≠ first.1 := (hx first List.mem_cons_self).symm
      calc ((scope.set first.1 first.2).setAll rest).lookup x
          = (scope.set first.1 first.2).lookup x := hrest
        _ = scope.lookup x := by rw [lookup_set, if_neg hfirst]

/-- A variable that an inner scope has kept, or that is left out, keeps its value in the outer
scope. -/
theorem lookup_merge_of_kept {x : String} {scope inner : Scope} {excluded : List String}
    (hkept : x ∉ excluded → inner.lookup x = scope.lookup x) :
    (scope.merge inner excluded).lookup x = scope.lookup x := by
  rw [lookup_merge]
  cases hx : scope.lookup x with
  | none => rfl
  | some v =>
      by_cases hexcluded : x ∈ excluded
      · simp [hexcluded]
      · simp [hexcluded, hkept hexcluded, hx]

end Scope

/-- A step in an inner scope keeps a variable of the outer one, if the step keeps it, and the inner
scope differs only in variables that the outer one does not take over. -/
theorem keeps_inChild {x : String} {settings : Settings} {M : Machine} {inner : Scope}
    {excluded : List String} {α : Type} {step : Eval α}
    (hfunctions : ∀ name, inner.function? name = M.scope.function? name)
    (hlookup : x ∉ excluded → inner.lookup x = M.scope.lookup x)
    (hstep : ∀ M', Keeps x M'.scope (Eval.final step settings M').scope) :
    Keeps x M.scope (Eval.final (Eval.inChild inner excluded step) settings M).scope := by
  intro havoid
  rcases Eval.scope_final_inChild settings M inner excluded step with hsame | hmerged
  · rw [hsame]
    exact ⟨havoid, rfl⟩
  · have hinner : inner.FunctionsAvoid x := fun name f hf => havoid name f (hfunctions name ▸ hf)
    obtain ⟨hafter, hkept⟩ := hstep { M with scope := inner } hinner
    rw [hmerged]
    exact ⟨Scope.functionsAvoid_merge havoid hafter excluded,
      Scope.lookup_merge_of_kept fun hx => hkept.trans (hlookup hx)⟩

section

variable {x : String} {run : Evaluator}
  (hrun : ∀ {n : Node}, n.Avoids x → ∀ settings M,
    Keeps x M.scope (Eval.final (run n) settings M).scope)

theorem Keeps.refl (scope : Scope) : Keeps x scope scope := fun havoid => ⟨havoid, rfl⟩

theorem Keeps.trans {scope scope' scope'' : Scope} (h : Keeps x scope scope')
    (h' : Keeps x scope' scope'') : Keeps x scope scope'' := by
  intro havoid
  obtain ⟨havoid', hlookup⟩ := h havoid
  obtain ⟨havoid'', hlookup'⟩ := h' havoid'
  exact ⟨havoid'', hlookup'.trans hlookup⟩

include hrun

theorem keeps_program {body : Program} (hbody : ∀ n ∈ body.items, n.Avoids x)
    (settings : Settings) (M : Machine) :
    Keeps x M.scope (Eval.final (Eval.program run body) settings M).scope := by
  -- Generalized to the value of the last node, which the next one does not see.
  suffices h : ∀ nodes last M, (∀ n ∈ nodes, n.Avoids x) →
      Stays (Keeps x) settings M (Eval.items run nodes last) fun _ => True from
    (h body.items .empty M hbody).scope
  intro nodes
  induction nodes with
  | nil => exact fun _ _ _ => ⟨.refl _, fun _ _ _ => trivial⟩
  | cons n rest ih =>
      intro last M hnodes
      obtain ⟨hn, hrest⟩ := List.forall_mem_cons.1 hnodes
      exact .bind Keeps.trans ⟨hrun hn settings M, fun _ _ _ => trivial⟩ fun v M' _ =>
        ih v M' hrest

theorem respects_keeps : Respects (.avoiding x) (Keeps x) run where
  refl := .refl
  trans := .trans
  assign scope name v hname havoid :=
    ⟨havoid, by rw [Scope.lookup_set, if_neg (Ne.symm hname)]⟩
  define scope name f hf havoid := ⟨Scope.functionsAvoid_define havoid name hf, rfl⟩
  node := hrun
  block {b} hb v settings M := by
    refine keeps_inChild (fun _ => rfl) (fun hx => ?_) (keeps_program hrun hb settings)
    rw [Scope.lookup_set, if_neg (by simpa using hx)]
  combinator {c} hc v w settings M := by
    refine keeps_inChild (fun _ => rfl) (fun hx => ?_) (hrun hc settings)
    obtain ⟨hleft, hright⟩ : x ≠ leftName ∧ x ≠ rightName := by simpa using hx
    rw [Scope.lookup_set, if_neg hright, Scope.lookup_set, if_neg hleft]
  invoke name values position settings M := by
    intro havoid
    rcases Eval.scope_final_invoke run settings M name values position with hsame | ⟨f, hf, hcall⟩
    · rw [hsame]
      exact ⟨havoid, rfl⟩
    · rw [hcall]
      -- The parameters are what the outer scope does not take over, whether they are named `x`
      -- or not; the body belongs to a function of the scope.
      refine keeps_inChild (Scope.function?_setAll _ _) (fun hx => ?_)
        (hrun (havoid name f hf) settings) havoid
      refine Scope.lookup_setAll_of_notMem ?_ _
      rintro ⟨param, v⟩ hparam rfl
      exact hx (List.of_mem_zip hparam).1

end

/-- What the evaluation of a node does to a variable of the scope, however it ends.  If neither the
node nor a function of the scope assigns to the variable, it has the value it had, or is not bound
as before; this holds for parameters of blocks and functions too.  If it was not bound and is now,
the node assigns to it outside of every block, function body and combinator. -/
theorem lookup_nested (settings : Settings) (M : Machine) (d : Nat) (n : Node) (x : String) :
    ((∀ m, n.Contains m → m.target? ≠ some x) →
      (∀ name f, M.scope.function? name = some f →
        ∀ m, f.body.Contains m → m.target? ≠ some x) →
      (Eval.final (Eval.nested d n) settings M).scope.lookup x = M.scope.lookup x) ∧
    (M.scope.lookup x = none →
      (Eval.final (Eval.nested d n) settings M).scope.lookup x ≠ none →
      ∃ m, n.ContainsOutside m ∧ m.target? = some x) := by
  refine ⟨fun hnode hfunctions => ?_, fun hunbound hbound => ?_⟩
  · have hkeeps : Keeps x M.scope (Eval.final (Eval.nested d n) settings M).scope :=
      nested_respects (Discipline.avoiding_closed x) Keeps.refl (fun _ => respects_keeps) d hnode
        settings M
    exact (hkeeps hfunctions).2
  -- Were there no such node, the variable would still be unbound.
  · by_contra hnone
    have havoids : n.AvoidsOutside x := fun m hm htarget => hnone ⟨m, hm, htarget⟩
    have hstays : StaysUnbound x M.scope (Eval.final (Eval.nested d n) settings M).scope :=
      nested_respects (Discipline.avoidingOutside_closed x) (fun _ => id)
        (respects_staysUnbound x) d havoids settings M
    exact hbound (hstays hunbound)

namespace Assigning

/-- An assignment of a text to `z`. -/
def outer : Node := .binary .assign (.var "z" .start) (.text "a" .double .start) .none .start

/-- A block that assigns its parameter `x` to `y`. -/
def inner : Node :=
  .block ⟨"x", ⟨[.binary .assign (.var "y" .start) (.var "x" .start) .none .start], .start⟩, .start⟩

def node : Node := .group ⟨[outer, inner], .start⟩ .start

/-- The machine that binds `x` and nothing else. -/
def start : Machine := { Machine.blank with scope := Scope.empty.set "x" (.text "b") }

theorem avoids_node : node.Avoids "x" := by
  have hleaf : ∀ n : Node, n.target? = none → n.children = [] → n.Avoids "x" := by
    intro n htarget hchildren
    rw [Node.avoids_iff, htarget, hchildren]
    exact ⟨nofun, nofun⟩
  have hpair : ∀ n left right : Node, n.target? ≠ some "x" → n.children = [left, right] →
      left.Avoids "x" → right.Avoids "x" → n.Avoids "x" := by
    intro n left right htarget hchildren hleft hright
    rw [Node.avoids_iff, hchildren]
    exact ⟨htarget, List.forall_mem_cons.2 ⟨hleft, List.forall_mem_singleton.2 hright⟩⟩
  have houter : outer.Avoids "x" :=
    hpair outer _ _ (by simp [outer, Node.target?]) rfl (hleaf _ rfl rfl) (hleaf _ rfl rfl)
  have hinner : inner.Avoids "x" := by
    refine Node.avoids_iff.2 ⟨by simp [inner, Node.target?], List.forall_mem_singleton.2 ?_⟩
    exact hpair _ _ _ (by simp [Node.target?]) rfl (hleaf _ rfl rfl) (hleaf _ rfl rfl)
  exact hpair node _ _ (by simp [node, Node.target?]) rfl houter hinner

/-- The block runs with another `x`, which is gone afterwards; `z` is new, and is assigned to
outside of the block. -/
theorem lookup_final :
    (Eval.final (Eval.nested 4 node) .small start).scope.lookup "x" = some (.text "b") ∧
      ∃ m, node.ContainsOutside m ∧ m.target? = some "z" := by
  have hfunctions : start.scope.FunctionsAvoid "x" := by
    intro name f hf
    have hnone : start.scope.function? name = none := rfl
    rw [hnone] at hf
    cases hf
  have hbound : (Eval.final (Eval.nested 4 node) .small start).scope.lookup "z" ≠ none := by
    have hvalue : (Eval.final (Eval.nested 4 node) .small start).scope.lookup "z" =
        some (.text "a") := by rfl
    simp [hvalue]
  exact ⟨(lookup_nested .small start 4 node "x").1 avoids_node hfunctions,
    (lookup_nested .small start 4 node "z").2 (by rfl) hbound⟩

end Assigning

end Terse
