import Mathlib.Order.Basic
import Terse.Evaluation.Node

/-!
# Honest computations

The evaluator is large, but it touches the machine in few ways: it reads and binds variables,
defines functions, writes lines, makes sequences, asks for elements, and evaluates nodes, blocks,
combinators and calls.  A computation is *honest* if it is put together from these and uses only
values that it was given.

What is proved of honest computations is proved once for each way of touching the machine, and then
holds of every operator.  Computations are functions of the evaluator that they run nodes with, so
that one derivation speaks about the computation at all depths of nesting.

* `Knowledge` is the set of values that a computation may use at some point.
* `Discipline` is what the computation may do with syntax: which nodes, blocks and combinators it
  may run, which variables and functions it may bind, and which functions it may call with how many
  arguments.
* `Honest D K x P` says that `x`, knowing `K`, follows `D` and ends in results that satisfy `P`.

That the evaluation of every node is honest is shown in `Terse.Proofs.Operators` (`Honest.eval`).
The modules behind it choose a knowledge and a discipline each, and look at one way of touching the
machine at a time.  Some of them are:

```text
knowledge of a computation                 discipline            module
sequences made before the site             any                   Soundness
what two machines both know                any                   Lockstep
values whose syntax may be run             any that is closed    Conformance, Watched
```

Knowledge grows while a computation runs, since it makes sequences and is given elements.  It never
shrinks, so a value that was once known can be used at any later point.  The rule `bind` says this:
the second part is honest for every knowledge above the first one's that has its result.
-/

namespace Terse

/-! ## What a node runs -/

/-- Whether a step of a base conversion reads a number.  Such numbers are the only ones that are not
brought into the exponent range. -/
def BaseCode.reads : BaseCode → Bool
  | .parse _ => true
  | .format _ | .decimal => false

namespace Extra

/-- The blocks that an operator applies. -/
def blocks : Extra → List Block
  | .fold map _ => map.toList
  | .filter block => [block]
  | .none | .zip _ | .base _ _ => []

/-- The combinators that an operator applies. -/
def combinators : Extra → List Combinator
  | .fold _ combinator => combinator.toList
  | .zip combinator => [combinator]
  | .none | .filter _ | .base _ _ => []

/-- Whether an operator reads numbers in another base. -/
def readsBase : Extra → Bool
  | .base _ codes => codes.any BaseCode.reads
  | .none | .fold _ _ | .filter _ | .zip _ => false

end Extra

/-- Whether a leading operator has with it what belongs to it: a filter its block, and a fold its
map and its combinator. -/
def LeadingOp.carries : LeadingOp → Extra → Bool
  | .filter, .filter _ | .any, .filter _ | .fold, .fold _ _ => true
  | .filter, _ | .any, _ | .fold, _ => false
  | _, .none => true
  | _, _ => false

namespace Node

/-- The nodes that are evaluated in the scope of a node itself. -/
def operands : Node → List Node
  | .call _ args _ => args
  | .group body _ | .array body _ => body.items
  | .leading _ arg _ _ | .trailing _ arg _ _ => [arg]
  | .binary _ left right _ _ => [left, right]
  | .text .. | .numeral .. | .var .. | .define .. | .block _ | .hook .. => []

/-- The nodes that a node evaluates.  They are its operands, except that a call behind a dot is not
evaluated without its first argument. -/
def evaluated : Node → List Node
  | .binary .call left (.call _ args _) _ _ => left :: args
  | n => n.operands

/-- The blocks that a node applies. -/
def blocks : Node → List Block
  | .block b => [b]
  | .leading _ _ extra _ | .binary _ _ _ extra _ | .trailing _ _ extra _ => extra.blocks
  | _ => []

/-- The combinators that a node applies. -/
def combinators : Node → List Combinator
  | .leading _ _ extra _ | .binary _ _ _ extra _ | .trailing _ _ extra _ => extra.combinators
  | _ => []

/-- The function that a node defines. -/
def definition? : Node → Option Function
  | .define _ params body _ => some ⟨params.map (·.name), body⟩
  | _ => none

/-- The variable that a node binds: the left operand of an assignment or a removal, and the operand
of a step up or down. -/
def target? : Node → Option String
  | .binary .assign (.var name _) _ _ _ | .binary .remove (.var name _) _ _ _
  | .leading .increment (.var name _) _ _ | .leading .decrement (.var name _) _ _ => some name
  | _ => none

/-- Whether a node reads numbers in another base. -/
def readsBase : Node → Bool
  | .trailing _ _ extra _ => extra.readsBase
  | _ => false

theorem left_mem_evaluated (op : BinaryOp) (left right : Node) (extra : Extra)
    (position : Position) : left ∈ (Node.binary op left right extra position).evaluated := by
  unfold evaluated
  split
  · rename_i heq
    cases heq
    exact List.mem_cons_self
  · exact List.mem_cons_self

theorem evaluated_binary {op : BinaryOp} (hop : op ≠ .call) (left right : Node) (extra : Extra)
    (position : Position) :
    (Node.binary op left right extra position).evaluated = [left, right] := by
  unfold evaluated
  split
  · rename_i heq
    cases heq
    exact absurd rfl hop
  · rfl

theorem right_mem_evaluated {op : BinaryOp} (hop : op ≠ .call) (left right : Node) (extra : Extra)
    (position : Position) : right ∈ (Node.binary op left right extra position).evaluated := by
  rw [evaluated_binary hop]
  exact List.mem_cons_of_mem _ List.mem_cons_self

end Node

namespace BinaryOp

/-- Whether an operator needs only the values of its operands. -/
def strict : BinaryOp → Bool
  | assign | remove | and | or | call | zip => false
  | _ => true

end BinaryOp

/-- An error that does not depend on how many arguments a function takes, nor on what operators
carry. -/
def EvalError.Ordinary : EvalError → Prop
  | .arity .. | .mismatch .noBlock _ | .mismatch (.unevaluated _) _ => False
  | _ => True

/-- What a computation may do with syntax. -/
structure Discipline where
  node : Node → Prop
  block : Block → Prop
  combinator : Combinator → Prop
  /-- The functions that a name may be bound to. -/
  function : String → Function → Prop
  target : String → Prop
  /-- The blocks that sequences may be made with. -/
  generator : Block → Prop
  /-- The numbers of arguments that a function may be called with. -/
  call : String → Nat → Prop
  /-- The errors that may be raised besides the ordinary ones. -/
  error : EvalError → Prop
  /-- Whether numbers may be made that lie outside of the exponent range. -/
  wide : Prop := True

namespace Discipline

/-- Everything is allowed. -/
def free : Discipline where
  node _ := True
  block _ := True
  combinator _ := True
  function _ _ := True
  target _ := True
  generator _ := True
  call _ _ := True
  error _ := True

/-- With a node, everything is allowed that its evaluation does itself. -/
structure Closed (D : Discipline) : Prop where
  operand : ∀ {n m}, D.node n → m ∈ n.evaluated → D.node m
  block : ∀ {n b}, D.node n → b ∈ n.blocks → D.block b
  combinator : ∀ {n c}, D.node n → c ∈ n.combinators → D.combinator c
  function : ∀ {name params body position}, D.node (.define name params body position) →
    D.function name ⟨params.map (·.name), body⟩
  target : ∀ {n x}, D.node n → x ∈ n.target? → D.target x
  generator : ∀ {body position b}, D.node (.array body position) → body.block? = some b →
    D.generator b
  call : ∀ {name args position}, D.node (.call name args position) → D.call name args.length
  dot : ∀ {left name args callPosition extra position},
    D.node (.binary .call left (.call name args callPosition) extra position) →
      D.call name (args.length + 1)
  noBlock : ∀ {op arg extra position}, D.node (.leading op arg extra position) →
    op.carries extra = false → D.error (.mismatch .noBlock position)
  wide : ∀ {n}, D.node n → n.readsBase = true → D.wide := by intros; trivial

theorem free_closed : free.Closed where
  operand _ _ := trivial
  block _ _ := trivial
  combinator _ _ := trivial
  function _ := trivial
  target _ _ := trivial
  generator _ _ := trivial
  call _ := trivial
  dot _ := trivial
  noBlock _ _ := trivial

end Discipline

/-- A value without sequences. -/
inductive Value.Plain : Value → Prop where
  | text (text : String) : Plain (.text text)
  | number (number : Decimal) : Plain (.number number)
  | array {items : List Value} (hitems : ∀ v ∈ items, Plain v) : Plain (.array items)

/-- A set of values that is closed under making arrays and taking them apart.  It has all texts, the
numbers in the exponent range, and the other numbers too if they are asked for. -/
structure Knowledge (wide : Prop := True) where
  has : Value → Prop
  text : ∀ s, has (.text s)
  number : ∀ n, n.inRange = true ∨ wide → has (.number n)
  array_iff : ∀ {items}, has (.array items) ↔ ∀ v ∈ items, has v

namespace Knowledge

variable {wide : Prop}

instance : Preorder (Knowledge wide) where
  le K K' := ∀ v, K.has v → K'.has v
  le_refl _ _ hv := hv
  le_trans _ _ _ h h' v hv := h' v (h v hv)

variable {K K' : Knowledge wide}

/-- All values of a list are known. -/
def all (K : Knowledge wide) (values : List Value) : Prop := ∀ v ∈ values, K.has v

/-- The value is known if there is one. -/
def option (K : Knowledge wide) (value : Option Value) : Prop := ∀ v ∈ value, K.has v

theorem all_mono (h : K ≤ K') {values : List Value} (hall : K.all values) : K'.all values :=
  fun v hv => h v (hall v hv)

theorem all_cons {v : Value} {values : List Value} (hv : K.has v) (hall : K.all values) :
    K.all (v :: values) :=
  List.forall_mem_cons.2 ⟨hv, hall⟩

theorem all_reverse {values : List Value} (hall : K.all values) : K.all values.reverse :=
  fun v hv => hall v (List.mem_reverse.1 hv)

/-- A list of known values has only known values, however it was chosen from them. -/
theorem all_subset {values chosen : List Value} (hall : K.all values)
    (hsub : ∀ v ∈ chosen, v ∈ values) : K.all chosen :=
  fun v hv => hall v (hsub v hv)

theorem plain (K : Knowledge) {v : Value} (h : v.Plain) : K.has v := by
  induction h with
  | text s => exact K.text s
  | number n => exact K.number n (.inr trivial)
  | array _ ih => exact K.array_iff.2 ih

theorem empty (K : Knowledge wide) : K.has .empty := K.text ""

theorem getD_option {value : Option Value} (h : K.option value) : K.has (value.getD .empty) := by
  cases value with
  | none => exact K.empty
  | some v => exact h v rfl

theorem texts (K : Knowledge wide) (parts : List String) : K.all (parts.map .text) := by
  intro v hv
  obtain ⟨s, -, rfl⟩ := List.mem_map.1 hv
  exact K.text s

end Knowledge

/-- A computation that touches the machine only as the evaluator does, follows a discipline, and
uses only known values.  The results satisfy the last argument, with what is known then. -/
inductive Honest {wide : Prop} (D : Discipline) : {α : Type} → Knowledge wide →
    (Evaluator → Eval α) → (Knowledge wide → α → Prop) → Prop where
  | pure {α : Type} {K : Knowledge wide} {a : α} {P : Knowledge wide → α → Prop} (ha : P K a) :
      Honest D K (fun _ => Pure.pure a) P
  | bind {α β : Type} {K : Knowledge wide} {x : Evaluator → Eval α} {f : Evaluator → α → Eval β}
      {P : Knowledge wide → α → Prop} {Q : Knowledge wide → β → Prop} (hx : Honest D K x P)
      (hf : ∀ K' a, K ≤ K' → P K' a → Honest D K' (fun run => f run a) Q) :
      Honest D K (fun run => x run >>= f run) Q
  | weaken {α : Type} {K : Knowledge wide} {x : Evaluator → Eval α}
      {P Q : Knowledge wide → α → Prop} (hx : Honest D K x P)
      (himp : ∀ K' a, K ≤ K' → P K' a → Q K' a) : Honest D K x Q
  | fail {α : Type} {K : Knowledge wide} {P : Knowledge wide → α → Prop} {error : EvalError}
      (herror : error.Ordinary ∨ D.error error) : Honest D K (fun _ => Eval.fail error) P
  | exhaust {α : Type} {K : Knowledge wide} {P : Knowledge wide → α → Prop} :
      Honest D K (fun _ => Eval.exhaust) P
  | settings {K : Knowledge wide} :
      Honest D K (fun _ => read) fun K' settings => K'.has settings.input
  | readVariable {K : Knowledge wide} (name : String) (position : Position) :
      Honest D K (fun _ => Eval.readVariable name position) Knowledge.has
  | current {K : Knowledge wide} (name : String) :
      Honest D K (fun _ => Eval.current name) Knowledge.has
  | assign {K : Knowledge wide} {name : String} {v : Value} (hname : D.target name) (hv : K.has v) :
      Honest D K (fun _ => Eval.assign name v) fun _ _ => True
  | define {K : Knowledge wide} {name : String} {function : Function}
      (hfunction : D.function name function) :
      Honest D K (fun _ => Eval.define name function) fun _ _ => True
  | writeLine {K : Knowledge wide} (text : String) :
      Honest D K (fun _ => Eval.writeLine text) fun _ _ => True
  | makeSequence {K : Knowledge wide} {seeds : List Value} {generator : Block} {length : Option Nat}
      (hseeds : K.all seeds) (hgenerator : D.generator generator) :
      Honest D K (fun _ => Eval.makeSequence seeds generator length) Knowledge.has
  | node {K : Knowledge wide} {n : Node} (hn : D.node n) :
      Honest D K (fun run => run n) Knowledge.has
  | block {K : Knowledge wide} {b : Block} {v : Value} (hb : D.block b) (hv : K.has v) :
      Honest D K (fun run => Eval.applyBlock run b v) Knowledge.has
  | combinator {K : Knowledge wide} {c : Combinator} {v w : Value} (hc : D.combinator c)
      (hv : K.has v) (hw : K.has w) :
      Honest D K (fun run => Eval.applyCombinator run c v w) Knowledge.has
  | invoke {K : Knowledge wide} {values : List Value} (name : String) (position : Position)
      (hvalues : K.all values) (hcall : D.call name values.length) :
      Honest D K (fun run => Eval.invoke run name values position) Knowledge.has
  | element {K : Knowledge wide} {s : Sequence} (index : Nat) (hs : K.has (.sequence s)) :
      Honest D K (fun run => Eval.elementAt run s index) Knowledge.option

end Terse
