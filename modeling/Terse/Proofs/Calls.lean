import Terse.Proofs.OperatorFold
import Terse.Proofs.Quotients
import Terse.Proofs.WellFormed

/-!
# Calls of builtin functions

What the bodies of builtin functions have in common: they read their argument as `_`, and they
consist of operators and folds on numbers.

* `Holds` says that `_` can be read, and the lemmas about `nested` evaluate the nodes of a body.
* `nested_numberFold` is a fold of numbers with an arithmetic operator.  It runs its combinator in
  inner scopes, so the scope behind it need not be the same, but it has the same bindings.
* `invoke_keeps` takes the value of a body to the scope of the caller, and `invoke_arithmetic` does
  so for a body that ends with arithmetic.

A variable may be read back instead of being looked up, if the scope has it as its recurrence.  For
`_` to be held it is therefore not enough that the bindings are the same, and a fold has to keep the
recurrence as well (`recurrence_final_combine`).

All these bodies are evaluated in any machine, and not only in the one that a session starts with.
The functions may be called from inside of blocks and of generators.
-/

namespace Terse

open Eval (outcome final)

namespace Builtin

/-- A group of one item, with the columns of both. -/
def lone (item : Node) (inner outer : Nat) : Node := .group ⟨[item], ⟨1, inner⟩⟩ ⟨1, outer⟩

/-- The variable that the argument of a call is bound to. -/
def argument (column : Nat) : Node := .var implicitName ⟨1, column⟩

end Builtin

namespace Eval

open Builtin

/-- Reading `_` gives a value, and reads nothing back. -/
def Holds (N : Machine) (v : Value) : Prop :=
  N.scope.get? N.lookback implicitName = some (v, N.lookback)

variable {settings : Settings} {N : Machine} {d : Nat} {position : Position}

theorem nested_lone (item : Node) (inner outer : Nat) :
    nested (d + 1) (lone item inner outer) = nested d item :=
  bind_pure (nested d item)

theorem nested_argument {v : Value} (h : Holds N v) (column : Nat) :
    nested (d + 1) (argument column) settings N = .ok v N :=
  readVariable_ok h

theorem nested_trailing {arg : Node} {v : Value} (op : TrailingOp)
    (harg : nested d arg settings N = .ok v N) :
    nested (d + 1) (.trailing op arg .none position) settings N =
      applyTrailing (nested d) op .none v position settings N :=
  bind_ok harg

theorem nested_strict {op : BinaryOp} (hop : op.strict = true) {left right : Node} {v w : Value}
    {N' N'' : Machine} (hleft : nested d left settings N = .ok v N')
    (hright : nested d right settings N' = .ok w N'') :
    nested (d + 1) (.binary op left right .none position) settings N =
      applyBinary (nested d) op v w position settings N'' := by
  show binary (nested d) op left right .none position settings N = _
  rw [binary_of_strict hop, bind_ok hleft, bind_ok hright]

/-! ## Folds of numbers -/

/-- Arithmetic on two numbers is refused, or rounds its result. -/
theorem applyBinary_arithmetic (op : BinaryOp)
    (hop : op ∈ [.power, .multiply, .divide, .modulo, .add, .subtract]) (run : Evaluator)
    (a b : Decimal) :
    applyBinary run op (.number a) (.number b) position settings N =
      ofArithmetic ((arithmetic op a b settings.precision).bind fun result =>
        (result.round settings.precision).bounded.map .number) position settings N := by
  have hsteps : applyBinary run op (.number a) (.number b) position settings N =
      (ofArithmetic (arithmetic op a b settings.precision) position >>= fun result =>
        number result position) settings N := by
    simp only [List.mem_cons, List.not_mem_nil, or_false] at hop
    rcases hop with rfl | rfl | rfl | rfl | rfl | rfl <;>
      simp only [applyBinary, toNumber_number, pure_bind] <;> rfl
  rw [hsteps]
  cases harithmetic : arithmetic op a b settings.precision with
  | error fault => rfl
  | ok result =>
      show number result position settings N = _
      rw [number_eq]
      rfl

/-- Combining values does not change which variable is read back. -/
theorem recurrence_final_combine (run : Evaluator) (c : Combinator) (v : Value)
    (rest : List Value) :
    (final (combine run c v rest) settings N).scope.recurrence = N.scope.recurrence := by
  induction rest generalizing v N with
  | nil => rfl
  | cons w rest ih =>
      -- The scope is that of before, or that with bindings merged into it.
      have hstep : (final (applyCombinator run c v w) settings N).scope.recurrence =
          N.scope.recurrence := by
        have heq : final (applyCombinator run c v w) settings N =
            final (inChild ((N.scope.set leftName v).set rightName w) [leftName, rightName]
              (run c.expr)) settings N := rfl
        rw [heq]
        rcases scope_final_inChild settings N _ _ _ with hscope | hscope <;> rw [hscope]
        rfl
      rw [combine]
      cases hrun : applyCombinator run c v w settings N with
      | ok a N' =>
          rw [final_ok hrun] at hstep
          rw [final_bind_ok hrun, ih, hstep]
      | error halt N' =>
          rw [final_error hrun] at hstep
          rw [final_bind_error hrun, hstep]

/-- Combines numbers from left to right, and rounds at each step. -/
def roundedFold (precision : Nat) (f : Decimal → Decimal → Decimal) (first : Decimal)
    (rest : List Decimal) : Except Decimal.Fault Decimal :=
  rest.foldlM (fun result n => ((f result n).round precision).bounded) first

section

variable {op : BinaryOp} (hop : op ∈ [.power, .multiply, .divide, .modulo, .add, .subtract])
  {f : Decimal → Decimal → Decimal}
  (hf : ∀ a b, arithmetic op a b settings.precision = .ok (f a b))
include hop hf

theorem foldlM_arithmetic (run : Evaluator) (first : Decimal) (rest : List Decimal) :
    (rest.map Value.number).foldlM (fun v w => applyBinary run op v w position) (.number first)
        settings N =
      ofArithmetic ((roundedFold settings.precision f first rest).map .number) position settings
        N := by
  induction rest generalizing first with
  | nil => rfl
  | cons n rest ih =>
      have hstep : applyBinary run op (.number first) (.number n) position settings N =
          ofArithmetic (((f first n).round settings.precision).bounded.map .number) position
            settings N := by
        rw [applyBinary_arithmetic op hop run first n, hf]
        rfl
      rw [List.map_cons, List.foldlM_cons, roundedFold, List.foldlM_cons]
      cases hbounded : ((f first n).round settings.precision).bounded with
      | error fault =>
          rw [hbounded] at hstep
          exact bind_error hstep
      | ok result =>
          rw [hbounded] at hstep
          exact (bind_ok hstep).trans (ih result)

/-- A fold of numbers with an arithmetic operator combines them, and keeps what the scope binds and
which variable is read back. -/
theorem nested_numberFold (opPosition place : Position) {arg : Node} {first : Decimal}
    {rest : List Decimal}
    (harg : nested (d + 2) arg settings N = .ok (.array ((first :: rest).map .number)) N) :
    ∃ scope, SameBindings N.scope scope ∧ scope.recurrence = N.scope.recurrence ∧
      nested (d + 3) (.leading .fold arg (.fold none (some (op.combinator opPosition place))) place)
          settings N =
        rescope scope (ofArithmetic ((roundedFold settings.precision f first rest).map .number)
          opPosition settings N) := by
  have hstrict : op.strict = true := by
    simp only [List.mem_cons, List.not_mem_nil, or_false] at hop
    rcases hop with rfl | rfl | rfl | rfl | rfl | rfl <;> rfl
  obtain ⟨scope, hsame, hcombine⟩ := mimics_combine hstrict opPosition place d (.number first)
    (rest.map .number) settings N
  rw [foldlM_arithmetic hop hf] at hcombine
  have hrecurrence : (final (combine (nested (d + 2)) (op.combinator opPosition place)
      (.number first) (rest.map .number)) settings N).scope.recurrence = N.scope.recurrence :=
    recurrence_final_combine _ _ _ _
  have helements : elementsOf (nested (d + 2)) place arg none settings N =
      .ok ((first :: rest).map .number) N := by
    rw [elementsOf, bind_ok harg]
    rfl
  refine ⟨scope, hsame, ?_, ?_⟩
  · rw [← hrecurrence, final, hcombine]
    cases roundedFold settings.precision f first rest <;> rfl
  · rw [← hcombine]
    exact (congrFun (congrFun (node_fold (nested (d + 2)) _ _ _ _) settings) N).trans
      (bind_ok helements)

end

theorem rescope_ofArithmetic {α : Type} (scope : Scope) (result : Except Decimal.Fault α) :
    rescope scope (ofArithmetic result position settings N) =
      ofArithmetic result position settings { N with scope := scope } := by
  cases result <;> rfl

/-! ## Calls -/

/-- A call of a function whose body keeps what its scope binds. -/
theorem invoke_keeps {run : Evaluator} {M : Machine} {name : String} {body : Node} {v : Value}
    (hfunction : M.scope.function? name = some ⟨[implicitName], body⟩) (position : Position)
    (hbody : SameBindings (M.scope.set implicitName v)
      (final (run body) settings { M with scope := M.scope.set implicitName v }).scope) :
    outcome (invoke run name [v] position) settings M =
        outcome (run body) settings { M with scope := M.scope.set implicitName v } ∧
      SameBindings M.scope (final (invoke run name [v] position) settings M).scope := by
  have hinvoke : invoke run name [v] position settings M =
      inChild (M.scope.set implicitName v) [implicitName] (run body) settings M := by
    rw [invoke_eq, hfunction]
    rfl
  rw [outcome, outcome, final, hinvoke]
  cases hrun : run body settings { M with scope := M.scope.set implicitName v } with
  | error halt N =>
      rw [inChild_error hrun]
      exact ⟨rfl, .refl _⟩
  -- Of what the body has bound, only `_` differs from the scope of the caller, and it is left out.
  | ok a N =>
      rw [final_ok hrun] at hbody
      rw [inChild_ok hrun]
      refine ⟨rfl, .merge hbody.functions fun name hname => ?_⟩
      rw [hbody.values, Scope.lookup_set, if_neg (by simpa using hname)]

/-- A call of a function whose body leaves the machine as it is. -/
theorem invoke_of_body {run : Evaluator} {M : Machine} {name : String} {body : Node} {v w : Value}
    (hfunction : M.scope.function? name = some ⟨[implicitName], body⟩) (position : Position)
    (hbody : run body settings { M with scope := M.scope.set implicitName v } =
      .ok w { M with scope := M.scope.set implicitName v }) :
    outcome (invoke run name [v] position) settings M = .ok w ∧
      SameBindings M.scope (final (invoke run name [v] position) settings M).scope := by
  have hsame : SameBindings (M.scope.set implicitName v)
      (final (run body) settings { M with scope := M.scope.set implicitName v }).scope := by
    rw [final_ok hbody]
    exact .refl _
  obtain ⟨houtcome, hkeeps⟩ := invoke_keeps hfunction position hsame
  refine ⟨?_, hkeeps⟩
  rw [houtcome, outcome, hbody]

/-- A call of a function whose body ends with arithmetic, in a scope with the same bindings. -/
theorem invoke_arithmetic {run : Evaluator} {M : Machine} {name : String} {body : Node} {v : Value}
    {scope : Scope} {result : Except Decimal.Fault Value} {place : Position}
    (hfunction : M.scope.function? name = some ⟨[implicitName], body⟩) (position : Position)
    (hscope : SameBindings (M.scope.set implicitName v) scope)
    (hbody : run body settings { M with scope := M.scope.set implicitName v } =
      ofArithmetic result place settings { M with scope := scope }) :
    outcome (invoke run name [v] position) settings M =
        result.mapError (.fault <| .arithmetic · place) ∧
      SameBindings M.scope (final (invoke run name [v] position) settings M).scope := by
  have hkept : (final (run body) settings
      { M with scope := M.scope.set implicitName v }).scope = scope := by
    rw [final, hbody]
    cases result <;> rfl
  obtain ⟨houtcome, hsame⟩ := invoke_keeps hfunction position (by rw [hkept]; exact hscope)
  refine ⟨?_, hsame⟩
  rw [houtcome, outcome, hbody]
  cases result <;> rfl

theorem holds_argument (M : Machine) (v : Value) :
    Holds { M with scope := M.scope.set implicitName v } v := by
  simp [Holds, Scope.get?_set]

end Eval

/-- A session starts in the scope of the builtin functions, with some depth to evaluate them. -/
theorem Session.exists_start (precision : Nat) (input : Value) (dictionary : Dictionary)
    (output : Output) :
    ∃ session d, Session.start precision input dictionary output = .ok session ∧
      session.evaluator = Eval.nested (d + 8) ∧ session.settings.precision = precision ∧
      Builtin.startScope input = .ok session.machine.scope := by
  have hcalls : Grammar.Listed anyCount Builtin.calls := fun _ _ _ => trivial
  obtain ⟨functions, hscope, -⟩ := Builtin.startScope_cases input hcalls
  refine ⟨⟨⟨precision, input, dictionary, defaultDepth⟩, Builtin.calls,
    ⟨⟨Builtin.startValues input, functions, none⟩, [], .empty, .root, output⟩⟩, 0xFFFFFFF8, ?_, rfl,
    rfl, hscope⟩
  unfold Session.start
  rw [hscope]
  rfl

end Terse
