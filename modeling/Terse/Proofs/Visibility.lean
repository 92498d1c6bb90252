import Terse.Proofs.Reached

/-!
# What is read behind a block or a call

When a block or a function has run, the scope around it takes over the values of the variables that
it binds itself, parameters apart.  `Applied` collects the ways in which this comes about, and
`readVariable_after` says what the next read of such a variable gives.

There are two places to read from.  The binding always has the value with which the body ended.  But
in the scope of a generator, the parameter of the generator is read back from the elements of the
sequence while some are unread, and taking over a value does not end that, whereas assigning to the
parameter in that scope itself does.  So a block in a generator can set the generator's parameter
without any effect on the reads behind it; `Reassigning` is an instance.

## Strategy

* The machine behind an application is the one in which the body ended, but for its scope, which is
  the old one with values merged into it (`Applied.machine_eq`).
* A merge takes over the bindings (`Applied.lookup_eq`) and leaves the recurrence, which is the name
  that is read back (`Applied.recurrence_eq`).  The elements that are unread are those that the body
  left unread.
* What a read gives is determined by these three (`Eval.outcome_readVariable`).
-/

namespace Terse

open Eval (final outcome)

/-- A block or a function is applied in a machine and succeeds.  The arguments behind the machine
are the parameters, the machine in which the body ended, and the machine behind the application. -/
inductive Applied (run : Evaluator) (settings : Settings) (M : Machine) :
    List String → Machine → Machine → Prop where
  | block {b : Block} {v result : Value} {M' : Machine}
      (hrun : Eval.applyBlock run b v settings M = .ok result M') :
      Applied run settings M [b.param]
        (final (Eval.program run b.body) settings { M with scope := M.scope.set b.param v }) M'
  | function {name : String} {f : Function} {values : List Value} {position : Position}
      {result : Value} {M' : Machine} (hfunction : M.scope.function? name = some f)
      (hrun : Eval.invoke run name values position settings M = .ok result M') :
      Applied run settings M f.params
        (final (run f.body) settings { M with scope := M.scope.setAll (f.params.zip values) }) M'

/-- A step in an inner scope that succeeds hands its machine over, the scope apart. -/
theorem Eval.eq_of_inChild_ok {α : Type} {settings : Settings} {M M' : Machine} {inner : Scope}
    {excluded : List String} {step : Eval α} {a : α}
    (hrun : Eval.inChild inner excluded step settings M = .ok a M') :
    M' = { final step settings { M with scope := inner } with
      scope := M.scope.merge (final step settings { M with scope := inner }).scope excluded } := by
  cases hstep : step settings { M with scope := inner } with
  | error halt N => simp [Eval.inChild_error hstep] at hrun
  | ok b N =>
      rw [Eval.inChild_ok hstep] at hrun
      rw [Eval.final_ok hstep]
      exact (EStateM.Result.ok.inj hrun).2.symm

namespace Applied

variable {run : Evaluator} {settings : Settings} {M N M' : Machine} {params : List String}

/-- Behind an application only the scope differs from the machine in which the body ended. -/
theorem machine_eq (h : Applied run settings M params N M') :
    M' = { N with scope := M.scope.merge N.scope params } := by
  cases h with
  | block hrun => exact Eval.eq_of_inChild_ok hrun
  | @function name f values position result M' hfunction hrun =>
      rw [Eval.invoke_eq, hfunction] at hrun
      -- With another number of arguments the call would not succeed.
      by_cases harity : f.params.length = values.length
      · simp only [harity, if_true] at hrun
        exact Eval.eq_of_inChild_ok hrun
      · simp only [harity, if_false] at hrun
        cases hrun

/-- The scope behind an application binds a variable as the body left it. -/
theorem lookup_eq (h : Applied run settings M params N M') {x : String} {w : Value}
    (hbound : M.scope.lookup x ≠ none) (hparam : x ∉ params) (hw : N.scope.lookup x = some w) :
    M'.scope.lookup x = some w := by
  obtain ⟨v, hv⟩ := Option.ne_none_iff_exists'.1 hbound
  rw [h.machine_eq, Scope.lookup_merge, hv, hw]
  simp [hparam]

/-- The elements that a generator can read back are those that the body left unread, and the
parameter is still read back. -/
theorem recurrence_eq (h : Applied run settings M params N M') :
    M'.scope.recurrence = M.scope.recurrence ∧ M'.lookback = N.lookback := by
  rw [h.machine_eq]
  exact ⟨rfl, rfl⟩

end Applied

/-- What a read of a bound variable gives: the newest unread element if the variable is read back,
else the value bound to it. -/
theorem Eval.outcome_readVariable {settings : Settings} {M : Machine} {x : String} {w : Value}
    (position : Position) (hw : M.scope.lookup x = some w) :
    outcome (Eval.readVariable x position) settings M = .ok
      (if M.scope.recurrence = some x then (M.lookback.next?.map Prod.fst).getD w else w) := by
  -- A variable that is read back is looked up once all elements are read.
  by_cases hback : M.scope.recurrence = some x
  · rw [if_pos hback]
    cases hnext : M.lookback.next? with
    | none =>
        have hget : M.scope.get? M.lookback x = some (w, M.lookback) := by
          simp [Scope.get?, hback, hnext, hw]
        rw [outcome, Eval.readVariable_ok hget]
        rfl
    | some newest =>
        have hget : M.scope.get? M.lookback x = some newest := by
          simp [Scope.get?, hback, hnext]
        rw [outcome, Eval.readVariable_ok hget]
        rfl
  · have hget : M.scope.get? M.lookback x = some (w, M.lookback) := by
      simp [Scope.get?, hback, hw]
    rw [if_neg hback, outcome, Eval.readVariable_ok hget]

/-- A block or a function succeeds in a machine, and its body ends with a variable bound to a value.
If the scope around it binds the variable too, and it is not a parameter, the variable is then bound
to that value there.  The next read gives that value as well, with one exception: in the scope of a
generator whose parameter the variable is, and which still reads it back, the next read gives the
newest element that the body left unread, if there is one. -/
theorem readVariable_after {run : Evaluator} {settings : Settings} {M N M' : Machine}
    {params : List String} {x : String} {w : Value} (h : Applied run settings M params N M')
    (hbound : M.scope.lookup x ≠ none) (hparam : x ∉ params) (hw : N.scope.lookup x = some w)
    (position : Position) :
    M'.scope.lookup x = some w ∧
      outcome (Eval.readVariable x position) settings M' = .ok
        (if M.scope.recurrence = some x then (N.lookback.next?.map Prod.fst).getD w else w) := by
  have hlookup := h.lookup_eq hbound hparam hw
  obtain ⟨hrecurrence, hlookback⟩ := h.recurrence_eq
  refine ⟨hlookup, ?_⟩
  rw [Eval.outcome_readVariable position hlookup, hrecurrence, hlookback]

namespace Reassigning

/-- The block `y{_ : "b"}`. -/
def inner : Block :=
  ⟨"y", ⟨[.binary .assign (.var implicitName .start) (.text "b" .double .start) .none .start],
    .start⟩, .start⟩

/-- The block `{y{_ : "b"} _}`. -/
def generator : Block :=
  ⟨implicitName, ⟨[.block inner, .var implicitName .start], .start⟩, .start⟩

/-- The sequence `["a" {y{_ : "b"} _}]`. -/
def node : Node := .array ⟨[.text "a" .double .start, .block generator], .start⟩ .start

/-- The machine that has made the sequence. -/
def made : Machine := final (Eval.nested 4 node) .small .blank

/-- The sequence in the machine that has made it. -/
def sequence : Sequence := ⟨[0], [.text "a"], generator, none, .empty⟩

/-- The machine in which the generator starts to run behind `a`. -/
def entered : Machine := made.enter sequence (made.store.progress sequence).elements

/-- The machine behind the inner block. -/
def behind : Machine := final (Eval.applyBlock (Eval.nested 4) inner .empty) .small entered

theorem reached_made : Reached .small [.sequence sequence] made :=
  .step reached_blank (client_node [] node)
    (by rfl : Eval.nested 4 node .small .blank = .ok (.sequence sequence) made)
    fun _ _ hv => Knowledge.all_cons hv fun _ h => by simp at h

theorem reached_entered : Reached .small [] entered :=
  .production reached_made (fun _ h => h _ List.mem_cons_self) fun _ h => by simp at h

theorem applied_inner : Applied (Eval.nested 4) .small entered ["y"]
    (final (Eval.program (Eval.nested 4) inner.body) .small
      { entered with scope := entered.scope.set "y" .empty }) behind :=
  .block (by rfl : Eval.applyBlock (Eval.nested 4) inner .empty .small entered =
    .ok (.text "b") behind)

theorem bound_entered : entered.scope.lookup implicitName ≠ none := by
  have hvalue : entered.scope.lookup implicitName = some (.text "a") := by rfl
  simp [hvalue]

/-- The inner block binds the parameter of the generator around it to `b`, and `a` is read. -/
theorem read_behind : behind.scope.lookup implicitName = some (.text "b") ∧
    outcome (Eval.readVariable implicitName .start) .small behind = .ok (.text "a") :=
  readVariable_after applied_inner bound_entered (by decide) (by rfl) .start

/-- Not in every machine that a program reaches does the next read of a variable give the value with
which a block or a function ended. -/
theorem read_not_taken_over : ¬ ∀ (settings : Settings) (held : List Value) (M : Machine),
    Reached settings held M → ∀ (d : Nat) (params : List String) (N M' : Machine) (x : String)
      (w : Value) (position : Position), Applied (Eval.nested d) settings M params N M' →
      M.scope.lookup x ≠ none → x ∉ params → N.scope.lookup x = some w →
      outcome (Eval.readVariable x position) settings M' = .ok w := by
  intro hall
  have hb := hall .small [] entered reached_entered 4 _ _ _ implicitName (.text "b") .start
    applied_inner bound_entered (by decide) (by rfl)
  have ha : outcome (Eval.readVariable implicitName .start) .small behind = .ok (.text "a") := by
    rfl
  simp [ha] at hb

end Reassigning

end Terse
