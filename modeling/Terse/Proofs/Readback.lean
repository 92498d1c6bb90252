import Terse.Proofs.Frame

/-!
# Reading back the elements of a sequence

While a generator runs, a read of its parameter gives the newest element that has not been read, and
when none is left, the newest element of all.  The generator may read from many scopes: blocks,
combinators and functions run in copies of its scope, and what is unread is common to all of them.
A copy in which the name is bound anew has a variable of its own instead, and so has the generator
of another sequence.

## Strategy

`Traced` gives the reads of the parameter in the order of evaluation, as a list that grows along the
run.  It is not a second evaluator: a trace belongs to a computation that is put together from the
steps in `Honest`, and every node has one (`Honest.hasTrace`).  Whether the parameter may be
assigned to is a matter of the discipline, and a trace has an assignment only if the discipline
allows it.

`Reads` is the invariant that ties the machine to the number of reads so far.

* One step: a read of the parameter gives the element that `recalled` says and counts
  (`Reads.get?_param`); any other step leaves the count as it is.
* Inner scopes: a scope that binds the name is shadowed, and nothing in it counts (`Reads.inner`).
  Behind an inner scope the count goes on from where it was there, because what is unread belongs to
  the machine and not to a scope (`Reads.inChild`).
* Runs: by induction on the trace, the reads give one element after another (`Traced.recalls`).

An assignment to the parameter ends the reading back, which is why it is excluded.
-/

namespace Terse

open Eval (final)

/-! ## Traces -/

/-- What happens to the parameter of a generator during a run. -/
inductive Event where
  | read (v : Value)
  | assigned

/-- A step that neither reads nor binds a variable of the scope that it is taken in.  Asking for an
element may run a generator, but in the scope of its sequence. -/
inductive Quiet : {α : Type} → Eval α → Prop where
  | pure {α : Type} (a : α) : Quiet (Pure.pure a)
  | fail {α : Type} (error : EvalError) : Quiet (Eval.fail error : Eval α)
  | exhaust {α : Type} : Quiet (Eval.exhaust : Eval α)
  | settings : Quiet (read : Eval Settings)
  | current (name : String) : Quiet (Eval.current name)
  | define (name : String) (function : Function) : Quiet (Eval.define name function)
  | writeLine (text : String) : Quiet (Eval.writeLine text)
  | makeSequence (seeds : List Value) (generator : Block) (length : Option Nat) :
      Quiet (Eval.makeSequence seeds generator length)
  | element (run : Evaluator) (s : Sequence) (index : Nat) : Quiet (Eval.elementAt run s index)

/-- What a run of a computation does to the parameter `param` of the generator that it belongs to,
in the order in which it does it.  The computation may be shadowed, that is, run in an inner scope
in which a parameter has the same name; then what it does to that name is not listed. -/
inductive Traced (settings : Settings) (param : String) :
    {α : Type} → Bool → Eval α → Machine → List Event → Prop where
  | quiet {α : Type} {shadowed : Bool} {x : Eval α} {M : Machine} (hx : Quiet x) :
      Traced settings param shadowed x M []
  | readVariable {shadowed : Bool} {M : Machine} {name : String} {position : Position} {v : Value}
      {lookback : Lookback} (hget : M.scope.get? M.lookback name = some (v, lookback)) :
      Traced settings param shadowed (Eval.readVariable name position) M
        (if name = param ∧ shadowed = false then [.read v] else [])
  | unbound {shadowed : Bool} {M : Machine} {name : String} {position : Position}
      (hget : M.scope.get? M.lookback name = none) :
      Traced settings param shadowed (Eval.readVariable name position) M []
  | assign {shadowed : Bool} {M : Machine} (name : String) (v : Value) :
      Traced settings param shadowed (Eval.assign name v) M
        (if name = param ∧ shadowed = false then [.assigned] else [])
  | bind {α β : Type} {shadowed : Bool} {x : Eval α} {f : α → Eval β} {M M' : Machine} {a : α}
      {before after : List Event} (hrun : x settings M = .ok a M')
      (hx : Traced settings param shadowed x M before)
      (hf : Traced settings param shadowed (f a) M' after) :
      Traced settings param shadowed (x >>= f) M (before ++ after)
  | stop {α β : Type} {shadowed : Bool} {x : Eval α} {f : α → Eval β} {M M' : Machine} {halt : Halt}
      {before : List Event} (hrun : x settings M = .error halt M')
      (hx : Traced settings param shadowed x M before) :
      Traced settings param shadowed (x >>= f) M before
  | block {shadowed : Bool} {run : Evaluator} {b : Block} {v : Value} {M : Machine}
      {events : List Event} (hbody : Traced settings param (shadowed || [b.param].contains param)
        (Eval.program run b.body) { M with scope := M.scope.set b.param v } events) :
      Traced settings param shadowed (Eval.applyBlock run b v) M events
  | combinator {shadowed : Bool} {run : Evaluator} {c : Combinator} {v w : Value} {M : Machine}
      {events : List Event}
      (hexpr : Traced settings param (shadowed || [leftName, rightName].contains param)
        (run c.expr) { M with scope := (M.scope.set leftName v).set rightName w } events) :
      Traced settings param shadowed (Eval.applyCombinator run c v w) M events
  | invoke {shadowed : Bool} {run : Evaluator} {name : String} {f : Function} {values : List Value}
      {position : Position} {M : Machine} {events : List Event}
      (hfunction : M.scope.function? name = some f) (harity : f.params.length = values.length)
      (hbody : Traced settings param (shadowed || f.params.contains param) (run f.body)
        { M with scope := M.scope.setAll (f.params.zip values) } events) :
      Traced settings param shadowed (Eval.invoke run name values position) M events
  | refused {shadowed : Bool} {run : Evaluator} {name : String} {values : List Value}
      {position : Position} {M : Machine}
      (hrefused : ∀ f, M.scope.function? name = some f → f.params.length ≠ values.length) :
      Traced settings param shadowed (Eval.invoke run name values position) M []

/-! ## Every run has a trace -/

/-- What a discipline needs to hold along a run.  In a good scope, whatever blocks, combinators and
functions run is allowed too, and scopes stay good. -/
structure Guards (D : Discipline) (R : Scope → Scope → Prop) (Good : Scope → Prop) : Prop where
  block : ∀ {b}, D.block b → ∀ n ∈ b.body.items, D.node n
  combinator : ∀ {c}, D.combinator c → D.node c.expr
  function : ∀ {scope name f}, Good scope → scope.function? name = some f → D.node f.body
  inner : ∀ {scope} values, Good scope → Good (scope.setAll values)
  keeps : ∀ {scope scope'}, R scope scope' → Good scope → Good scope'

theorem guards_free : Guards .free (fun _ _ => True) fun _ => True where
  block _ _ _ := trivial
  combinator _ := trivial
  function _ _ := trivial
  inner _ _ := trivial
  keeps _ _ := trivial

theorem guards_avoiding (x : String) :
    Guards (.avoiding x) (Keeps x) (Scope.FunctionsAvoid x) where
  block hb := hb
  combinator hc := hc
  function havoid hf := havoid _ _ hf
  inner values havoid name f hf := havoid name f (Scope.function?_setAll _ values name ▸ hf)
  keeps hkeeps havoid := (hkeeps havoid).1

/-- A run has a trace, in which the parameter is assigned to only if that is allowed. -/
def HasTrace (D : Discipline) (settings : Settings) (param : String) {α : Type} (shadowed : Bool)
    (x : Eval α) (M : Machine) : Prop :=
  ∃ events, Traced settings param shadowed x M events ∧ (.assigned ∈ events → D.target param)

section Existence

variable {D : Discipline} {R : Scope → Scope → Prop} {Good : Scope → Prop} {settings : Settings}
  {param : String} {shadowed : Bool} {run : Evaluator} {α β : Type} {M : Machine}

theorem HasTrace.silent {x : Eval α} (h : Traced settings param shadowed x M []) :
    HasTrace D settings param shadowed x M :=
  ⟨[], h, fun hassigned => absurd hassigned List.not_mem_nil⟩

theorem HasTrace.bind {x : Eval α} {f : α → Eval β} (hx : HasTrace D settings param shadowed x M)
    (hf : ∀ a M', x settings M = .ok a M' → HasTrace D settings param shadowed (f a) M') :
    HasTrace D settings param shadowed (x >>= f) M := by
  obtain ⟨before, hbefore, htarget⟩ := hx
  cases hrun : x settings M with
  | error halt M' => exact ⟨before, .stop hrun hbefore, htarget⟩
  | ok a M' =>
      obtain ⟨after, hafter, htarget'⟩ := hf a M' hrun
      refine ⟨before ++ after, .bind hrun hbefore hafter, fun hassigned => ?_⟩
      exact (List.mem_append.1 hassigned).elim htarget htarget'

variable (hD : Guards D R Good) (hR : Respects D R run)
  (hrun : ∀ n, D.node n → ∀ shadowed M, Good M.scope →
    HasTrace D settings param shadowed (run n) M)
include hD hR hrun

theorem hasTrace_items {nodes : List Node} (hnodes : ∀ n ∈ nodes, D.node n) (last : Value)
    (shadowed : Bool) (M : Machine) (hM : Good M.scope) :
    HasTrace D settings param shadowed (Eval.items run nodes last) M := by
  induction nodes generalizing last M with
  | nil => exact .silent (.quiet (.pure last))
  | cons n rest ih =>
      obtain ⟨hn, hrest⟩ := List.forall_mem_cons.1 hnodes
      refine .bind (hrun n hn shadowed M hM) fun v M' hok => ih hrest v M' ?_
      have hscope := hR.node hn settings M
      rw [Eval.final_ok hok] at hscope
      exact hD.keeps hscope hM

/-- An honest computation has a trace if the nodes that it evaluates have one. -/
theorem Honest.hasTrace {K : Knowledge} {x : Evaluator → Eval α} {P : Knowledge → α → Prop}
    (hx : Honest D K x P) (hK : ∀ v, K.has v) (shadowed : Bool) (M : Machine)
    (hM : Good M.scope) : HasTrace D settings param shadowed (x run) M := by
  induction hx generalizing M with
  | pure _ => exact .silent (.quiet (.pure _))
  | bind hx _ ihx ihf =>
      have hstays := hx.stays hR hK settings M
      refine .bind (ihx hK M hM) fun a M' hok => ?_
      have hscope := hstays.scope
      rw [Eval.final_ok hok] at hscope
      exact ihf _ a (le_refl _) (hstays.result a M' hok) hK M' (hD.keeps hscope hM)
  | weaken _ _ ih => exact ih hK M hM
  | fail _ => exact .silent (.quiet (.fail _))
  | exhaust => exact .silent (.quiet .exhaust)
  | settings => exact .silent (.quiet .settings)
  -- A variable that is not bound is an error, and no event.
  | readVariable name position =>
      cases hget : M.scope.get? M.lookback name with
      | none => exact .silent (.unbound hget)
      | some result =>
          refine ⟨_, .readVariable hget, fun hassigned => ?_⟩
          split at hassigned <;> simp at hassigned
  | current name => exact .silent (.quiet (.current name))
  | assign hname _ =>
      refine ⟨_, .assign _ _, fun hassigned => ?_⟩
      split at hassigned
      · rename_i hparam
        exact hparam.1 ▸ hname
      · simp at hassigned
  | define _ => exact .silent (.quiet (.define _ _))
  | writeLine text => exact .silent (.quiet (.writeLine text))
  | makeSequence _ _ => exact .silent (.quiet (.makeSequence _ _ _))
  | node hn => exact hrun _ hn shadowed M hM
  | @block K b v hb _ =>
      obtain ⟨events, hbody, htarget⟩ := hasTrace_items hD hR hrun (hD.block hb) .empty _
        { M with scope := M.scope.set b.param v } (hD.inner [(b.param, v)] hM)
      exact ⟨events, .block hbody, htarget⟩
  | @combinator K c v w hc _ _ =>
      obtain ⟨events, hexpr, htarget⟩ := hrun _ (hD.combinator hc) _
        { M with scope := (M.scope.set leftName v).set rightName w }
        (hD.inner [(leftName, v), (rightName, w)] hM)
      exact ⟨events, .combinator hexpr, htarget⟩
  | @invoke K values name position _ _ =>
      by_cases hfound : ∃ f, M.scope.function? name = some f ∧ f.params.length = values.length
      · obtain ⟨f, hfunction, harity⟩ := hfound
        obtain ⟨events, hbody, htarget⟩ := hrun _ (hD.function hM hfunction) _
          { M with scope := M.scope.setAll (f.params.zip values) } (hD.inner _ hM)
        exact ⟨events, .invoke hfunction harity hbody, htarget⟩
      · exact .silent (.refused fun f hf harity => hfound ⟨f, hf, harity⟩)
  | element index _ => exact .silent (.quiet (.element run _ index))

omit hR hrun

theorem hasTrace_nested (hclosed : D.Closed) (hR : ∀ d, Respects D R (Eval.nested d)) (d : Nat)
    {n : Node} (hn : D.node n) (shadowed : Bool) (M : Machine) (hM : Good M.scope) :
    HasTrace D settings param shadowed (Eval.nested d n) M := by
  induction d generalizing n shadowed M with
  | zero => exact .silent (.quiet .exhaust)
  | succ d ih =>
      have heval : Honest D .everything (fun run => Eval.node run n) Knowledge.has :=
        .eval hclosed hn
      exact heval.hasTrace hD (hR d) (fun _ hn => ih hn) (fun _ => trivial) shadowed M hM

theorem hasTrace_program (hclosed : D.Closed) (hR : ∀ d, Respects D R (Eval.nested d)) (d : Nat)
    {body : Program} (hbody : ∀ n ∈ body.items, D.node n) (M : Machine) (hM : Good M.scope) :
    HasTrace D settings param false (Eval.program (Eval.nested d) body) M :=
  hasTrace_items hD (hR d) (fun _ hn => hasTrace_nested hD hclosed hR d hn) hbody .empty false M hM

end Existence

/-- Scopes may change in every way. -/
theorem respects_anything (run : Evaluator) : Respects .free (fun _ _ => True) run where
  refl _ := trivial
  trans _ _ := trivial
  assign _ _ _ _ := trivial
  define _ _ _ _ := trivial
  node _ _ _ := trivial
  block _ _ _ _ := trivial
  combinator _ _ _ _ _ := trivial
  invoke _ _ _ _ _ := trivial

theorem exists_traced (settings : Settings) (param : String) (d : Nat) (body : Program)
    (M : Machine) :
    ∃ events, Traced settings param false (Eval.program (Eval.nested d) body) M events := by
  obtain ⟨events, htraced, -⟩ : HasTrace .free settings param false
      (Eval.program (Eval.nested d) body) M :=
    hasTrace_program guards_free Discipline.free_closed (fun d => respects_anything _) d
      (fun _ _ => trivial) M trivial
  exact ⟨events, htraced⟩

/-- A program that does not assign to the parameter of the generator, whatever function of the scope
it calls, has a trace without assignments. -/
theorem exists_traced_of_avoids (settings : Settings) {param : String} (d : Nat) {body : Program}
    (hbody : ∀ n ∈ body.items, n.Avoids param) {M : Machine}
    (hM : M.scope.FunctionsAvoid param) :
    ∃ events, Traced settings param false (Eval.program (Eval.nested d) body) M events ∧
      Event.assigned ∉ events := by
  have hrespects (d : Nat) : Respects (.avoiding param) (Keeps param) (Eval.nested d) :=
    respects_keeps fun hn => nested_respects (Discipline.avoiding_closed param) Keeps.refl
      (fun _ => respects_keeps) d hn
  obtain ⟨events, htraced, htarget⟩ := hasTrace_program (guards_avoiding param)
    (Discipline.avoiding_closed param) hrespects d hbody M hM
  exact ⟨events, htraced, fun hassigned => htarget hassigned rfl⟩

/-! ## The invariant -/

namespace Scope

theorem recurrence_set (scope : Scope) (name : String) (v : Value) :
    (scope.set name v).recurrence = scope.recurrence.filter (· ≠ name) := by
  cases hrec : scope.recurrence with
  | none => simp [set, hrec]
  | some param => by_cases hparam : param = name <;> simp [set, hrec, hparam, Option.filter_some]

/-- A scope forgets what it reads back when the name is among those that are bound. -/
theorem recurrence_setAll (scope : Scope) (values : List (String × Value)) :
    (scope.setAll values).recurrence =
      scope.recurrence.filter (!(values.map Prod.fst).contains ·) := by
  induction values generalizing scope with
  | nil => cases hrec : scope.recurrence <;> simp [setAll, hrec, Option.filter_some]
  | cons first rest ih =>
      have hrest := ih (scope.set first.1 first.2)
      rw [recurrence_set, Option.filter_filter] at hrest
      refine hrest.trans (congrArg (scope.recurrence.filter ·) ?_)
      funext name
      simp [beq_eq_decide]

end Scope

/-- A machine in a run of a generator behind `elements`, after `count` reads of its parameter. -/
structure Reads (param : String) (elements : Array Value) (shadowed : Bool) (count : Nat)
    (M : Machine) : Prop where
  lookback : M.lookback = ⟨elements, elements.size - count⟩
  recurrence : M.scope.recurrence = if shadowed then none else some param
  newest : shadowed = false → M.scope.lookup param = elements.back?

/-- What the `k`-th read of the parameter gives, counted from one. -/
def recalled (elements : Array Value) (k : Nat) : Option Value :=
  if k ≤ elements.size then elements[elements.size - k]? else elements.back?

namespace Reads

variable {settings : Settings} {param : String} {elements : Array Value} {shadowed : Bool}
  {count count' : Nat} {M M' : Machine}

/-- A generator starts without any reads. -/
theorem enter (outer : Machine) (s : Sequence) {elements : Array Value} (hne : elements ≠ #[]) :
    Reads s.generator.param elements false 0 (outer.enter s elements) := by
  refine ⟨rfl, rfl, fun _ => ?_⟩
  obtain ⟨newest, hnewest⟩ : ∃ newest, elements.back? = some newest :=
    Option.ne_none_iff_exists'.1 (by simpa [Array.back?_eq_none_iff] using hne)
  have hscope : (outer.enter s elements).scope =
      (s.scope.set s.generator.param newest).lookBackBy s.generator.param := by
    simp only [Machine.enter, Sequence.nextScope, hnewest]
  have hlookup : (outer.enter s elements).scope.lookup s.generator.param =
      (s.scope.set s.generator.param newest).lookup s.generator.param := by
    rw [hscope]
    rfl
  rw [hlookup, Scope.lookup_set, if_pos rfl, hnewest]

/-- Nothing but the unread elements and the two ways of reading the parameter matters. -/
theorem congr (h : Reads param elements shadowed count M) (hlookback : M'.lookback = M.lookback)
    (hrecurrence : M'.scope.recurrence = M.scope.recurrence)
    (hlookup : M'.scope.lookup param = M.scope.lookup param) :
    Reads param elements shadowed count M' :=
  ⟨hlookback.trans h.lookback, hrecurrence.trans h.recurrence,
    fun hshadowed => hlookup.trans (h.newest hshadowed)⟩

/-- A read of the parameter gives the next element. -/
theorem get?_param (h : Reads param elements false count M) {v : Value} {lookback : Lookback}
    (hget : M.scope.get? M.lookback param = some (v, lookback)) :
    recalled elements (count + 1) = some v ∧
      lookback = ⟨elements, elements.size - (count + 1)⟩ := by
  simp only [Scope.get?, h.recurrence, h.newest rfl, h.lookback, Bool.false_eq_true, if_false,
    if_true] at hget
  -- There is an unread element, or all are read and the binding of the parameter is left.
  by_cases hcount : count < elements.size
  · obtain ⟨unread, hunread⟩ := Nat.exists_eq_add_of_lt hcount
    have hsize : elements.size - count = unread + 1 := by omega
    have hsize' : elements.size - (count + 1) = unread := by omega
    have hbound : unread < elements.size := by omega
    simp only [Lookback.next?, hsize, Array.getElem?_eq_getElem hbound, Option.map_some,
      Option.some_or, Option.some.injEq, Prod.mk.injEq] at hget
    obtain ⟨rfl, rfl⟩ := hget
    simp [recalled, Nat.succ_le_of_lt hcount, hsize', hbound]
  · have hsize : elements.size - count = 0 := by omega
    have hsize' : elements.size - (count + 1) = 0 := by omega
    simp only [Lookback.next?, hsize, Option.none_or] at hget
    obtain ⟨newest, hnewest, heq⟩ := Option.map_eq_some_iff.1 hget
    obtain ⟨rfl, rfl⟩ := Prod.mk.inj heq
    have hlarge : ¬ count + 1 ≤ elements.size := by omega
    simp [recalled, hlarge, hsize', hnewest]

/-- A read of another variable, or in a scope that shadows the parameter, leaves all elements
unread that were. -/
theorem get?_other (h : Reads param elements shadowed count M) {name : String}
    (hname : ¬ (name = param ∧ shadowed = false)) {v : Value} {lookback : Lookback}
    (hget : M.scope.get? M.lookback name = some (v, lookback)) : lookback = M.lookback := by
  have hrecurrence : M.scope.recurrence ≠ some name := by
    rw [h.recurrence]
    cases shadowed with
    | true => simp
    | false => simpa [eq_comm] using hname
  simp only [Scope.get?, if_neg hrecurrence] at hget
  obtain ⟨w, -, heq⟩ := Option.map_eq_some_iff.1 hget
  exact (Prod.mk.inj heq).2.symm

/-- Steps that neither read nor bind variables keep the count. -/
theorem quiet (h : Reads param elements shadowed count M) {α : Type} {x : Eval α} (hx : Quiet x) :
    Reads param elements shadowed count (final x settings M) := by
  cases hx with
  | pure _ | fail _ | exhaust | settings | current _ | define _ _ | makeSequence _ _ _ =>
      exact h.congr rfl rfl rfl
  | writeLine text =>
      obtain ⟨output, -, hrun | ⟨-, hrun⟩⟩ := Eval.writeLine_cases settings M text
      · rw [Eval.final_ok hrun]
        exact h.congr rfl rfl rfl
      · rw [Eval.final_error hrun]
        exact h.congr rfl rfl rfl
  | element run s index =>
      have hplace := Eval.elementAt_samePlace run settings M s index
      exact h.congr hplace.lookback (by rw [hplace.scope]) (by rw [hplace.scope])

/-- Another variable is bound, or one that shadows the parameter. -/
theorem assign (h : Reads param elements shadowed count M) {name : String} (v : Value)
    (hname : ¬ (name = param ∧ shadowed = false)) :
    Reads param elements shadowed count { M with scope := M.scope.set name v } := by
  have hne : shadowed = false → param ≠ name := fun hshadowed heq => hname ⟨heq.symm, hshadowed⟩
  refine ⟨h.lookback, ?_, fun hshadowed => ?_⟩
  · cases shadowed with
    | true => simp [Scope.recurrence_set, h.recurrence]
    | false => simp [Scope.recurrence_set, h.recurrence, hne rfl]
  · rw [Scope.lookup_set, if_neg (hne hshadowed), h.newest hshadowed]

/-- In an inner scope the parameter is read as outside, unless a name that is bound is the same. -/
theorem inner (h : Reads param elements shadowed count M) (values : List (String × Value)) :
    Reads param elements (shadowed || (values.map Prod.fst).contains param) count
      { M with scope := M.scope.setAll values } := by
  refine ⟨h.lookback, ?_, fun hshadowed => ?_⟩
  · rw [Scope.recurrence_setAll, h.recurrence]
    cases shadowed with
    | true => rfl
    | false => cases hmem : (values.map Prod.fst).contains param <;> simp_all
  · obtain ⟨hshadowed, hmem⟩ := Bool.or_eq_false_iff.1 hshadowed
    have hne : ∀ b ∈ values, b.1 ≠ param := by
      intro b hb heq
      have hin : param ∈ values.map Prod.fst := List.mem_map.2 ⟨b, hb, heq⟩
      simp [hin] at hmem
    rw [Scope.lookup_setAll_of_notMem hne, h.newest hshadowed]

/-- Behind an inner scope the count goes on from where it was there. -/
theorem inChild {α : Type} {scope : Scope} {excluded : List String} {step : Eval α}
    (h : Reads param elements shadowed count M)
    (hinner : Reads param elements (shadowed || excluded.contains param) count'
      (final step settings { M with scope := scope })) :
    Reads param elements shadowed count' (final (Eval.inChild scope excluded step) settings M) := by
  -- The outer scope goes on reading back, and the value bound to the parameter is the newest
  -- element in both scopes or is not taken over.
  have hmerged (M' : Machine) (hM' : final step settings { M with scope := scope } = M') :
      Reads param elements shadowed count'
        { M' with scope := M.scope.merge M'.scope excluded } := by
    subst hM'
    refine ⟨hinner.lookback, h.recurrence, fun hshadowed => ?_⟩
    refine (Scope.lookup_merge_of_kept fun hparam => ?_).trans (h.newest hshadowed)
    rw [h.newest hshadowed, hinner.newest (by simpa [hshadowed] using hparam)]
  cases hrun : step settings { M with scope := scope } with
  | ok a M' =>
      rw [Eval.final_ok (Eval.inChild_ok hrun)]
      exact hmerged M' (Eval.final_ok hrun)
  | error halt M' =>
      rw [Eval.final_error (Eval.inChild_error hrun)]
      rw [Eval.final_error hrun] at hinner
      exact ⟨hinner.lookback, h.recurrence, h.newest⟩

end Reads

/-! ## What is read -/

namespace Event

/-- The value that was read. -/
def value? : Event → Option Value
  | read v => some v
  | assigned => none

end Event

/-- The reads of a run that does not assign to the parameter give one element after another, and
nothing but these reads counts. -/
theorem Traced.recalls {settings : Settings} {param : String} {elements : Array Value}
    {shadowed : Bool} {α : Type} {x : Eval α} {M : Machine} {events : List Event}
    (h : Traced settings param shadowed x M events) (hassigned : Event.assigned ∉ events)
    {count : Nat} (hM : Reads param elements shadowed count M) :
    events.map Event.value? =
        (List.range' (count + 1) events.length).map (recalled elements) ∧
      Reads param elements shadowed (count + events.length) (final x settings M) := by
  -- By induction on the trace, generalized to the number of reads before it.
  induction h generalizing count with
  | quiet hx => exact ⟨rfl, hM.quiet hx⟩
  | @readVariable shadowed M name position v lookback hget =>
      rw [Eval.final_ok (Eval.readVariable_ok hget)]
      by_cases hname : name = param ∧ shadowed = false
      · obtain ⟨rfl, rfl⟩ := hname
        obtain ⟨hvalue, rfl⟩ := hM.get?_param hget
        exact ⟨by simp [Event.value?, hvalue], by simpa using ⟨rfl, hM.recurrence, hM.newest⟩⟩
      · obtain rfl := hM.get?_other hname hget
        simpa [hname] using hM
  | unbound hget =>
      rw [Eval.final_error (Eval.readVariable_error hget)]
      exact ⟨rfl, hM⟩
  | @assign shadowed M name v =>
      by_cases hname : name = param ∧ shadowed = false
      · simp [hname] at hassigned
      · rw [if_neg hname]
        exact ⟨rfl, hM.assign v hname⟩
  | @bind α β shadowed x f M M' a before after hrun hx hf ihx ihf =>
      rw [List.mem_append, not_or] at hassigned
      obtain ⟨hbefore, hM'⟩ := ihx hassigned.1 hM
      rw [Eval.final_ok hrun] at hM'
      obtain ⟨hafter, hfinal⟩ := ihf hassigned.2 hM'
      rw [Eval.final_bind_ok hrun]
      -- The reads of the second part are counted on from those of the first.
      rw [List.length_append, List.map_append, hbefore, hafter, ← List.range'_append_1,
        List.map_append, ← Nat.add_assoc, Nat.add_right_comm count 1]
      exact ⟨rfl, hfinal⟩
  | stop hrun hx ih =>
      obtain ⟨hbefore, hM'⟩ := ih hassigned hM
      rw [Eval.final_error hrun] at hM'
      rw [Eval.final_bind_error hrun]
      exact ⟨hbefore, hM'⟩
  | @block shadowed run b v M events hbody ih =>
      obtain ⟨hevents, hinner⟩ := ih hassigned (hM.inner [(b.param, v)])
      exact ⟨hevents, hM.inChild hinner⟩
  | @combinator shadowed run c v w M events hexpr ih =>
      obtain ⟨hevents, hinner⟩ := ih hassigned (hM.inner [(leftName, v), (rightName, w)])
      exact ⟨hevents, hM.inChild hinner⟩
  | @invoke shadowed run name f values position M events hfunction harity hbody ih =>
      have hnames : (f.params.zip values).map Prod.fst = f.params :=
        List.map_fst_zip (Nat.le_of_eq harity)
      have hstart := hM.inner (f.params.zip values)
      rw [hnames] at hstart
      obtain ⟨hevents, hinner⟩ := ih hassigned hstart
      refine ⟨hevents, ?_⟩
      rw [final, Eval.invoke_eq, hfunction]
      simp only [harity, if_true]
      exact hM.inChild hinner
  | @refused shadowed run name values position M hrefused =>
      refine ⟨rfl, ?_⟩
      rw [final, Eval.invoke_eq]
      cases hfunction : M.scope.function? name with
      | none => exact hM
      | some f =>
          simp only [hrefused f hfunction, if_false]
          exact hM

/-- The scope of a generator has the functions of the scope in which its sequence was made. -/
theorem Sequence.function?_nextScope (s : Sequence) (elements : Array Value) (name : String) :
    (s.nextScope elements).function? name = s.scope.function? name := by
  unfold nextScope
  cases elements.back? with
  | none => rfl
  | some newest => rfl

/-- A generator runs behind some elements and does not assign to its parameter.  Then the first read
of the parameter gives the newest element, each further read the element in front of the one that
was read last, and when all elements are read, every read gives the newest element again.  Reads
count in whichever scope they are made, except where another parameter has the same name.  Nothing
else counts: when the run ends, as many elements are read as there were reads, or all of them.

All runs have traces, and there is one without assignments if none stands in the generator or in a
function of its scope. -/
theorem generator_reads_back (settings : Settings) (outer : Machine) (s : Sequence)
    {elements : Array Value} (hne : elements ≠ #[]) (d : Nat) :
    let param := s.generator.param
    let generating := Eval.program (Eval.nested d) s.generator.body
    let start := outer.enter s elements
    (∃ events, Traced settings param false generating start events) ∧
    ((∀ n ∈ s.generator.body.items, n.Avoids param) → s.scope.FunctionsAvoid param →
      ∃ events, Traced settings param false generating start events ∧ Event.assigned ∉ events) ∧
    ∀ events, Traced settings param false generating start events → Event.assigned ∉ events →
      (∀ k, 1 ≤ k → k ≤ events.length →
        events[k - 1]? = (if k ≤ elements.size then elements[elements.size - k]?
          else elements[elements.size - 1]?).map .read) ∧
      (final generating settings start).lookback =
        ⟨elements, elements.size - events.length⟩ := by
  refine ⟨exists_traced settings _ d _ _, fun hbody hfunctions => ?_,
    fun events htraced hassigned => ?_⟩
  · refine exists_traced_of_avoids settings d hbody fun name f hf => ?_
    exact hfunctions name f (s.function?_nextScope elements name ▸ hf)
  obtain ⟨hvalues, hfinal⟩ := htraced.recalls hassigned (Reads.enter outer s hne)
  rw [Nat.zero_add] at hvalues hfinal
  refine ⟨fun k hk hlength => ?_, hfinal.lookback⟩
  have hindex : k - 1 < events.length := by omega
  have hrecalled : (events[k - 1]).value? = recalled elements k := by
    have hentry := congrArg (·[k - 1]?) hvalues
    simpa [hindex, Nat.add_sub_cancel' hk] using hentry
  cases hevent : events[k - 1] with
  | assigned => exact absurd (hevent ▸ List.getElem_mem hindex) hassigned
  | read v =>
      rw [hevent, Event.value?, recalled, Array.back?_eq_getElem?] at hrecalled
      rw [List.getElem?_eq_getElem hindex, hevent, ← hrecalled, Option.map_some]

namespace ReadingBack

open Assigning (start)

/-- The block with a parameter that only reads the variable `_`. -/
def reading (param : String) : Block := ⟨param, ⟨[.var implicitName .start], .start⟩, .start⟩

/-- The block `{_ y{_} {_} _}`.  It reads its parameter itself, in a block, and itself again; what
the other block reads is its own parameter. -/
def generator : Block :=
  ⟨implicitName, ⟨[.var implicitName .start, .block (reading "y"), .block (reading implicitName),
    .var implicitName .start], .start⟩, .start⟩

def sequence : Sequence := ⟨[0], [.text "a", .text "b"], generator, none, .empty⟩

def elements : Array Value := #[.text "a", .text "b"]

/-- The generator runs, and some elements are unread. -/
def running (unread : Nat) : Machine :=
  { start.enter sequence elements with lookback := ⟨elements, unread⟩ }

def events : List Event := [.read (.text "b"), .read (.text "a"), .read (.text "b")]

/-- A read of `_` is listed unless it is shadowed. -/
theorem traced_var (d : Nat) {M : Machine} {v : Value} {lookback : Lookback}
    (hget : M.scope.get? M.lookback implicitName = some (v, lookback)) (shadowed : Bool) :
    Traced .small implicitName shadowed (Eval.nested (d + 1) (.var implicitName .start)) M
      (if shadowed then [] else [.read v]) := by
  have hread : Traced .small implicitName shadowed
      (Eval.nested (d + 1) (.var implicitName .start)) M _ := .readVariable hget
  cases shadowed with
  | true => simpa using hread
  | false => simpa using hread

/-- The inner blocks read `_`, which is shadowed if it is their parameter. -/
theorem traced_reading {param : String} {M : Machine} {v : Value} {lookback : Lookback}
    (hget : (M.scope.set param ((M.scope.lookup implicitName).getD .empty)).get? M.lookback
      implicitName = some (v, lookback)) :
    Traced .small implicitName false (Eval.nested 2 (.block (reading param))) M
      (if [param].contains implicitName then [] else [.read v]) := by
  have hbody : Traced .small implicitName ([param].contains implicitName)
      (Eval.program (Eval.nested 1) (reading param).body)
      { M with scope := M.scope.set param ((M.scope.lookup implicitName).getD .empty) }
      ((if [param].contains implicitName then [] else [.read v]) ++ []) :=
    .bind (Eval.readVariable_ok hget) (traced_var 0 hget _) (.quiet (.pure v))
  rw [List.append_nil] at hbody
  exact .bind (Eval.current_eq _) (.quiet (.current _)) (.block hbody)

theorem traced_body : Traced .small implicitName false
    (Eval.program (Eval.nested 2) generator.body) (start.enter sequence elements) events := by
  have hfirst : Eval.nested 2 (.var implicitName .start) .small (running 2) =
      .ok (.text "b") (running 1) := by rfl
  have hblock : Eval.nested 2 (.block (reading "y")) .small (running 1) =
      .ok (.text "a") (running 0) := by rfl
  have hshadowed : Eval.nested 2 (.block (reading implicitName)) .small (running 0) =
      .ok (.text "b") (running 0) := by rfl
  have hlast : Eval.nested 2 (.var implicitName .start) .small (running 0) =
      .ok (.text "b") (running 0) := by rfl
  exact .bind hfirst (traced_var 1 rfl false) (.bind hblock (traced_reading rfl)
    (.bind hshadowed (traced_reading rfl) (.bind hlast (traced_var 1 rfl false)
      (.quiet (.pure _)))))

end ReadingBack

/-- A block reads back like the generator around it, and what a shadowed parameter is read as does
not count: of two elements the newest is read, then the other one, and then the newest again. -/
theorem generator_reads_back_in_blocks :
    ReadingBack.elements ≠ #[] ∧ Event.assigned ∉ ReadingBack.events ∧
      ReadingBack.events.length = 3 ∧
      (∀ k, 1 ≤ k → k ≤ 3 → ReadingBack.events[k - 1]? =
        (if k ≤ 2 then ReadingBack.elements[2 - k]? else ReadingBack.elements[1]?).map .read) ∧
      (final (Eval.program (Eval.nested 2) ReadingBack.generator.body) .small
        (Assigning.start.enter ReadingBack.sequence ReadingBack.elements)).lookback =
          ⟨ReadingBack.elements, 0⟩ := by
  have hne : ReadingBack.elements ≠ #[] := by simp [ReadingBack.elements]
  have hassigned : Event.assigned ∉ ReadingBack.events := by simp [ReadingBack.events]
  have hreads := (generator_reads_back .small Assigning.start ReadingBack.sequence
    hne 2).2.2 ReadingBack.events ReadingBack.traced_body hassigned
  exact ⟨hne, hassigned, rfl, hreads⟩

end Terse
