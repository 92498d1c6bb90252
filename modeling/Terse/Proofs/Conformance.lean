import Terse.Proofs.Frame
import Terse.Proofs.Soundness

/-!
# Evaluation under a discipline

A discipline says what syntax may be run.  Values carry syntax that is run later: a sequence has a
generator and a copy of the scope that it was made in, and scopes have functions.  A machine
*conforms* to a discipline if all of this syntax may be run.

Evaluating a node that may be run, in a machine that conforms, leads to a machine that conforms; and
if it ends with an error, the error is an ordinary one or one that the discipline allows.  Errors
about the number of arguments are the ones to look at: they come up where the function that a name
is bound to and the call of that name disagree.

## Strategy

The layout is that of `Terse.Proofs.Soundness`, with *conforms* in the place of *sound*.

* `Conforming` says of one run how it may end, and is closed under `bind` and inner scopes.
* `ConformingEvaluator` collects what is assumed of the evaluation of nodes.  From it follow the
  cases that run nodes: programs, calls and requests for elements.
* `Honest.conforms` is the induction over honest computations, and `nested_conforms` the induction
  on the depth of nesting.

A discipline has to be hereditary: the parts of what may be run may be run too.  Nothing has to be
said about where an element comes from, so the store is only known to hold values that conform.
-/

namespace Terse

/-- What may be run consists of nodes that may be run, and a call that does not fit its function is
an error that is allowed. -/
structure Discipline.Hereditary (D : Discipline) : Prop where
  block : ∀ {b}, D.block b → ∀ n ∈ b.body.items, D.node n
  combinator : ∀ {c}, D.combinator c → D.node c.expr
  function : ∀ {name f}, D.function name f → D.node f.body
  generator : ∀ {b}, D.generator b → ∀ n ∈ b.body.items, D.node n
  arity : ∀ {name f count position}, D.function name f → D.call name count →
    f.params.length ≠ count → D.error (.arity name f.params.length count position)

/-! ## What conforms -/

/-- The sequences in a value have generators and scopes that may be run. -/
inductive Value.Conforms (D : Discipline) : Value → Prop where
  | text (text : String) : Conforms D (.text text)
  | number (number : Decimal) (hnumber : number.inRange = true ∨ D.wide) :
      Conforms D (.number number)
  | array {items : List Value} (hitems : ∀ v ∈ items, Conforms D v) : Conforms D (.array items)
  | sequence {s : Sequence} (hseeds : ∀ v ∈ s.seeds, Conforms D v)
      (hgenerator : D.generator s.generator)
      (hvalues : ∀ name v, s.scope.lookup name = some v → Conforms D v)
      (hfunctions : ∀ name f, s.scope.function? name = some f → D.function name f) :
      Conforms D (.sequence s)

/-- The values and functions of a scope may be run. -/
structure Scope.Conforms (D : Discipline) (scope : Scope) : Prop where
  values : ∀ name v, scope.lookup name = some v → v.Conforms D
  functions : ∀ name f, scope.function? name = some f → D.function name f

/-- All values and functions that a machine holds may be run. -/
structure Machine.Conforms (D : Discipline) (M : Machine) : Prop where
  scope : M.scope.Conforms D
  history : ∀ v ∈ M.lookback.history, v.Conforms D
  elements : ∀ label p, M.store.find? label = some p → ∀ v ∈ p.elements, v.Conforms D

variable {D : Discipline}

theorem Value.conforms_array_iff {items : List Value} :
    (Value.array items).Conforms D ↔ ∀ v ∈ items, v.Conforms D := by
  refine ⟨fun h => ?_, .array⟩
  cases h with
  | array hitems => exact hitems

/-- The values that conform. -/
def Discipline.knowledge (D : Discipline) : Knowledge D.wide where
  has := Value.Conforms D
  text := .text
  number := .number
  array_iff := Value.conforms_array_iff

namespace Scope.Conforms

variable {scope inner : Scope}

theorem set (h : scope.Conforms D) (name : String) {v : Value} (hv : v.Conforms D) :
    (scope.set name v).Conforms D :=
  ⟨forall_set h.values hv, h.functions⟩

theorem setAll (h : scope.Conforms D) {values : List (String × Value)}
    (hvalues : ∀ b ∈ values, b.2.Conforms D) : (scope.setAll values).Conforms D := by
  refine ⟨forall_setAll h.values hvalues, fun name f hf => h.functions name f ?_⟩
  rwa [function?_setAll] at hf

theorem define (h : scope.Conforms D) {name : String} {f : Function} (hf : D.function name f) :
    (scope.define name f).Conforms D :=
  ⟨h.values, Bindings.forall_insert h.functions hf⟩

theorem merge (h : scope.Conforms D) (hinner : inner.Conforms D) (excluded : List String) :
    (scope.merge inner excluded).Conforms D :=
  ⟨forall_merge h.values hinner.values excluded,
    Bindings.forall_update h.functions hinner.functions excluded⟩

end Scope.Conforms

namespace Machine.Conforms

variable {M : Machine}

theorem withScope (h : M.Conforms D) {scope : Scope} (hscope : scope.Conforms D) :
    ({ M with scope := scope } : Machine).Conforms D :=
  ⟨hscope, h.history, h.elements⟩

/-- The elements of a sequence, be they stored or not. -/
theorem progress (h : M.Conforms D) {s : Sequence} (hs : (Value.sequence s).Conforms D) :
    ∀ v ∈ (M.store.progress s).elements, v.Conforms D := by
  unfold Store.progress
  cases hfind : M.store.find? s.label with
  | some p => exact h.elements s.label p hfind
  | none =>
      cases hs with
      | sequence hseeds _ _ _ =>
          intro v hv
          exact hseeds v (by simpa [Progress.start] using hv)

theorem enter (h : M.Conforms D) {s : Sequence} (hs : (Value.sequence s).Conforms D) :
    (M.enter s (M.store.progress s).elements).Conforms D := by
  have helements := h.progress hs
  cases hs with
  | sequence hseeds hgenerator hvalues hfunctions =>
      refine ⟨⟨fun name v hv => ?_, fun name f hf => ?_⟩, helements, h.elements⟩
      · rcases Sequence.lookup_nextScope hv with hback | hcaptured
        · exact helements v (Array.mem_of_back? hback)
        · exact hvalues name v hcaptured
      · refine hfunctions name f ?_
        revert hf
        unfold Machine.enter Sequence.nextScope
        cases (M.store.progress s).elements.back? <;> exact id

end Machine.Conforms

/-! ## Runs that conform -/

/-- What stops an evaluation is the depth, or an error that is ordinary or allowed. -/
def Halt.Allowed (D : Discipline) : Halt → Prop
  | .fault error => error.Ordinary ∨ D.error error
  | .exhausted => True

/-- A run ends in a machine that conforms, with a result that satisfies `P`, or it is stopped in an
allowed way. -/
def Conforming (D : Discipline) (settings : Settings) (M : Machine) {α : Type} (x : Eval α)
    (P : α → Prop) : Prop :=
  match x settings M with
  | .ok a M' => M'.Conforms D ∧ P a
  | .error halt M' => M'.Conforms D ∧ halt.Allowed D

namespace Conforming

variable {settings : Settings} {M : Machine} {α β : Type}

theorem of_ok {x : Eval α} {P : α → Prop} {a : α} {M' : Machine}
    (hrun : x settings M = .ok a M') (hM' : M'.Conforms D) (ha : P a) :
    Conforming D settings M x P := by
  rw [Conforming, hrun]
  exact ⟨hM', ha⟩

theorem of_error {x : Eval α} {P : α → Prop} {halt : Halt} {M' : Machine}
    (hrun : x settings M = .error halt M') (hM' : M'.Conforms D) (hhalt : halt.Allowed D) :
    Conforming D settings M x P := by
  rw [Conforming, hrun]
  exact ⟨hM', hhalt⟩

theorem ok {x : Eval α} {P : α → Prop} (h : Conforming D settings M x P) {a : α} {M' : Machine}
    (hrun : x settings M = .ok a M') : M'.Conforms D ∧ P a := by
  rwa [Conforming, hrun] at h

theorem error {x : Eval α} {P : α → Prop} (h : Conforming D settings M x P) {halt : Halt}
    {M' : Machine} (hrun : x settings M = .error halt M') : M'.Conforms D ∧ halt.Allowed D := by
  rwa [Conforming, hrun] at h

theorem of_outcome {x : Eval α} {P : α → Prop} (h : Conforming D settings M x P)
    {error : EvalError} (hrun : Eval.outcome x settings M = .error (.fault error)) :
    error.Ordinary ∨ D.error error := by
  unfold Eval.outcome at hrun
  split at hrun
  · cases hrun
  · rename_i halt M' hresult
    obtain rfl := Except.error.inj hrun
    exact (h.error hresult).2

theorem bind {x : Eval α} {f : α → Eval β} {P : α → Prop} {Q : β → Prop}
    (hx : Conforming D settings M x P)
    (hf : ∀ a M', M'.Conforms D → P a → Conforming D settings M' (f a) Q) :
    Conforming D settings M (x >>= f) Q := by
  cases hrun : x settings M with
  | error halt M' =>
      obtain ⟨hM', hhalt⟩ := hx.error hrun
      exact .of_error (Eval.bind_error hrun) hM' hhalt
  | ok a M' =>
      obtain ⟨hM', ha⟩ := hx.ok hrun
      rw [Conforming, Eval.bind_ok hrun]
      exact hf a M' hM' ha

theorem weaken {x : Eval α} {P Q : α → Prop} (hx : Conforming D settings M x P)
    (himp : ∀ a, P a → Q a) : Conforming D settings M x Q := by
  cases hrun : x settings M with
  | error halt M' =>
      obtain ⟨hM', hhalt⟩ := hx.error hrun
      exact .of_error hrun hM' hhalt
  | ok a M' =>
      obtain ⟨hM', ha⟩ := hx.ok hrun
      exact .of_ok hrun hM' (himp a ha)

theorem inChild {inner : Scope} {excluded : List String} {step : Eval α} {P : α → Prop}
    (hM : M.Conforms D) (hinner : inner.Conforms D)
    (hstep : ∀ M', M'.Conforms D → Conforming D settings M' step P) :
    Conforming D settings M (Eval.inChild inner excluded step) P := by
  have hinside := hstep { M with scope := inner } (hM.withScope hinner)
  cases hrun : step settings { M with scope := inner } with
  | error halt M' =>
      obtain ⟨hM', hhalt⟩ := hinside.error hrun
      exact .of_error (Eval.inChild_error hrun) (hM'.withScope hM.scope) hhalt
  | ok a M' =>
      obtain ⟨hM', ha⟩ := hinside.ok hrun
      exact .of_ok (Eval.inChild_ok hrun) (hM'.withScope (hM.scope.merge hM'.scope excluded)) ha

end Conforming

/-! ## Evaluators that conform -/

/-- The evaluation of nodes that may be run conforms. -/
def ConformingEvaluator (D : Discipline) (settings : Settings) (run : Evaluator) : Prop :=
  ∀ n M, D.node n → M.Conforms D → Conforming D settings M (run n) (Value.Conforms D)

namespace ConformingEvaluator

variable {settings : Settings} {run : Evaluator} {M : Machine}

theorem program (hrun : ConformingEvaluator D settings run) (hM : M.Conforms D) {body : Program}
    (hbody : ∀ n ∈ body.items, D.node n) :
    Conforming D settings M (Eval.program run body) (Value.Conforms D) := by
  -- Generalized to the value of the last node, which is the result of no nodes.
  have hitems : ∀ nodes last M, (∀ n ∈ nodes, D.node n) → M.Conforms D → last.Conforms D →
      Conforming D settings M (Eval.items run nodes last) (Value.Conforms D) := by
    intro nodes
    induction nodes with
    | nil => exact fun last M _ hM hlast => .of_ok rfl hM hlast
    | cons n rest ih =>
        intro last M hnodes hM _
        obtain ⟨hn, hrest⟩ := List.forall_mem_cons.1 hnodes
        exact .bind (hrun n M hn hM) fun v M' hM' hv => ih v M' hrest hM' hv
  exact hitems body.items .empty M hbody hM (.text "")

theorem invoke (hrun : ConformingEvaluator D settings run) (hD : D.Hereditary)
    (hM : M.Conforms D) {name : String} {values : List Value}
    (hvalues : ∀ v ∈ values, v.Conforms D) (hcall : D.call name values.length)
    (position : Position) :
    Conforming D settings M (Eval.invoke run name values position) (Value.Conforms D) := by
  cases hfunction : M.scope.function? name with
  | none =>
      have hunbound : Eval.invoke run name values position settings M =
          .error (.fault (.unbound .function name position)) M := by
        rw [Eval.invoke_eq, hfunction]
      exact .of_error hunbound hM (.inl trivial)
  | some f =>
      have hf := hM.scope.functions name f hfunction
      by_cases hlength : f.params.length = values.length
      · rw [Conforming, Eval.invoke_eq, hfunction]
        simp only [hlength, if_true]
        refine Conforming.inChild hM (hM.scope.setAll fun b hb => ?_)
          fun M' hM' => hrun f.body M' (hD.function hf) hM'
        exact hvalues b.2 (List.of_mem_zip hb).2
      -- With another number of arguments there is an error, which the discipline has to allow.
      · have hfails : Eval.invoke run name values position settings M =
            .error (.fault (.arity name f.params.length values.length position)) M := by
          rw [Eval.invoke_eq, hfunction]
          exact if_neg hlength
        exact .of_error hfails hM (.inr (hD.arity hf hcall hlength))

/-- One run of a generator appends an element that conforms. -/
theorem generate (hrun : ConformingEvaluator D settings run) (hD : D.Hereditary)
    (hM : M.Conforms D) {s : Sequence} (hs : (Value.sequence s).Conforms D) :
    Conforming D settings M (Eval.generate run s) fun _ => True := by
  have hgenerator : D.generator s.generator := by
    cases hs with
    | sequence _ hgenerator _ _ => exact hgenerator
  have hinside := hrun.program (hM.enter hs) (hD.generator hgenerator)
  cases hprogram : Eval.program run s.generator.body settings
      (M.enter s (M.store.progress s).elements) with
  | error halt F =>
      obtain ⟨hF, hhalt⟩ := hinside.error hprogram
      refine .of_error (Eval.generate_error hprogram) ⟨hM.scope, hM.history, ?_⟩ hhalt
      exact fun label p hfind => hF.elements label p (Store.cases_find?_discard hfind).2
  | ok v F =>
      obtain ⟨hF, hv⟩ := hinside.ok hprogram
      refine .of_ok (Eval.generate_ok hprogram) ⟨hM.scope, hM.history, fun label p hfind => ?_⟩
        trivial
      -- An element is one that was there, or the new one.
      simp only [Machine.reenter, Store.find?_push] at hfind
      split at hfind
      · obtain ⟨q, hq, rfl⟩ := Option.map_eq_some_iff.1 hfind
        intro w hw
        rcases Array.mem_push.1 hw with hw | rfl
        · exact hF.elements label q hq w hw
        · exact hv
      · exact hF.elements label p hfind

theorem fill (hrun : ConformingEvaluator D settings run) (hD : D.Hereditary) {s : Sequence}
    (hs : (Value.sequence s).Conforms D) (index count : Nat) :
    ∀ M : Machine, M.Conforms D →
      Conforming D settings M (Eval.fill run s index count) fun _ => True := by
  induction count with
  | zero => exact fun M hM => .of_ok rfl hM trivial
  | succ count ih =>
      intro M hM
      by_cases hsize : index < (M.store.progress s).elements.size
      · exact .of_ok (Eval.fill_done _ hsize) hM trivial
      · rw [Conforming, Eval.fill_succ count (Nat.le_of_not_lt hsize)]
        exact (hrun.generate hD hM hs).bind fun _ M' hM' _ => ih M' hM'

theorem elementAt (hrun : ConformingEvaluator D settings run) (hD : D.Hereditary)
    (hM : M.Conforms D) {s : Sequence} (hs : (Value.sequence s).Conforms D) (index : Nat) :
    Conforming D settings M (Eval.elementAt run s index) fun v => ∀ w ∈ v, w.Conforms D := by
  by_cases hlength : s.length.any (· ≤ index) = true
  · exact .of_ok (Eval.elementAt_of_length_le hlength) hM (by simp)
  have hfilled := hrun.fill hD hs index (index + 1 - (M.store.progress s).elements.size) M hM
  cases hfill : Eval.fill run s index (index + 1 - (M.store.progress s).elements.size)
      settings M with
  | error halt M' =>
      obtain ⟨hM', hhalt⟩ := hfilled.error hfill
      exact .of_error (Eval.elementAt_of_fill_error hlength hfill) hM' hhalt
  | ok _ M' =>
      have hM' := (hfilled.ok hfill).1
      refine .of_ok (Eval.elementAt_of_fill_ok hlength hfill) hM' fun w hw => ?_
      exact hM'.progress hs w (Array.mem_of_getElem? hw)

end ConformingEvaluator

/-! ## Honest computations -/

/-- Honest computations on values that conform do conform. -/
theorem Honest.conforms {settings : Settings} {run : Evaluator} (hD : D.Hereditary)
    (hinput : settings.input.Conforms D) (hrun : ConformingEvaluator D settings run)
    {α : Type} {K : Knowledge D.wide} {x : Evaluator → Eval α}
    {P : Knowledge D.wide → α → Prop} (hx : Honest D K x P) (hK : K = D.knowledge) :
    ∀ M : Machine, M.Conforms D → Conforming D settings M (x run) (P K) := by
  -- The knowledge is the same in all machines: the values that conform.
  induction hx with
  | pure ha => exact fun M hM => .of_ok rfl hM ha
  | bind _ _ ihx ihf =>
      exact fun M hM => (ihx hK M hM).bind fun a M' hM' ha => ihf _ a (le_refl _) ha hK M' hM'
  | weaken _ himp ih =>
      exact fun M hM => (ih hK M hM).weaken fun a ha => himp _ a (le_refl _) ha
  | fail herror => exact fun M hM => .of_error rfl hM herror
  | exhaust => exact fun M hM => .of_error rfl hM trivial
  | settings =>
      subst hK
      exact fun M hM => .of_ok rfl hM hinput
  | readVariable name position =>
      subst hK
      intro M hM
      cases hget : M.scope.get? M.lookback name with
      | none => exact .of_error (Eval.readVariable_error hget) hM (.inl trivial)
      | some result =>
          obtain ⟨v, lookback⟩ := result
          obtain ⟨hhistory, hv⟩ := Eval.get?_cases hget
          refine .of_ok (Eval.readVariable_ok hget) ⟨hM.scope, ?_, hM.elements⟩ ?_
          · exact fun w hw => hM.history w (hhistory ▸ hw)
          · exact hv.elim (hM.scope.values name v) (hM.history v)
  | current name =>
      subst hK
      intro M hM
      exact .of_ok (Eval.current_eq name) hM (Knowledge.getD_option (hM.scope.values name))
  | @assign _ name v _ hv =>
      subst hK
      exact fun M hM => .of_ok (Eval.assign_eq name v) (hM.withScope (hM.scope.set name hv)) trivial
  | @define _ name f hf =>
      exact fun M hM => .of_ok (Eval.define_eq name f) (hM.withScope (hM.scope.define hf)) trivial
  | writeLine text =>
      intro M hM
      obtain ⟨output, -, hrun | ⟨-, hrun⟩⟩ := Eval.writeLine_cases settings M text
      · exact .of_ok hrun ⟨hM.scope, hM.history, hM.elements⟩ trivial
      · exact .of_error hrun ⟨hM.scope, hM.history, hM.elements⟩ (.inl trivial)
  | @makeSequence _ seeds generator length hseeds hgenerator =>
      subst hK
      intro M hM
      refine .of_ok (Eval.makeSequence_eq seeds generator length)
        ⟨hM.scope, hM.history, fun label p hfind => ?_⟩
        (.sequence hseeds hgenerator hM.scope.values hM.scope.functions)
      rw [Store.find?_add] at hfind
      split at hfind
      · obtain rfl := Option.some.inj hfind
        intro v hv
        exact hseeds v (by simpa [Progress.start] using hv)
      · exact hM.elements label p hfind
  | node hn =>
      subst hK
      exact fun M hM => hrun _ M hn hM
  | @block _ b v hb hv =>
      subst hK
      intro M hM
      exact .inChild hM (hM.scope.set b.param hv) fun M' hM' => hrun.program hM' (hD.block hb)
  | @combinator _ c v w hc hv hw =>
      subst hK
      intro M hM
      exact .inChild hM ((hM.scope.set leftName hv).set rightName hw) fun M' hM' =>
        hrun c.expr M' (hD.combinator hc) hM'
  | invoke name position hvalues hcall =>
      subst hK
      exact fun M hM => hrun.invoke hD hM hvalues hcall position
  | element index hs =>
      subst hK
      exact fun M hM => hrun.elementAt hD hM hs index

/-- Evaluation conforms at every depth. -/
theorem nested_conforms {settings : Settings} (hclosed : D.Closed) (hD : D.Hereditary)
    (hinput : settings.input.Conforms D) (depth : Nat) :
    ConformingEvaluator D settings (Eval.nested depth) := by
  induction depth with
  | zero => exact fun n M _ hM => .of_error rfl hM trivial
  | succ depth ih =>
      intro n M hn hM
      have heval : Honest D D.knowledge (fun run => Eval.node run n) Knowledge.has :=
        .eval hclosed hn
      exact heval.conforms hD hinput ih rfl M hM

end Terse
