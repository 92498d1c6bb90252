import Terse.Proofs.Invariant
import Terse.Proofs.Operators
import Terse.Proofs.Runs

/-!
# Every evaluation keeps the machine sound

`Preserves` says of one run of a computation that it ends, with a result or without, in a sound
machine that has grown, and that a result satisfies a postcondition.  Honest computations preserve
soundness if the evaluator that they run nodes with does, and so evaluation preserves soundness at
every depth of nesting.

The statements carry a predicate on facts: `SoundFor Q M` says that every fact of the store
satisfies `Q`, as long as the output takes everything that is written.  What is to be shown of `Q`
is only that runs of generators establish it.

## Strategy

* Scopes: blocks, combinators and functions run in a copy of the scope over known values, and what
  the outer scope takes over is known too (`Preserves.inChild`).
* Elements: a run of a generator appends one element or leaves the sequence as it was
  (`SafeEvaluator.generate`).  `SafeEvaluator.Filled` and `SafeEvaluator.Element` list how a request
  for an element can end.  They are inductive families, so that later modules can split a request
  into its cases instead of following the loop again.
* Computations: `Honest.preserves` is the induction over honest computations, with one case for each
  kind of step.
* Depths: `nested_preserves` is the induction on the depth of nesting.  A generator that runs at
  some depth establishes `Q` at smaller depths only, so `Q` may be proved along with the induction.
-/

namespace Terse

/-- A property of an element together with its sequence and the elements in front of it. -/
abbrev FactProperty := Sequence → List Value → Value → Prop

/-- A sound machine whose facts have a property, provided that the output has no limit. -/
structure SoundFor (Q : FactProperty) (M : Machine) : Prop where
  sound : M.Sound
  facts : M.output.room = none → ∀ s history v, Fact M.store s history v → Q s history v

/-- What can be used in a machine. -/
def Machine.knowledge (M : Machine) : Knowledge where
  has := Known M.store M.site.label
  text := .text
  number n _ := .number n
  array_iff := Known.array_iff

theorem Grows.knowledge_le {M M' : Machine} (h : Grows M M') : M.knowledge ≤ M'.knowledge :=
  fun _ hv => h.known hv

/-- The run of a computation in a machine leads to a sound machine, and a result satisfies `P`. -/
def Preserves (Q : FactProperty) (settings : Settings) (M : Machine) {α : Type} (x : Eval α)
    (P : Knowledge → α → Prop) : Prop :=
  match x settings M with
  | .ok a M' => SoundFor Q M' ∧ Grows M M' ∧ P M'.knowledge a
  | .error _ M' => SoundFor Q M' ∧ Grows M M'

namespace Preserves

variable {Q : FactProperty} {settings : Settings} {M : Machine} {α β : Type}

theorem of_ok {x : Eval α} {P : Knowledge → α → Prop} {a : α} {M' : Machine}
    (hrun : x settings M = .ok a M') (hM : SoundFor Q M') (hgrows : Grows M M')
    (ha : P M'.knowledge a) : Preserves Q settings M x P := by
  rw [Preserves, hrun]
  exact ⟨hM, hgrows, ha⟩

theorem of_error {x : Eval α} {P : Knowledge → α → Prop} {halt : Halt} {M' : Machine}
    (hrun : x settings M = .error halt M') (hM : SoundFor Q M') (hgrows : Grows M M') :
    Preserves Q settings M x P := by
  rw [Preserves, hrun]
  exact ⟨hM, hgrows⟩

theorem ok {x : Eval α} {P : Knowledge → α → Prop} (h : Preserves Q settings M x P) {a : α}
    {M' : Machine} (hrun : x settings M = .ok a M') :
    SoundFor Q M' ∧ Grows M M' ∧ P M'.knowledge a := by
  rwa [Preserves, hrun] at h

theorem error {x : Eval α} {P : Knowledge → α → Prop} (h : Preserves Q settings M x P)
    {halt : Halt} {M' : Machine} (hrun : x settings M = .error halt M') :
    SoundFor Q M' ∧ Grows M M' := by
  rwa [Preserves, hrun] at h

theorem pure {a : α} {P : Knowledge → α → Prop} (hM : SoundFor Q M) (ha : P M.knowledge a) :
    Preserves Q settings M (Pure.pure a) P :=
  of_ok rfl hM (.refl M) ha

theorem throw {halt : Halt} {P : Knowledge → α → Prop} (hM : SoundFor Q M) :
    Preserves Q settings M (throwThe Halt halt) P :=
  of_error rfl hM (.refl M)

theorem bind {x : Eval α} {f : α → Eval β} {P : Knowledge → α → Prop}
    {R : Knowledge → β → Prop} (hx : Preserves Q settings M x P)
    (hf : ∀ a M', SoundFor Q M' → Grows M M' → P M'.knowledge a →
      Preserves Q settings M' (f a) R) :
    Preserves Q settings M (x >>= f) R := by
  cases hrun : x settings M with
  | error halt M' =>
      obtain ⟨hM', hgrows⟩ := hx.error hrun
      exact of_error (Eval.bind_error hrun) hM' hgrows
  | ok a M' =>
      obtain ⟨hM', hgrows, ha⟩ := hx.ok hrun
      -- The second step starts in the machine that the first one leaves.
      have hnext := hf a M' hM' hgrows ha
      cases hrun' : f a settings M' with
      | ok b M'' =>
          obtain ⟨hM'', hgrows', hb⟩ := hnext.ok hrun'
          exact of_ok ((Eval.bind_ok hrun).trans hrun') hM'' (hgrows.trans hgrows') hb
      | error halt M'' =>
          obtain ⟨hM'', hgrows'⟩ := hnext.error hrun'
          exact of_error ((Eval.bind_ok hrun).trans hrun') hM'' (hgrows.trans hgrows')

theorem weaken {x : Eval α} {P R : Knowledge → α → Prop} (hx : Preserves Q settings M x P)
    (himp : ∀ K' a, M.knowledge ≤ K' → P K' a → R K' a) : Preserves Q settings M x R := by
  cases hrun : x settings M with
  | ok a M' =>
      obtain ⟨hM', hgrows, ha⟩ := hx.ok hrun
      exact of_ok hrun hM' hgrows (himp _ a hgrows.knowledge_le ha)
  | error halt M' =>
      obtain ⟨hM', hgrows⟩ := hx.error hrun
      exact of_error hrun hM' hgrows

end Preserves

/-! ## Scopes -/

namespace SoundFor

variable {Q : FactProperty} {M : Machine}

/-- Another scope over known values. -/
theorem withScope (hM : SoundFor Q M) {scope : Scope}
    (hscope : ∀ name v, scope.lookup name = some v → Known M.store M.site.label v) :
    SoundFor Q { M with scope := scope } :=
  ⟨hM.sound.update hscope hM.sound.history, hM.facts⟩

/-- A known sequence can produce its next element. -/
theorem producing {s : Sequence} (hM : SoundFor Q M) (hs : M.knowledge.has (.sequence s)) :
    Producing M s (M.store.progress s) := by
  obtain ⟨⟨p, hfind, hsame⟩, hbefore⟩ := Known.sequence_iff.1 hs
  rw [Store.progress_of_find? hfind]
  exact ⟨hM.sound, hfind, hsame, hbefore⟩

end SoundFor

namespace Scope

variable {scope inner : Scope} {P : Value → Prop}

theorem forall_set (hscope : ∀ name v, scope.lookup name = some v → P v) {name : String}
    {v : Value} (hv : P v) : ∀ other w, (scope.set name v).lookup other = some w → P w :=
  Bindings.forall_insert hscope hv

theorem forall_setAll {values : List (String × Value)}
    (hscope : ∀ name v, scope.lookup name = some v → P v) (hvalues : ∀ b ∈ values, P b.2) :
    ∀ name v, (scope.setAll values).lookup name = some v → P v := by
  induction values generalizing scope with
  | nil => exact hscope
  | cons first rest ih =>
      refine ih (forall_set hscope (hvalues first List.mem_cons_self)) fun b hb => ?_
      exact hvalues b (List.mem_cons_of_mem _ hb)

theorem forall_merge (hscope : ∀ name v, scope.lookup name = some v → P v)
    (hinner : ∀ name v, inner.lookup name = some v → P v) (excluded : List String) :
    ∀ name v, (scope.merge inner excluded).lookup name = some v → P v :=
  Bindings.forall_update hscope hinner excluded

end Scope

namespace Preserves

variable {Q : FactProperty} {settings : Settings} {M : Machine} {α : Type}

theorem inChild {inner : Scope} {excluded : List String} {step : Eval α}
    {P : Knowledge → α → Prop} (hM : SoundFor Q M)
    (hinner : ∀ name v, inner.lookup name = some v → Known M.store M.site.label v)
    (hstep : ∀ M', SoundFor Q M' → M'.knowledge = M.knowledge → Preserves Q settings M' step P) :
    Preserves Q settings M (Eval.inChild inner excluded step) P := by
  have hinside := hstep { M with scope := inner } (hM.withScope hinner) rfl
  cases hrun : step settings { M with scope := inner } with
  | ok a M' =>
      obtain ⟨hM', hgrows, ha⟩ := hinside.ok hrun
      have houter : ∀ name v, M.scope.lookup name = some v → Known M'.store M'.site.label v :=
        fun name v h => hgrows.known (hM.sound.scope name v h)
      -- The copy is merged into the outer scope, whose values are still known.
      exact of_ok (Eval.inChild_ok hrun)
        (hM'.withScope (Scope.forall_merge houter hM'.sound.scope excluded)) (hgrows.of_scopes _) ha
  | error halt M' =>
      obtain ⟨hM', hgrows⟩ := hinside.error hrun
      refine of_error (Eval.inChild_error hrun) (hM'.withScope fun name v h => ?_)
        (hgrows.of_scopes _)
      exact hgrows.known (hM.sound.scope name v h)

theorem readVariable (hM : SoundFor Q M) {name : String} {position : Position} :
    Preserves Q settings M (Eval.readVariable name position) Knowledge.has := by
  cases hget : M.scope.get? M.lookback name with
  | none => exact .of_error (Eval.readVariable_error hget) hM (.refl M)
  | some result =>
      obtain ⟨v, lookback⟩ := result
      obtain ⟨hhistory, hv⟩ := Eval.get?_cases hget
      refine .of_ok (Eval.readVariable_ok hget) ⟨?_, hM.facts⟩ (.of_same rfl rfl .rfl) ?_
      · exact hM.sound.update hM.sound.scope (hhistory ▸ hM.sound.history)
      · exact hv.elim (hM.sound.scope name v) (hM.sound.history v)

theorem writeLine (hM : SoundFor Q M) {text : String} :
    Preserves Q settings M (Eval.writeLine text) fun _ _ => True := by
  obtain ⟨output, hroom, hrun⟩ := Eval.writeLine_cases settings M text
  have hsame : SoundFor Q { M with output := output } :=
    ⟨hM.sound.update hM.sound.scope hM.sound.history, fun h => hM.facts (hroom.1 h)⟩
  rcases hrun with hrun | ⟨-, hrun⟩
  · exact .of_ok hrun hsame (.of_same rfl rfl hroom) trivial
  · exact .of_error hrun hsame (.of_same rfl rfl hroom)

end Preserves

/-! ## Evaluators that preserve soundness -/

/-- Evaluation of nodes preserves soundness, and what generators produce has the property. -/
structure SafeEvaluator (Q : FactProperty) (settings : Settings) (run : Evaluator) : Prop where
  node : ∀ n M, SoundFor Q M → Preserves Q settings M (run n) Knowledge.has
  produced : ∀ M s p v F, Producing M s p → SoundFor Q M → M.output.room = none →
    Eval.program run s.generator.body settings (M.enter s p.elements) = .ok v F →
    Q s p.elements.toList v

namespace SafeEvaluator

variable {Q : FactProperty} {settings : Settings} {run : Evaluator} {M : Machine}

theorem items (hrun : SafeEvaluator Q settings run) (hM : SoundFor Q M) {nodes : List Node}
    {last : Value} (hlast : M.knowledge.has last) :
    Preserves Q settings M (Eval.items run nodes last) Knowledge.has := by
  induction nodes generalizing M last with
  | nil => exact .pure hM hlast
  | cons n rest ih => exact .bind (hrun.node n M hM) fun _ _ hM' _ hv => ih hM' hv

theorem program (hrun : SafeEvaluator Q settings run) (hM : SoundFor Q M) (body : Program) :
    Preserves Q settings M (Eval.program run body) Knowledge.has :=
  hrun.items hM M.knowledge.empty

theorem applyBlock (hrun : SafeEvaluator Q settings run) (hM : SoundFor Q M) (b : Block)
    {v : Value} (hv : M.knowledge.has v) :
    Preserves Q settings M (Eval.applyBlock run b v) Knowledge.has :=
  .inChild hM (Scope.forall_set hM.sound.scope hv) fun _ hM' _ => hrun.program hM' b.body

theorem applyCombinator (hrun : SafeEvaluator Q settings run) (hM : SoundFor Q M) (c : Combinator)
    {v w : Value} (hv : M.knowledge.has v) (hw : M.knowledge.has w) :
    Preserves Q settings M (Eval.applyCombinator run c v w) Knowledge.has :=
  .inChild hM (Scope.forall_set (Scope.forall_set hM.sound.scope hv) hw) fun _ hM' _ =>
    hrun.node c.expr _ hM'

theorem invoke (hrun : SafeEvaluator Q settings run) (hM : SoundFor Q M) (name : String)
    {values : List Value} (hvalues : M.knowledge.all values) (position : Position) :
    Preserves Q settings M (Eval.invoke run name values position) Knowledge.has := by
  cases hfunction : M.scope.function? name with
  | none => exact .of_error (by rw [Eval.invoke_eq, hfunction]) hM (.refl M)
  | some function =>
      by_cases hlength : function.params.length = values.length
      · rw [Preserves, Eval.invoke_eq, hfunction]
        simp only [hlength, if_true]
        refine Preserves.inChild hM (Scope.forall_setAll hM.sound.scope fun b hb => ?_)
          fun _ hM' _ => hrun.node function.body _ hM'
        exact hvalues b.2 (List.of_mem_zip hb).2
      · exact .of_error (by rw [Eval.invoke_eq, hfunction]; exact if_neg hlength) hM (.refl M)

/-! ### Elements -/

/-- A production starts with the facts that there are. -/
theorem enter {s : Sequence} {p : Progress} (h : Producing M s p) (hM : SoundFor Q M) :
    SoundFor Q (M.enter s p.elements) :=
  ⟨h.enter, hM.facts⟩

/-- One run of a generator: it appends one element, or fails and changes nothing of the
sequence. -/
theorem generate (hrun : SafeEvaluator Q settings run) (hM : SoundFor Q M) {s : Sequence}
    (hs : M.knowledge.has (.sequence s))
    (hroom : ∀ n, s.length = some n → (M.store.progress s).elements.size < n) :
    Preserves Q settings M (Eval.generate run s) fun _ _ => True := by
  have h := hM.producing hs
  have hinside := hrun.program (enter h hM) s.generator.body
  cases hprogram : Eval.program run s.generator.body settings
      (M.enter s (M.store.progress s).elements) with
  | ok v F =>
      obtain ⟨hF, hgrows, hv⟩ := hinside.ok hprogram
      obtain ⟨hsound, hgrown⟩ := h.succeed hroom hF.sound hgrows hv
      refine .of_ok (Eval.generate_ok hprogram) ⟨hsound, fun hunlimited s' history w hfact => ?_⟩
        hgrown trivial
      -- A fact is older than the new element, or it is the new element; then the run is why it
      -- holds.
      rcases Fact.of_push hfact with hfact | ⟨p, hp, hsame, rfl, rfl⟩
      · exact hF.facts hunlimited s' history w hfact
      · obtain rfl := Option.some.inj (hp.symm.trans (h.find_inner hgrows))
        obtain rfl : s = s' := h.same.symm.trans hsame
        exact hrun.produced M s _ w F h hM (hgrows.unlimited.1 hunlimited) hprogram
  | error halt F =>
      obtain ⟨hF, hgrows⟩ := hinside.error hprogram
      obtain ⟨hsound, hgrown⟩ := h.fail hF.sound hgrows
      refine .of_error (Eval.generate_error hprogram)
        ⟨hsound, fun hunlimited s' history w hfact => ?_⟩ hgrown
      exact hF.facts hunlimited s' history w hfact.of_discard

/-- A run of a generator that succeeds appends one element. -/
theorem progress_generate (hrun : SafeEvaluator Q settings run) (hM : SoundFor Q M) {s : Sequence}
    (hs : M.knowledge.has (.sequence s)) {M' : Machine}
    (hgenerate : Eval.generate run s settings M = .ok () M') :
    ∃ v, M'.store.progress s = (M.store.progress s).push v := by
  have h := hM.producing hs
  cases hprogram : Eval.program run s.generator.body settings
      (M.enter s (M.store.progress s).elements) with
  | error halt F => simp [Eval.generate_error hprogram] at hgenerate
  | ok v F =>
      rw [Eval.generate_ok hprogram] at hgenerate
      obtain ⟨-, rfl⟩ := EStateM.Result.ok.inj hgenerate
      have hgrows := ((hrun.program (enter h hM) s.generator.body).ok hprogram).2.1
      refine ⟨v, Store.progress_of_find? ?_⟩
      simp only [Machine.reenter, Store.find?_push, if_true, h.find_inner hgrows, Option.map_some]

/-- A run of a generator that fails leaves the sequence as it was. -/
theorem progress_generate_error (hrun : SafeEvaluator Q settings run) (hM : SoundFor Q M)
    {s : Sequence} (hs : M.knowledge.has (.sequence s)) {halt : Halt} {M' : Machine}
    (hgenerate : Eval.generate run s settings M = .error halt M') :
    M'.store.progress s = M.store.progress s := by
  have h := hM.producing hs
  cases hprogram : Eval.program run s.generator.body settings
      (M.enter s (M.store.progress s).elements) with
  | ok v F => simp [Eval.generate_ok hprogram] at hgenerate
  | error halt' F =>
      rw [Eval.generate_error hprogram] at hgenerate
      obtain ⟨-, rfl⟩ := EStateM.Result.error.inj hgenerate
      have hgrows := ((hrun.program (enter h hM) s.generator.body).error hprogram).2
      refine Store.progress_of_find? ?_
      -- What is discarded was made below the label of the sequence, so the sequence itself stays.
      have hlonger : ¬ s.label ++ [(M.store.progress s).elements.size] <+: s.label := by
        intro hpre
        have hlength := hpre.length_le
        rw [List.length_append, List.length_singleton] at hlength
        omega
      simp only [Machine.reenter, Store.find?_discard, hlonger, if_false, h.find_inner hgrows]

/-- How the attempt to produce the elements up to an index ends: with the element, or with a run
of the generator that fails. -/
inductive Filled (Q : FactProperty) (settings : Settings) (run : Evaluator) (s : Sequence)
    (index : Nat) (M : Machine) : EStateM.Result Halt Machine Unit → Prop where
  | done {M' : Machine} (hM' : SoundFor Q M') (hgrows : Grows M M')
      (hsize : index < (M'.store.progress s).elements.size) :
      Filled Q settings run s index M (.ok () M')
  | failed {M' M'' : Machine} {halt : Halt} (hM' : SoundFor Q M') (hgrows : Grows M M')
      (hsize : (M'.store.progress s).elements.size ≤ index)
      (hgenerate : Eval.generate run s settings M' = .error halt M'') :
      Filled Q settings run s index M (.error halt M'')

theorem fill (hrun : SafeEvaluator Q settings run) (hM : SoundFor Q M) {s : Sequence}
    (hs : M.knowledge.has (.sequence s)) {index : Nat}
    (hindex : ∀ n, s.length = some n → index < n) {count : Nat}
    (hcount : index < (M.store.progress s).elements.size + count) :
    Filled Q settings run s index M (Eval.fill run s index count settings M) := by
  induction count generalizing M with
  | zero =>
      rw [Eval.fill_done 0 (by simpa using hcount)]
      exact .done hM (.refl M) (by simpa using hcount)
  | succ count ih =>
      by_cases hsize : index < (M.store.progress s).elements.size
      · rw [Eval.fill_done _ hsize]
        exact .done hM (.refl M) hsize
      have hle := Nat.le_of_not_lt hsize
      have hstep := hrun.generate hM hs fun n hn => Nat.lt_of_le_of_lt hle (hindex n hn)
      rw [Eval.fill_succ count hle]
      cases hgenerate : Eval.generate run s settings M with
      | error halt M' =>
          rw [Eval.bind_error hgenerate]
          exact .failed hM (.refl M) hle hgenerate
      | ok _ M' =>
          obtain ⟨hM', hgrows, -⟩ := hstep.ok hgenerate
          obtain ⟨v, hprogress⟩ := hrun.progress_generate hM hs hgenerate
          rw [Eval.bind_ok hgenerate]
          -- The run appended an element, so that one run less suffices for the others.
          have hfilled := ih hM' (hgrows.known hs) (by
            rw [hprogress]
            simp only [Progress.push, Array.size_push]
            omega)
          generalize Eval.fill run s index count settings M' = result at hfilled
          cases hfilled with
          | done hM'' hgrows' hsize' => exact .done hM'' (hgrows.trans hgrows') hsize'
          | failed hM'' hgrows' hsize' hgenerate' =>
              exact .failed hM'' (hgrows.trans hgrows') hsize' hgenerate'

/-- How the request for an element ends: outside of the length, with the element of the store, or
with a run of the generator that fails. -/
inductive Element (Q : FactProperty) (settings : Settings) (run : Evaluator) (s : Sequence)
    (index : Nat) (M : Machine) : EStateM.Result Halt Machine (Option Value) → Prop where
  | outside (hlength : s.length.any (· ≤ index) = true) :
      Element Q settings run s index M (.ok none M)
  | found {M' : Machine} {v : Value} (hlength : ¬ s.length.any (· ≤ index) = true)
      (hM' : SoundFor Q M') (hgrows : Grows M M')
      (hv : (M'.store.progress s).elements[index]? = some v) :
      Element Q settings run s index M (.ok (some v) M')
  | failed {M' M'' : Machine} {halt : Halt} (hlength : ¬ s.length.any (· ≤ index) = true)
      (hM' : SoundFor Q M') (hgrows : Grows M M')
      (hsize : (M'.store.progress s).elements.size ≤ index)
      (hgenerate : Eval.generate run s settings M' = .error halt M'') :
      Element Q settings run s index M (.error halt M'')

theorem elementAt_cases (hrun : SafeEvaluator Q settings run) (hM : SoundFor Q M) {s : Sequence}
    (hs : M.knowledge.has (.sequence s)) (index : Nat) :
    Element Q settings run s index M (Eval.elementAt run s index settings M) := by
  by_cases hlength : s.length.any (· ≤ index) = true
  · rw [Eval.elementAt_of_length_le hlength]
    exact .outside hlength
  have hindex := Eval.lt_length hlength
  have hcount : index < (M.store.progress s).elements.size +
      (index + 1 - (M.store.progress s).elements.size) := by omega
  -- As many runs as there are elements missing suffice.
  have hfilled := hrun.fill hM hs hindex hcount
  cases hfill : Eval.fill run s index (index + 1 - (M.store.progress s).elements.size)
      settings M with
  | ok _ M' =>
      rw [Eval.elementAt_of_fill_ok hlength hfill]
      rw [hfill] at hfilled
      cases hfilled with
      | done hM' hgrows hsize =>
          rw [Array.getElem?_eq_getElem hsize]
          exact .found hlength hM' hgrows (Array.getElem?_eq_getElem hsize)
  | error halt M' =>
      rw [Eval.elementAt_of_fill_error hlength hfill]
      rw [hfill] at hfilled
      cases hfilled with
      | failed hM' hgrows hsize hgenerate => exact .failed hlength hM' hgrows hsize hgenerate

theorem elementAt (hrun : SafeEvaluator Q settings run) (hM : SoundFor Q M) {s : Sequence}
    (hs : M.knowledge.has (.sequence s)) (index : Nat) :
    Preserves Q settings M (Eval.elementAt run s index) Knowledge.option := by
  have hcases := hrun.elementAt_cases hM hs index
  rw [Preserves]
  generalize Eval.elementAt run s index settings M = result at hcases
  cases hcases with
  | outside _ => exact ⟨hM, .refl M, fun v hv => absurd hv (by simp)⟩
  | @found M' v _ hM' hgrows hv =>
      refine ⟨hM', hgrows, fun w hw => ?_⟩
      obtain rfl := Option.some.inj hw
      exact (hM'.producing (hgrows.known hs)).known_outside hv
  | @failed M' M'' halt hlength hM' hgrows hsize hgenerate =>
      have hroom : ∀ n, s.length = some n → (M'.store.progress s).elements.size < n :=
        fun n hn => Nat.lt_of_le_of_lt hsize (Eval.lt_length hlength n hn)
      obtain ⟨hM'', hgrows'⟩ := (hrun.generate hM' (hgrows.known hs) hroom).error hgenerate
      exact ⟨hM'', hgrows.trans hgrows'⟩

end SafeEvaluator

/-! ## Honest computations -/

/-- Honest computations preserve soundness. -/
theorem Honest.preserves {D : Discipline} {Q : FactProperty} {settings : Settings}
    {run : Evaluator} (hinput : settings.input.Plain) (hrun : SafeEvaluator Q settings run)
    {α : Type} {K : Knowledge} {x : Evaluator → Eval α} {P : Knowledge → α → Prop}
    (hx : Honest D K x P) :
    ∀ M, SoundFor Q M → M.knowledge = K → Preserves Q settings M (x run) P := by
  induction hx with
  | pure ha =>
      rintro M hM rfl
      exact .pure hM ha
  | bind _ _ ihx ihf =>
      rintro M hM rfl
      exact .bind (ihx M hM rfl) fun a M' hM' hgrows ha =>
        ihf M'.knowledge a hgrows.knowledge_le ha M' hM' rfl
  | weaken _ himp ih =>
      rintro M hM rfl
      exact (ih M hM rfl).weaken himp
  | fail error => exact fun M hM _ => .throw hM
  | exhaust => exact fun M hM _ => .throw hM
  | settings =>
      rintro M hM rfl
      exact .of_ok rfl hM (.refl M) (M.knowledge.plain hinput)
  | readVariable name position =>
      rintro M hM rfl
      exact .readVariable hM
  | current name =>
      rintro M hM rfl
      refine .of_ok (Eval.current_eq name) hM (.refl M) (Knowledge.getD_option fun v hv => ?_)
      exact hM.sound.scope name v hv
  | @assign _ name v _ hv =>
      rintro M hM rfl
      exact .of_ok (Eval.assign_eq name v) (hM.withScope (Scope.forall_set hM.sound.scope hv))
        (.of_same rfl rfl .rfl) trivial
  | @define _ name function _ =>
      rintro M hM rfl
      exact .of_ok (Eval.define_eq name function) (hM.withScope hM.sound.scope)
        (.of_same rfl rfl .rfl) trivial
  | writeLine text => exact fun M hM _ => .writeLine hM
  | @makeSequence _ seeds generator length hseeds =>
      rintro M hM rfl
      obtain ⟨hsound, hgrows, hknown⟩ := hM.sound.make
        (s := ⟨M.site.label, seeds, generator, length, M.scope⟩) rfl hseeds rfl
      refine .of_ok (Eval.makeSequence_eq seeds generator length) ⟨hsound, ?_⟩ hgrows hknown
      exact fun hunlimited s history v hfact => hM.facts hunlimited s history v hfact.of_add
  | node _ => exact fun M hM _ => hrun.node _ M hM
  | block _ hv =>
      rintro M hM rfl
      exact hrun.applyBlock hM _ hv
  | combinator _ hv hw =>
      rintro M hM rfl
      exact hrun.applyCombinator hM _ hv hw
  | invoke name position hvalues _ =>
      rintro M hM rfl
      exact hrun.invoke hM name hvalues position
  | element index hs =>
      rintro M hM rfl
      exact hrun.elementAt hM hs index

/-- Runs of generators at a depth of nesting establish a property of facts. -/
def Establishes (Q : FactProperty) (settings : Settings) (depth : Nat) : Prop :=
  ∀ M s p v F, Producing M s p → SoundFor Q M → M.output.room = none →
    Eval.program (Eval.nested depth) s.generator.body settings (M.enter s p.elements) = .ok v F →
    Q s p.elements.toList v

/-- Evaluation preserves soundness at every depth.  Generators that run during the evaluation are
nested less deeply, so only smaller depths have to establish the property. -/
theorem nested_preserves {Q : FactProperty} {settings : Settings} (hinput : settings.input.Plain)
    (depth : Nat) (hQ : ∀ d < depth, Establishes Q settings d) :
    ∀ n M, SoundFor Q M → Preserves Q settings M (Eval.nested depth n) Knowledge.has := by
  induction depth with
  | zero => exact fun n M hM => .throw hM
  | succ depth ih =>
      intro n M hM
      have hrun : SafeEvaluator Q settings (Eval.nested depth) :=
        ⟨ih fun d hd => hQ d (Nat.lt_succ_of_lt hd), hQ depth (Nat.lt_succ_self depth)⟩
      have heval : Honest .free M.knowledge (fun run => Eval.node run n) Knowledge.has :=
        Honest.eval Discipline.free_closed trivial
      exact heval.preserves hinput hrun M hM rfl

theorem nested_safe {Q : FactProperty} {settings : Settings} (hinput : settings.input.Plain)
    (depth : Nat) (hQ : ∀ d ≤ depth, Establishes Q settings d) :
    SafeEvaluator Q settings (Eval.nested depth) :=
  ⟨nested_preserves hinput depth fun d hd => hQ d (Nat.le_of_lt hd), hQ depth (Nat.le_refl depth)⟩

end Terse
