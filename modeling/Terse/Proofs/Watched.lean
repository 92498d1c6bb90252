import Terse.Proofs.WellFormed

/-!
# Watched evaluation

What holds of the machine at the start and at the end of a program need not hold in between.  To
speak of a whole run, evaluation is watched: before each node the machine is looked at, and after
each node the machine and the value.  As soon as something is amiss, the evaluation goes astray,
which means that it goes on in a way that is not specified.

If everything that conforms to a discipline passes, then watched evaluation is evaluation
(`watched_concur`), and so is the run of a program (`evaluation_watched`): nothing was ever amiss,
neither in blocks and function bodies nor in generators that run much later.

## Strategy

Watched evaluation runs the watched evaluator for the parts of a node, so the two evaluators have to
be compared at all nodes that may be run.  `Concur` says that they do the same there, in machines
that conform.

* Two evaluators that concur do the same in programs, in calls and in requests for elements.  At
  each of these the machine conforms, by what is known of evaluation under a discipline.
* An honest computation runs nodes in these ways only, so it does the same with both
  (`Honest.congr`).
* `watched_concur` is by induction on the depth.  The node itself is an honest computation, and what
  is looked at before and behind it conforms, so it passes.
-/

namespace Terse

/-- What is looked at during a run: machines, and values in machines. -/
structure Watch where
  machine : Machine → Prop
  value : Machine → Value → Prop

open Classical in
/-- Evaluates nodes, nesting at most `depth` of them, as long as nothing is amiss. -/
noncomputable def Eval.watched (watch : Watch) (astray : Evaluator) : Nat → Evaluator
  | 0 => fun _ => Eval.exhaust
  | depth + 1 => fun n settings M =>
    if watch.machine M then
      match Eval.node (watched watch astray depth) n settings M with
      | .ok v M' =>
        if watch.machine M' ∧ watch.value M' v then .ok v M' else astray n settings M'
      | .error halt M' => if watch.machine M' then .error halt M' else astray n settings M'
    else astray n settings M

/-- All that conforms passes. -/
structure Watch.Passes (watch : Watch) (D : Discipline) : Prop where
  machine : ∀ {M : Machine}, M.Conforms D → watch.machine M
  value : ∀ {M : Machine} {v : Value}, M.Conforms D → v.Conforms D → watch.value M v

/-! ## Evaluators that agree on what may be run -/

variable {D : Discipline} {settings : Settings} {run run' : Evaluator}

theorem Conforming.bind_congr {M : Machine} {α β : Type} {x x' : Eval α} {f f' : α → Eval β}
    {P : α → Prop} (hx : Conforming D settings M x' P) (hsame : x settings M = x' settings M)
    (hf : ∀ a M', M'.Conforms D → P a → f a settings M' = f' a settings M') :
    (x >>= f) settings M = (x' >>= f') settings M := by
  cases hrun : x' settings M with
  | error halt M' => rw [Eval.bind_error hrun, Eval.bind_error (hsame.trans hrun)]
  | ok a M' =>
      obtain ⟨hM', ha⟩ := hx.ok hrun
      rw [Eval.bind_ok hrun, Eval.bind_ok (hsame.trans hrun), hf a M' hM' ha]

theorem Eval.inChild_congr {M : Machine} {α : Type} {inner : Scope} (excluded : List String)
    {step step' : Eval α}
    (h : step settings { M with scope := inner } = step' settings { M with scope := inner }) :
    inChild inner excluded step settings M = inChild inner excluded step' settings M := by
  simp only [inChild, h]

/-- Two evaluators do the same with the nodes that may be run, in machines that conform. -/
def Concur (D : Discipline) (settings : Settings) (run run' : Evaluator) : Prop :=
  ∀ n M, D.node n → M.Conforms D → run n settings M = run' n settings M

namespace Concur

variable {M : Machine}

theorem program (h : Concur D settings run run') (hrun : ConformingEvaluator D settings run')
    (hM : M.Conforms D) {body : Program} (hbody : ∀ n ∈ body.items, D.node n) :
    Eval.program run body settings M = Eval.program run' body settings M := by
  suffices hitems : ∀ nodes last M, (∀ n ∈ nodes, D.node n) → M.Conforms D →
      Eval.items run nodes last settings M = Eval.items run' nodes last settings M from
    hitems body.items .empty M hbody hM
  intro nodes
  induction nodes with
  | nil => exact fun _ _ _ _ => rfl
  | cons n rest ih =>
      intro last M hnodes hM
      obtain ⟨hn, hrest⟩ := List.forall_mem_cons.1 hnodes
      exact (hrun n M hn hM).bind_congr (h n M hn hM) fun v M' hM' _ => ih v M' hrest hM'

theorem invoke (h : Concur D settings run run') (hD : D.Hereditary) (hM : M.Conforms D)
    {values : List Value} (hvalues : ∀ v ∈ values, v.Conforms D) (name : String)
    (position : Position) :
    Eval.invoke run name values position settings M =
      Eval.invoke run' name values position settings M := by
  rw [Eval.invoke_eq, Eval.invoke_eq]
  cases hfunction : M.scope.function? name with
  | none => rfl
  | some f =>
      have hbody := hD.function (hM.scope.functions name f hfunction)
      have hinner : (M.scope.setAll (f.params.zip values)).Conforms D :=
        hM.scope.setAll fun b hb => hvalues b.2 (List.of_mem_zip hb).2
      simp only
      rw [Eval.inChild_congr _ (h f.body _ hbody (hM.withScope hinner))]

theorem generate (h : Concur D settings run run') (hrun : ConformingEvaluator D settings run')
    (hD : D.Hereditary) (hM : M.Conforms D) {s : Sequence} (hs : (Value.sequence s).Conforms D) :
    Eval.generate run s settings M = Eval.generate run' s settings M := by
  have hgenerator : D.generator s.generator := by
    cases hs with
    | sequence _ hgenerator _ _ => exact hgenerator
  have hsame := h.program hrun (hM.enter hs) (hD.generator hgenerator)
  cases hprogram : Eval.program run' s.generator.body settings
      (M.enter s (M.store.progress s).elements) with
  | ok v F => rw [Eval.generate_ok hprogram, Eval.generate_ok (hsame.trans hprogram)]
  | error halt F => rw [Eval.generate_error hprogram, Eval.generate_error (hsame.trans hprogram)]

theorem fill (h : Concur D settings run run') (hrun : ConformingEvaluator D settings run')
    (hD : D.Hereditary) {s : Sequence} (hs : (Value.sequence s).Conforms D) (index count : Nat)
    (hM : M.Conforms D) :
    Eval.fill run s index count settings M = Eval.fill run' s index count settings M := by
  induction count generalizing M with
  | zero => rfl
  | succ count ih =>
      by_cases hsize : index < (M.store.progress s).elements.size
      · rw [Eval.fill_done _ hsize, Eval.fill_done _ hsize]
      · have hle := Nat.le_of_not_lt hsize
        rw [Eval.fill_succ count hle, Eval.fill_succ count hle]
        exact (hrun.generate hD hM hs).bind_congr (h.generate hrun hD hM hs)
          fun _ M' hM' _ => ih hM'

theorem elementAt (h : Concur D settings run run') (hrun : ConformingEvaluator D settings run')
    (hD : D.Hereditary) (hM : M.Conforms D) {s : Sequence} (hs : (Value.sequence s).Conforms D)
    (index : Nat) :
    Eval.elementAt run s index settings M = Eval.elementAt run' s index settings M := by
  by_cases hlength : s.length.any (· ≤ index) = true
  · rw [Eval.elementAt_of_length_le hlength, Eval.elementAt_of_length_le hlength]
  have hsame := h.fill hrun hD hs index (index + 1 - (M.store.progress s).elements.size) hM
  cases hfill : Eval.fill run' s index (index + 1 - (M.store.progress s).elements.size)
      settings M with
  | ok _ M' =>
      rw [Eval.elementAt_of_fill_ok hlength hfill,
        Eval.elementAt_of_fill_ok hlength (hsame.trans hfill)]
  | error halt M' =>
      rw [Eval.elementAt_of_fill_error hlength hfill,
        Eval.elementAt_of_fill_error hlength (hsame.trans hfill)]

end Concur

/-- An honest computation does the same with evaluators that agree on what may be run. -/
theorem Honest.congr (hD : D.Hereditary) (hinput : settings.input.Conforms D)
    (hrun : ConformingEvaluator D settings run') (hsame : Concur D settings run run')
    {α : Type} {K : Knowledge D.wide} {x : Evaluator → Eval α} {P : Knowledge D.wide → α → Prop}
    (hx : Honest D K x P) (hK : K = D.knowledge) :
    ∀ M : Machine, M.Conforms D → x run settings M = x run' settings M := by
  induction hx with
  | pure | fail | exhaust | settings | readVariable | current | assign | define | writeLine
  | makeSequence => exact fun _ _ => rfl
  | bind hx _ ihx ihf =>
      exact fun M hM => (hx.conforms hD hinput hrun hK M hM).bind_congr (ihx hK M hM)
        fun a M' hM' ha => ihf _ a (le_refl _) ha hK M' hM'
  | weaken _ _ ih => exact ih hK
  | node hn => exact fun M hM => hsame _ M hn hM
  | @block _ b v hb hv =>
      subst hK
      exact fun M hM => Eval.inChild_congr _
        (hsame.program hrun (hM.withScope (hM.scope.set b.param hv)) (hD.block hb))
  | @combinator _ c v w hc hv hw =>
      subst hK
      exact fun M hM => Eval.inChild_congr _ (hsame c.expr _ (hD.combinator hc)
        (hM.withScope ((hM.scope.set leftName hv).set rightName hw)))
  | invoke name position hvalues _ =>
      subst hK
      exact fun M hM => hsame.invoke hD hM hvalues name position
  | element index hs =>
      subst hK
      exact fun M hM => hsame.elementAt hrun hD hM hs index

/-! ## Nothing is amiss -/

section

variable {watch : Watch} (hwatch : watch.Passes D) (hclosed : D.Closed) (hD : D.Hereditary)
  (hinput : settings.input.Conforms D) (astray : Evaluator)

include hwatch hclosed hD hinput

/-- Watched evaluation does not go astray. -/
theorem watched_concur (depth : Nat) :
    Concur D settings (Eval.watched watch astray depth) (Eval.nested depth) := by
  induction depth with
  | zero => exact fun _ _ _ _ => rfl
  | succ depth ih =>
      intro n M hn hM
      have hrun := nested_conforms hclosed hD hinput depth
      have heval : Honest D D.knowledge (fun run => Eval.node run n) Knowledge.has :=
        .eval hclosed hn
      have hsame := heval.congr hD hinput hrun ih rfl M hM
      have hconforms := heval.conforms hD hinput hrun rfl M hM
      -- Inside the node nothing is amiss, so only its end is left to be looked at.
      simp only [Eval.watched, if_pos (hwatch.machine hM), hsame, Eval.nested]
      cases hresult : Eval.node (Eval.nested depth) n settings M with
      | ok v M' =>
          obtain ⟨hM', hv⟩ := hconforms.ok hresult
          exact if_pos ⟨hwatch.machine hM', hwatch.value hM' hv⟩
      | error halt M' => exact if_pos (hwatch.machine (hconforms.error hresult).1)

/-- The run of a program does not go astray. -/
theorem evaluation_watched {M : Machine} (hM : M.Conforms D) {program : Program}
    (hprogram : ∀ n ∈ program.items, D.node n) (depth : Nat) (print : Bool) :
    Run.evaluation (Eval.watched watch astray depth) program print settings M =
      Run.evaluation (Eval.nested depth) program print settings M := by
  have hrun := nested_conforms hclosed hD hinput depth
  have hsame := watched_concur hwatch hclosed hD hinput astray depth
  -- The program is run first; what is done with its value is honest.
  refine (hrun.program hM hprogram).bind_congr (hsame.program hrun hM hprogram)
    fun v M' hM' hv => ?_
  have hfinish : Honest D D.knowledge (fun run => Run.finish run v program.position print)
      Knowledge.has := .finish _ _ hv
  exact hfinish.congr hD hinput hrun hsame rfl M' hM'

end

end Terse
