import Terse.Proofs.Reached

/-!
# Runs that end in one machine end in the other

Lockstep says that runs in two machines at the same place of a program agree, unless one of them
exceeds its depth.  This module adds that with enough depth neither does if one of them ends: from
some depth on, the run in the first machine ends as the run in the second one did, and always in the
same machine.  `Honest.settles` is the statement.

## Strategy

The second machine may have elements that the first one still has to produce.  They can be produced
again: `Repeatable` says of an element that every run of the generator behind the same elements
gives it, from some depth on.  As in `Lockstep`, there are two parts:

* `nested_echoed` for runs from machines whose facts are repeatable, by induction on the depth of
  the second run;
* `Produced.repeatable` for the facts themselves, by induction on their production.

`Echoes` is what is shown of one computation: from some depth on, it ends in the first machine as it
ended in the second one.  For a sequence of steps the larger of two depths is taken
(`Echoes.after`).  All runs of a step from that depth on lead to the same machine, so the next step
starts from one machine, and not from one for each depth.

The only step in which the two runs differ is the request for an element (`elementAt_echoes`).
Where the second machine had the element, or got it, the first one produces it, one element after
another, and each of them is a fact of the second machine.  Where the generator failed in the second
machine, it fails in the first one behind the same elements.
-/

namespace Terse

open Eval (SamePlace)

/-! ## More knowledge -/

/-- A computation that gets along with some knowledge gets along with more.  The results satisfy the
postcondition with something that is known then. -/
theorem Honest.lift {D : Discipline} {α : Type} {K K' : Knowledge} {x : Evaluator → Eval α}
    {P : Knowledge → α → Prop} (hx : Honest D K x P) (hle : K ≤ K') :
    Honest D K' x fun K'' a => ∃ K₀, K ≤ K₀ ∧ K₀ ≤ K'' ∧ P K₀ a := by
  have now : ∀ {β : Type} {K K' : Knowledge} {R : Knowledge → β → Prop}, K ≤ K' →
      ∀ K'' b, K' ≤ K'' → R K'' b → ∃ K₀, K ≤ K₀ ∧ K₀ ≤ K'' ∧ R K₀ b :=
    fun hle K'' _ h hR => ⟨K'', hle.trans h, le_rfl, hR⟩
  induction hx generalizing K' with
  | pure ha => exact .pure ⟨_, le_rfl, hle, ha⟩
  -- The first result belongs to some knowledge in between, from which the second step starts.
  | bind _ _ ihx ihf =>
      refine .bind (ihx hle) fun K'' a _ ha => ?_
      obtain ⟨K₀, h₀, hK₀, ha⟩ := ha
      refine .weaken (ihf K₀ a h₀ ha hK₀) fun K₃ b _ hb => ?_
      obtain ⟨K₁, h₁, hK₁, hb⟩ := hb
      exact ⟨K₁, h₀.trans h₁, hK₁, hb⟩
  | weaken _ himp ih =>
      refine .weaken (ih hle) fun K'' a _ ha => ?_
      obtain ⟨K₀, h₀, hK₀, ha⟩ := ha
      exact ⟨K₀, h₀, hK₀, himp K₀ a h₀ ha⟩
  | fail herror => exact .fail herror
  | exhaust => exact .exhaust
  | settings => exact .weaken .settings (now hle)
  | readVariable name position => exact .weaken (.readVariable name position) (now hle)
  | current name => exact .weaken (.current name) (now hle)
  | assign hname hv => exact .weaken (.assign hname (hle _ hv)) (now hle)
  | define hfunction => exact .weaken (.define hfunction) (now hle)
  | writeLine text => exact .weaken (.writeLine text) (now hle)
  | makeSequence hseeds hgenerator =>
      exact .weaken (.makeSequence (Knowledge.all_mono hle hseeds) hgenerator) (now hle)
  | node hn => exact .weaken (.node hn) (now hle)
  | block hb hv => exact .weaken (.block hb (hle _ hv)) (now hle)
  | combinator hc hv hw => exact .weaken (.combinator hc (hle _ hv) (hle _ hw)) (now hle)
  | invoke name position hvalues hcall =>
      exact .weaken (.invoke name position (Knowledge.all_mono hle hvalues) hcall) (now hle)
  | element index hs => exact .weaken (.element index (hle _ hs)) (now hle)

/-! ## Catching up -/

/-- From some depth on, a computation ends in a machine as given: with the same result, or with the
same error and in the same scope.  Nothing is said where the given run exceeded its depth. -/
inductive Echoes (settings : Settings) (M : Machine) {α : Type} (x : Evaluator → Eval α) :
    EStateM.Result Halt Machine α → Prop where
  | ok {a : α} {N N' : Machine} (D : Nat)
      (hruns : ∀ d, D ≤ d → x (Eval.nested d) settings M = .ok a N) :
      Echoes settings M x (.ok a N')
  | error {e : EvalError} {N N' : Machine} (D : Nat)
      (hruns : ∀ d, D ≤ d → x (Eval.nested d) settings M = .error (.fault e) N)
      (hscope : N'.scope = N.scope) : Echoes settings M x (.error (.fault e) N')
  | exceeds {N' : Machine} : Echoes settings M x (.error .exhausted N')

namespace Echoes

variable {settings : Settings} {M₁ M₂ : Machine} {α β : Type} {d : Nat}

/-- A computation that runs no nodes. -/
theorem of_runs {x : Eval α} {a : α} {N₁ N₂ : Machine} (h₁ : x settings M₁ = .ok a N₁)
    (h₂ : x settings M₂ = .ok a N₂) : Echoes settings M₁ (fun _ => x) (x settings M₂) := by
  rw [h₂]
  exact .ok 0 fun _ _ => h₁

/-- Only the runs in the machine matter. -/
theorem congr {x y : Evaluator → Eval α} {result : EStateM.Result Halt Machine α}
    (heq : ∀ run, x run settings M₁ = y run settings M₁) (hy : Echoes settings M₁ y result) :
    Echoes settings M₁ x result := by
  cases hy with
  | exceeds => exact .exceeds
  | ok D hruns => exact .ok D fun d hd => (heq _).trans (hruns d hd)
  | error D hruns hscope => exact .error D (fun d hd => (heq _).trans (hruns d hd)) hscope

/-- What comes first always leads to the same machine. -/
theorem after {x : Evaluator → Eval α} {f : Evaluator → α → Eval β} {D : Nat} {a : α}
    {N : Machine} {result : EStateM.Result Halt Machine β}
    (hruns : ∀ d, D ≤ d → x (Eval.nested d) settings M₁ = .ok a N)
    (hrest : Echoes settings N (fun run => f run a) result) :
    Echoes settings M₁ (fun run => x run >>= f run) result := by
  have hfirst : ∀ {D' d : Nat}, max D D' ≤ d →
      (x (Eval.nested d) >>= f (Eval.nested d)) settings M₁ = f (Eval.nested d) a settings N :=
    fun hd => Eval.bind_ok (hruns _ (Nat.le_trans (Nat.le_max_left _ _) hd))
  have hlater : ∀ {D' d : Nat}, max D D' ≤ d → D' ≤ d := fun hd =>
    Nat.le_trans (Nat.le_max_right _ _) hd
  cases hrest with
  | exceeds => exact .exceeds
  | ok D' hruns' => exact .ok (max D D') fun d hd => (hfirst hd).trans (hruns' d (hlater hd))
  | error D' hruns' hscope =>
      exact .error (max D D') (fun d hd => (hfirst hd).trans (hruns' d (hlater hd))) hscope

theorem bind {x : Evaluator → Eval α} {f : Evaluator → α → Eval β}
    (hx : Echoes settings M₁ x (x (Eval.nested d) settings M₂))
    (hf : ∀ D a N₁ N₂, x (Eval.nested D) settings M₁ = .ok a N₁ →
      x (Eval.nested d) settings M₂ = .ok a N₂ →
      Echoes settings N₁ (fun run => f run a) (f (Eval.nested d) a settings N₂)) :
    Echoes settings M₁ (fun run => x run >>= f run)
      ((x (Eval.nested d) >>= f (Eval.nested d)) settings M₂) := by
  generalize hrun : x (Eval.nested d) settings M₂ = first at hx
  -- A run that exceeded its depth in the second machine says nothing about the first one.
  cases hx with
  | exceeds =>
      rw [Eval.bind_error hrun]
      exact .exceeds
  | error D hruns hscope =>
      rw [Eval.bind_error hrun]
      exact .error D (fun d' hd => Eval.bind_error (hruns d' hd)) hscope
  | @ok a N₁ N₂ D hruns =>
      rw [Eval.bind_ok hrun]
      exact .after hruns (hf D a N₁ N₂ (hruns D (Nat.le_refl D)) hrun)

theorem inChild {inner₁ inner₂ : Scope} {excluded : List String} {step : Evaluator → Eval α}
    (hscope : M₂.scope = M₁.scope)
    (hstep : Echoes settings { M₁ with scope := inner₁ } step
      (step (Eval.nested d) settings { M₂ with scope := inner₂ })) :
    Echoes settings M₁ (fun run => Eval.inChild inner₁ excluded (step run))
      (Eval.inChild inner₂ excluded (step (Eval.nested d)) settings M₂) := by
  generalize hrun : step (Eval.nested d) settings { M₂ with scope := inner₂ } = result at hstep
  cases hstep with
  | exceeds =>
      rw [Eval.inChild_error hrun]
      exact .exceeds
  | ok D hruns =>
      rw [Eval.inChild_ok hrun]
      exact .ok D fun d' hd => Eval.inChild_ok (hruns d' hd)
  | error D hruns _ =>
      rw [Eval.inChild_error hrun]
      exact .error D (fun d' hd => Eval.inChild_error (hruns d' hd)) hscope

/-- One level of nesting more. -/
theorem nested {n : Node} {result : EStateM.Result Halt Machine Value}
    (hnode : Echoes settings M₁ (fun run => Eval.node run n) result) :
    Echoes settings M₁ (fun run => run n) result := by
  have hlevel : ∀ {D : Nat} {r : EStateM.Result Halt Machine Value},
      (∀ d, D ≤ d → Eval.node (Eval.nested d) n settings M₁ = r) →
      ∀ d, D + 1 ≤ d → Eval.nested d n settings M₁ = r := by
    intro D r hruns d hd
    obtain ⟨k, rfl⟩ := Nat.exists_eq_succ_of_ne_zero (Nat.ne_of_gt (Nat.lt_of_lt_of_le
      (Nat.succ_pos D) hd))
    exact hruns k (Nat.le_of_succ_le_succ hd)
  cases hnode with
  | exceeds => exact .exceeds
  | ok D hruns => exact .ok (D + 1) (hlevel hruns)
  | error D hruns hscope => exact .error (D + 1) (hlevel hruns) hscope

end Echoes

/-! ## Elements that can be produced again -/

/-- An element that every run of the generator gives, from some depth on. -/
def Repeatable (settings : Settings) : FactProperty := fun s history v =>
  ∀ M p, Producing M s p → p.elements.toList = history → SoundFor (Produced settings) M →
    M.output.room = none →
    ∃ D F, ∀ d, D ≤ d →
      Eval.program (Eval.nested d) s.generator.body settings (M.enter s p.elements) = .ok v F

/-- An element that was produced and can be produced again. -/
def Reproducible (settings : Settings) : FactProperty := fun s history v =>
  Produced settings s history v ∧ Repeatable settings s history v

/-- Runs at a depth in the second of two machines are echoed in the first one. -/
def EchoedAt (settings : Settings) (d : Nat) : Prop :=
  ∀ n M₁ M₂, Twins settings M₁ M₂ → SoundFor (Reproducible settings) M₂ →
    Echoes settings M₁ (fun run => run n) (Eval.nested d n settings M₂)

/-- Evaluation preserves that facts are determined, at every depth. -/
theorem nested_safe_lasting {settings : Settings} (hinput : settings.input.Plain) (d : Nat) :
    SafeEvaluator (Lasting settings) settings (Eval.nested d) :=
  nested_safe hinput d fun k _ => (nested_lockstep hinput k).establishes_lasting

/-- Two runs of an honest computation that both succeed, at whatever depths. -/
theorem Honest.twins_of_ok {D : Discipline} {settings : Settings} (hinput : settings.input.Plain)
    {α : Type} {K : Knowledge} {x : Evaluator → Eval α} {P : Knowledge → α → Prop}
    (hx : Honest D K x P) {M₁ M₂ N₁ N₂ : Machine} (h : Twins settings M₁ M₂)
    (hK : shared M₁ M₂ = K) {d d' : Nat} {a b : α}
    (h₁ : x (Eval.nested d) settings M₁ = .ok a N₁)
    (h₂ : x (Eval.nested d') settings M₂ = .ok b N₂) :
    Twins settings N₁ N₂ ∧ shared M₁ M₂ ≤ shared N₁ N₂ ∧ P (shared N₁ N₂) a := by
  have hagree := hx.agree hinput (nested_lockstep hinput d) (nested_safe_lasting hinput d)
    (nested_safe_produced hinput d') M₁ M₂ h hK
  cases hagree with
  | ok h₁' h₂' htwins hgrows₁ hgrows₂ ha =>
      obtain ⟨rfl, rfl⟩ := EStateM.Result.ok.inj (h₁'.symm.trans h₁)
      obtain ⟨-, rfl⟩ := EStateM.Result.ok.inj (h₂'.symm.trans h₂)
      exact ⟨htwins, Agree.shared_le hgrows₁ hgrows₂, ha⟩
  | error h₁' _ => cases h₁'.symm.trans h₁
  | exceeds₁ h₁' => cases h₁'.symm.trans h₁
  | exceeds₂ h₂' => cases h₂'.symm.trans h₂

namespace EchoedAt

variable {settings : Settings} {d : Nat} {M₁ M₂ : Machine}

theorem items (hechoed : EchoedAt settings d) (hinput : settings.input.Plain)
    (hnode : ∀ n M, SoundFor (Reproducible settings) M →
      Preserves (Reproducible settings) settings M (Eval.nested d n) Knowledge.has)
    (h : Twins settings M₁ M₂) (hM₂ : SoundFor (Reproducible settings) M₂) (nodes : List Node)
    (last : Value) :
    Echoes settings M₁ (fun run => Eval.items run nodes last)
      (Eval.items (Eval.nested d) nodes last settings M₂) := by
  induction nodes generalizing M₁ M₂ last with
  | nil => exact .ok 0 fun _ _ => rfl
  | cons n rest ih =>
      refine .bind (hechoed n M₁ M₂ h hM₂) fun D v N₁ N₂ h₁ h₂ => ?_
      have hrun : Honest .free (shared M₁ M₂) (fun run => run n) Knowledge.has := .node trivial
      exact ih (hrun.twins_of_ok hinput h rfl h₁ h₂).1 ((hnode n M₂ hM₂).ok h₂).1 v

theorem program (hechoed : EchoedAt settings d) (hinput : settings.input.Plain)
    (hnode : ∀ n M, SoundFor (Reproducible settings) M →
      Preserves (Reproducible settings) settings M (Eval.nested d n) Knowledge.has)
    (h : Twins settings M₁ M₂) (hM₂ : SoundFor (Reproducible settings) M₂) (body : Program) :
    Echoes settings M₁ (fun run => Eval.program run body)
      (Eval.program (Eval.nested d) body settings M₂) :=
  hechoed.items hinput hnode h hM₂ body.items .empty

/-- What a generator gives at a depth that is echoed can be produced again. -/
theorem establishes_reproducible (hechoed : EchoedAt settings d)
    (hinput : settings.input.Plain)
    (hnode : ∀ n M, SoundFor (Reproducible settings) M →
      Preserves (Reproducible settings) settings M (Eval.nested d n) Knowledge.has) :
    Establishes (Reproducible settings) settings d := by
  intro M s p v F hproducing hM hunlimited hrun
  have hproduced := hM.imp fun _ _ _ h => h.1
  refine ⟨establishes_produced settings d M s p v F hproducing hproduced hunlimited hrun, ?_⟩
  intro M' p' hproducing' hhistory hM' hunlimited'
  have hpeers : Peers settings M' M s p' p :=
    ⟨hM'.lasting hinput, hproduced, hproducing', hproducing, hunlimited', hunlimited⟩
  have helements : p.elements = p'.elements := Array.toList_inj.1 hhistory.symm
  have hechoes := hechoed.program hinput hnode (hpeers.enter helements)
    (SafeEvaluator.enter hproducing hM) s.generator.body
  rw [hrun] at hechoes
  cases hechoes with
  | ok D hruns => exact ⟨D, _, hruns⟩

end EchoedAt

/-! ## Elements -/

section Elements

variable {settings : Settings} {M₁ M₂ : Machine} {s : Sequence} {d : Nat}

/-- A machine that has fewer elements than another one can produce the next one. -/
theorem Peers.generate {p₂ : Progress}
    (h : Peers settings M₁ M₂ s (M₁.store.progress s) p₂)
    (hM₂ : SoundFor (Reproducible settings) M₂)
    (hpassed : (M₁.store.progress s).elements.size < p₂.elements.size) :
    ∃ D M', ∀ d, D ≤ d → Eval.generate (Eval.nested d) s settings M₁ = .ok () M' := by
  have htake := h.take_elements_eq (Nat.le_refl _) (Nat.le_of_lt hpassed)
  have hlt : (M₁.store.progress s).elements.size < p₂.elements.toList.length := by
    simpa using hpassed
  -- The elements that the first machine has are the first ones that the second machine has.
  have hhistory : (M₁.store.progress s).elements.toList =
      p₂.elements.toList.take (M₁.store.progress s).elements.size := by
    rw [← htake, List.take_of_length_le (by simp)]
  have hfact := h.producing₂.fact h.producing₁.seeds_le (List.getElem?_eq_getElem hlt)
  obtain ⟨D, F, hruns⟩ := (hM₂.facts h.unlimited₂ _ _ _ hfact).2 M₁ _ h.producing₁ hhistory
    h.left.produced h.unlimited₁
  exact ⟨D, _, fun d hd => Eval.generate_ok (hruns d hd)⟩

/-- The generator fails in a machine as it failed in another one that has as many elements. -/
theorem Peers.echoes_of_failed (hechoed : EchoedAt settings d) (hinput : settings.input.Plain)
    (hrun : SafeEvaluator (Reproducible settings) settings (Eval.nested d))
    (h : Peers settings M₁ M₂ s (M₁.store.progress s) (M₂.store.progress s))
    (hM₂ : SoundFor (Reproducible settings) M₂)
    (hsize : (M₁.store.progress s).elements.size = (M₂.store.progress s).elements.size)
    {e : EvalError} {F : Machine} (hfailed : Eval.program (Eval.nested d) s.generator.body settings
      (M₂.enter s (M₂.store.progress s).elements) = .error (.fault e) F) :
    ∃ D N, N.scope = M₁.scope ∧
      ∀ d, D ≤ d → Eval.generate (Eval.nested d) s settings M₁ = .error (.fault e) N := by
  have htake := h.take_elements_eq (Nat.le_refl _) (Nat.le_of_eq hsize)
  rw [List.take_of_length_le (by simp), List.take_of_length_le (by simp [hsize])] at htake
  have hechoes := hechoed.program hinput hrun.node (h.enter (Array.toList_inj.1 htake.symm))
    (SafeEvaluator.enter h.producing₂ hM₂) s.generator.body
  rw [hfailed] at hechoes
  cases hechoes with
  | error D hruns _ =>
      refine ⟨D, _, ?_, fun d hd => Eval.generate_error (hruns d hd)⟩
      rfl

/-- What the first of two machines keeps of a sequence, and what the second one keeps later. -/
theorem Twins.peers (h : Twins settings M₁ M₂) (hs : (shared M₁ M₂).has (.sequence s)) {N : Machine}
    (hN : SoundFor (Reproducible settings) N) (hgrows : Grows M₂ N) :
    Peers settings M₁ N s (M₁.store.progress s) (N.store.progress s) :=
  ⟨h.left, hN.imp fun _ _ _ h => h.1, h.left.producing hs.1, hN.producing (hgrows.known hs.2),
    h.unlimited₁, hgrows.unlimited.2 h.unlimited₂⟩

/-- The first of two machines produces one more element. -/
theorem Twins.advance (h : Twins settings M₁ M₂) (hs : (shared M₁ M₂).has (.sequence s))
    (hinput : settings.input.Plain)
    (hroom : ∀ n, s.length = some n → (M₁.store.progress s).elements.size < n) {M : Machine}
    (hgenerate : Eval.generate (Eval.nested d) s settings M₁ = .ok () M) :
    Twins settings M M₂ ∧ (shared M M₂).has (.sequence s) ∧
      (M.store.progress s).elements.size = (M₁.store.progress s).elements.size + 1 := by
  have hsafe := nested_safe_lasting hinput d
  obtain ⟨hM, hgrows, -⟩ := (hsafe.generate h.left hs.1 hroom).ok hgenerate
  obtain ⟨v, hprogress⟩ := hsafe.progress_generate h.left hs.1 hgenerate
  have hplace := Eval.generate_samePlace (Eval.nested d) settings M₁ s
  rw [Eval.final_ok hgenerate] at hplace
  refine ⟨⟨hM, h.right, ⟨?_, ?_, ?_⟩, hgrows.unlimited.2 h.unlimited₁, h.unlimited₂⟩,
    ⟨hgrows.known hs.1, hs.2⟩, ?_⟩
  · rw [h.place.scope, hplace.scope]
  · rw [h.place.lookback, hplace.lookback]
  · rw [h.place.site, hplace.site]
  · rw [hprogress, Progress.push, Array.size_push]

/-- A machine that has the element need not produce it.  In the other machine, the generator cannot
have failed in front of it. -/
theorem fill_echoes_of_size (h : Twins settings M₁ M₂) (hs : (shared M₁ M₂).has (.sequence s))
    {index : Nat} {result : EStateM.Result Halt Machine Unit}
    (hfilled : SafeEvaluator.Filled (Reproducible settings) settings (Eval.nested d) s index M₂
      result)
    (hsize : index < (M₁.store.progress s).elements.size) (count : Nat) :
    Echoes settings M₁ (fun run => Eval.fill run s index count) result := by
  cases hfilled with
  | done => exact .ok 0 fun _ _ => Eval.fill_done count hsize
  | failed hN hgrows hsize₂ hgenerate =>
      obtain ⟨F, hfailed⟩ := Eval.program_of_generate_error hgenerate
      obtain rfl := (h.peers hs hN hgrows).exhausted_of_passed₁ (Nat.lt_of_le_of_lt hsize₂ hsize)
        hfailed
      exact .exceeds

/-- The elements up to an index are produced as in another machine. -/
theorem fill_echoes (hechoed : EchoedAt settings d) (hinput : settings.input.Plain)
    (hrun : SafeEvaluator (Reproducible settings) settings (Eval.nested d))
    (h : Twins settings M₁ M₂) (hs : (shared M₁ M₂).has (.sequence s)) {index : Nat}
    (hindex : ∀ n, s.length = some n → index < n) {result : EStateM.Result Halt Machine Unit}
    (hfilled : SafeEvaluator.Filled (Reproducible settings) settings (Eval.nested d) s index M₂
      result)
    (hscope : ∀ e N, result = .error e N → N.scope = M₂.scope) {count : Nat}
    (hcount : index < (M₁.store.progress s).elements.size + count) :
    Echoes settings M₁ (fun run => Eval.fill run s index count) result := by
  induction count generalizing M₁ with
  | zero => exact fill_echoes_of_size h hs hfilled hcount 0
  | succ count ih =>
      by_cases hsize : index < (M₁.store.progress s).elements.size
      · exact fill_echoes_of_size h hs hfilled hsize _
      have hle := Nat.le_of_not_lt hsize
      -- Once the next element is produced, one run less suffices for the others.
      have hnext : ∀ {D : Nat} {M : Machine},
          (∀ d, D ≤ d → Eval.generate (Eval.nested d) s settings M₁ = .ok () M) →
          Echoes settings M₁ (fun run => Eval.fill run s index (count + 1)) result := by
        intro D M hruns
        obtain ⟨h', hs', hsize'⟩ := h.advance hs hinput
          (fun n hn => Nat.lt_of_le_of_lt hle (hindex n hn)) (hruns D (Nat.le_refl D))
        have hrest := ih h' hs' (by omega)
        exact .congr (fun _ => Eval.fill_succ count hle) (.after hruns hrest)
      cases hfilled with
      | done hN hgrows hsize₂ =>
          obtain ⟨D, M, hruns⟩ := (h.peers hs hN hgrows).generate hN
            (Nat.lt_of_le_of_lt hle hsize₂)
          exact hnext hruns
      | @failed N N' halt hN hgrows hsize₂ hgenerate =>
          have hpeers := h.peers hs hN hgrows
          obtain ⟨F, hfailed⟩ := Eval.program_of_generate_error hgenerate
          -- Where the generator failed, the other machine has fewer elements, as many, or more of
          -- them.
          rcases Nat.lt_trichotomy (M₁.store.progress s).elements.size
            (N.store.progress s).elements.size with hlt | heq | hgt
          · obtain ⟨D, M, hruns⟩ := hpeers.generate hN hlt
            exact hnext hruns
          · cases halt with
            | exhausted => exact .exceeds
            | fault e =>
                obtain ⟨D, M, hplace, hruns⟩ :=
                  hpeers.echoes_of_failed hechoed hinput hrun hN heq hfailed
                have hends : N'.scope = M.scope := by
                  rw [hscope _ _ rfl, h.place.scope, hplace]
                refine .error D (fun d hd => ?_) hends
                exact (Eval.fill_succ count hle).trans (Eval.bind_error (hruns d hd))
          · obtain rfl := hpeers.exhausted_of_passed₁ hgt hfailed
            exact .exceeds

theorem Alike.ok_inj {α : Type} {a b : α} {N₁ N₂ : Machine}
    (h : Alike (.ok a N₁) (.ok b N₂)) : a = b := by
  cases h
  rfl

/-- A request for an element ends as in another machine. -/
theorem elementAt_echoes (hechoed : EchoedAt settings d) (hinput : settings.input.Plain)
    (hrun : SafeEvaluator (Reproducible settings) settings (Eval.nested d))
    (h : Twins settings M₁ M₂) (hM₂ : SoundFor (Reproducible settings) M₂)
    (hs : (shared M₁ M₂).has (.sequence s)) (index : Nat) :
    Echoes settings M₁ (fun run => Eval.elementAt run s index)
      (Eval.elementAt (Eval.nested d) s index settings M₂) := by
  by_cases hlength : s.length.any (· ≤ index) = true
  · rw [Eval.elementAt_of_length_le hlength]
    exact .ok 0 fun _ _ => Eval.elementAt_of_length_le hlength
  have hindex := Eval.lt_length hlength
  have hfilled := hrun.fill hM₂ hs.2 hindex
    (show index < _ + (index + 1 - (M₂.store.progress s).elements.size) by omega)
  have hplace := Eval.fill_samePlace (Eval.nested d) settings M₂ s index
    (index + 1 - (M₂.store.progress s).elements.size)
  have hechoes := fill_echoes hechoed hinput hrun h hs hindex hfilled
    (fun e N heq => by rw [Eval.final_error heq] at hplace; exact hplace.scope)
    (show index < _ + (index + 1 - (M₁.store.progress s).elements.size) by omega)
  generalize hfill : Eval.fill (Eval.nested d) s index
    (index + 1 - (M₂.store.progress s).elements.size) settings M₂ = result at hechoes
  cases hechoes with
  | exceeds =>
      rw [Eval.elementAt_of_fill_error hlength hfill]
      exact .exceeds
  | error D hruns hscope =>
      rw [Eval.elementAt_of_fill_error hlength hfill]
      exact .error D (fun d' hd => Eval.elementAt_of_fill_error hlength (hruns d' hd)) hscope
  | @ok _ N₁ N₂ D hruns =>
      have hruns' := fun d' hd => Eval.elementAt_of_fill_ok hlength (hruns d' hd)
      -- Both runs succeed, so that the elements are the same by lockstep.
      have halike := elementAt_alike (nested_lockstep hinput D) (nested_safe_lasting hinput D)
        (nested_safe_produced hinput d) h.left h.right h.unlimited₁ h.unlimited₂ hs.1 hs.2 index
      rw [hruns' D (Nat.le_refl D), Eval.elementAt_of_fill_ok hlength hfill] at halike
      rw [Eval.elementAt_of_fill_ok hlength hfill, ← halike.ok_inj]
      exact .ok D hruns'

end Elements

/-! ## Honest computations -/

namespace EchoedAt

variable {settings : Settings} {d : Nat} {M₁ M₂ : Machine}

theorem applyBlock (hechoed : EchoedAt settings d) (hinput : settings.input.Plain)
    (hrun : SafeEvaluator (Reproducible settings) settings (Eval.nested d))
    (h : Twins settings M₁ M₂) (hM₂ : SoundFor (Reproducible settings) M₂) (b : Block) {v : Value}
    (hv : (shared M₁ M₂).has v) :
    Echoes settings M₁ (fun run => Eval.applyBlock run b v)
      (Eval.applyBlock (Eval.nested d) b v settings M₂) := by
  rw [Eval.applyBlock_eq]
  refine .congr (fun _ => Eval.applyBlock_eq b v) (.inChild h.place.scope ?_)
  exact hechoed.program hinput hrun.node
    (h.withScope (by rw [h.place.scope]) (Scope.forall_set h.scope_known hv))
    (hM₂.withScope (Scope.forall_set hM₂.sound.scope hv.2)) b.body

theorem applyCombinator (hechoed : EchoedAt settings d) (h : Twins settings M₁ M₂)
    (hM₂ : SoundFor (Reproducible settings) M₂) (c : Combinator) {v w : Value}
    (hv : (shared M₁ M₂).has v) (hw : (shared M₁ M₂).has w) :
    Echoes settings M₁ (fun run => Eval.applyCombinator run c v w)
      (Eval.applyCombinator (Eval.nested d) c v w settings M₂) := by
  rw [Eval.applyCombinator_eq]
  refine .congr (fun _ => Eval.applyCombinator_eq c v w) (.inChild h.place.scope ?_)
  exact hechoed c.expr _ _
    (h.withScope (by rw [h.place.scope]) (Scope.forall_set (Scope.forall_set h.scope_known hv) hw))
    (hM₂.withScope (Scope.forall_set (Scope.forall_set hM₂.sound.scope hv.2) hw.2))

theorem invoke (hechoed : EchoedAt settings d) (h : Twins settings M₁ M₂)
    (hM₂ : SoundFor (Reproducible settings) M₂) (name : String) {values : List Value}
    (hvalues : (shared M₁ M₂).all values) (position : Position) :
    Echoes settings M₁ (fun run => Eval.invoke run name values position)
      (Eval.invoke (Eval.nested d) name values position settings M₂) := by
  have h₁ := fun run => Eval.invoke_eq run settings M₁ name values position
  rw [Eval.invoke_eq, h.place.scope]
  cases hfunction : M₁.scope.function? name with
  | none =>
      rw [hfunction] at h₁
      exact .error 0 (fun _ _ => h₁ _) h.place.scope
  | some function =>
      rw [hfunction] at h₁
      by_cases hlength : function.params.length = values.length
      · simp only [hlength, if_true] at h₁ ⊢
        have hinner : ∀ b ∈ function.params.zip values, (shared M₁ M₂).has b.2 :=
          fun b hb => hvalues b.2 (List.of_mem_zip hb).2
        refine .congr h₁ (.inChild h.place.scope (hechoed function.body _ _
          (h.withScope rfl (Scope.forall_setAll h.scope_known hinner)) (hM₂.withScope ?_)))
        exact fun name v hv => (Scope.forall_setAll h.scope_known hinner name v hv).2
      · simp only [hlength, if_false] at h₁ ⊢
        exact .error 0 (fun _ _ => h₁ _) h.place.scope

end EchoedAt

/-- Honest computations are echoed if evaluation is. -/
theorem Honest.echoes {D : Discipline} {settings : Settings} {d : Nat}
    (hinput : settings.input.Plain) (hechoed : EchoedAt settings d)
    (hrun : SafeEvaluator (Reproducible settings) settings (Eval.nested d))
    {α : Type} {K : Knowledge} {x : Evaluator → Eval α} {P : Knowledge → α → Prop}
    (hx : Honest D K x P) :
    ∀ M₁ M₂, Twins settings M₁ M₂ → SoundFor (Reproducible settings) M₂ → shared M₁ M₂ = K →
      Echoes settings M₁ x (x (Eval.nested d) settings M₂) := by
  induction hx with
  | pure ha => exact fun M₁ M₂ h hM₂ _ => .of_runs rfl rfl
  | @bind K α β x f P R hx hf ihx ihf =>
      rintro M₁ M₂ h hM₂ rfl
      refine .bind (ihx M₁ M₂ h hM₂ rfl) fun D' a N₁ N₂ h₁ h₂ => ?_
      obtain ⟨htwins, hle, ha⟩ := hx.twins_of_ok hinput h rfl h₁ h₂
      -- The second machine knows more than both machines know.
      have hlift : Honest D M₂.knowledge x _ := hx.lift fun v hv => hv.2
      have hN₂ := ((hlift.preserves hinput hrun M₂ hM₂ rfl).ok h₂).1
      exact ihf (shared N₁ N₂) a hle ha N₁ N₂ htwins hN₂ rfl
  | weaken _ _ ih => exact ih
  | fail error => exact fun M₁ M₂ h _ _ => .error 0 (fun _ _ => rfl) h.place.scope
  | exhaust => exact fun M₁ M₂ _ _ _ => .exceeds
  | settings => exact fun M₁ M₂ _ _ _ => .of_runs rfl rfl
  | readVariable name position =>
      rintro M₁ M₂ h - -
      have hsame : M₂.scope.get? M₂.lookback name = M₁.scope.get? M₁.lookback name := by
        rw [h.place.scope, h.place.lookback]
      cases hget : M₁.scope.get? M₁.lookback name with
      | none =>
          show Echoes settings M₁ _ (Eval.readVariable name position settings M₂)
          rw [Eval.readVariable_error (hsame.trans hget)]
          exact .error 0 (fun _ _ => Eval.readVariable_error hget) h.place.scope
      | some result =>
          exact .of_runs (Eval.readVariable_ok hget) (Eval.readVariable_ok (hsame.trans hget))
  | current name =>
      rintro M₁ M₂ h - -
      exact .of_runs (Eval.current_eq name) (by rw [Eval.current_eq, h.place.scope])
  | @assign _ name v =>
      exact fun M₁ M₂ _ _ _ => .of_runs (Eval.assign_eq name v) (Eval.assign_eq name v)
  | @define _ name function =>
      exact fun M₁ M₂ _ _ _ =>
        .of_runs (Eval.define_eq name function) (Eval.define_eq name function)
  | writeLine text =>
      rintro M₁ M₂ h - -
      obtain ⟨output₁, -, hrun₁⟩ := Eval.writeLine_cases settings M₁ text
      obtain ⟨output₂, -, hrun₂⟩ := Eval.writeLine_cases settings M₂ text
      exact .of_runs (hrun₁.resolve_right fun hlimited => hlimited.1 h.unlimited₁)
        (hrun₂.resolve_right fun hlimited => hlimited.1 h.unlimited₂)
  | @makeSequence _ seeds generator length =>
      rintro M₁ M₂ h - -
      show Echoes settings M₁ _ (Eval.makeSequence seeds generator length settings M₂)
      rw [Eval.makeSequence_eq, h.place.scope, h.place.site]
      exact .ok 0 fun _ _ => Eval.makeSequence_eq seeds generator length
  | node _ => exact fun M₁ M₂ h hM₂ _ => hechoed _ M₁ M₂ h hM₂
  | block _ hv =>
      rintro M₁ M₂ h hM₂ rfl
      exact hechoed.applyBlock hinput hrun h hM₂ _ hv
  | combinator _ hv hw =>
      rintro M₁ M₂ h hM₂ rfl
      exact hechoed.applyCombinator h hM₂ _ hv hw
  | invoke name position hvalues _ =>
      rintro M₁ M₂ h hM₂ rfl
      exact hechoed.invoke h hM₂ name hvalues position
  | element index hs =>
      rintro M₁ M₂ h hM₂ rfl
      exact elementAt_echoes hechoed hinput hrun h hM₂ hs index

/-! ## All depths, all facts -/

/-- Runs are echoed at every depth, and what they produce can be produced again. -/
theorem nested_echoed {settings : Settings} (hinput : settings.input.Plain) (d : Nat) :
    EchoedAt settings d ∧ Establishes (Reproducible settings) settings d := by
  induction d using Nat.strongRecOn with
  | ind d ih =>
      -- What is produced below this depth can be produced again, so the runs of nodes are echoed.
      have hechoed : EchoedAt settings d := by
        intro n M₁ M₂ h hM₂
        cases d with
        | zero => exact .exceeds
        | succ d =>
            have hrun : SafeEvaluator (Reproducible settings) settings (Eval.nested d) :=
              nested_safe hinput d fun k hk => (ih k (Nat.lt_succ_of_le hk)).2
            have heval : Honest .free (shared M₁ M₂) (fun run => Eval.node run n) Knowledge.has :=
              Honest.eval Discipline.free_closed trivial
            exact .nested (heval.echoes hinput (ih d (Nat.lt_succ_self d)).1 hrun M₁ M₂ h hM₂ rfl)
      exact ⟨hechoed, hechoed.establishes_reproducible hinput
        (nested_preserves hinput d fun k hk => (ih k hk).2)⟩

/-- What was produced can be produced again. -/
theorem Produced.repeatable {settings : Settings} (hinput : settings.input.Plain) {s : Sequence}
    {history : List Value} {v : Value} (h : Produced settings s history v) :
    Repeatable settings s history v := by
  induction h with
  | @intro d M F s p history v hproducing hhistory hunlimited hfacts hrun ih =>
      subst hhistory
      have hM : SoundFor (Reproducible settings) M :=
        ⟨hproducing.sound, fun _ s' history' v' hfact =>
          ⟨hfacts s' history' v' hfact, ih s' history' v' hfact⟩⟩
      exact ((nested_echoed hinput d).2 M s p v F hproducing hM hunlimited hrun).2

theorem SoundFor.reproducible {settings : Settings} (hinput : settings.input.Plain) {M : Machine}
    (hM : SoundFor (Produced settings) M) : SoundFor (Reproducible settings) M :=
  hM.imp fun _ _ _ h => ⟨h, h.repeatable hinput⟩

/-! ## Runs that end -/

/-- A run at a depth ends with a value or an error, and leaves a scope. -/
def EndsAt (settings : Settings) (M : Machine) {α : Type} (x : Evaluator → Eval α)
    (result : Except EvalError α) (scope : Scope) (d : Nat) : Prop :=
  Eval.outcome (x (Eval.nested d)) settings M = result.mapError Halt.fault ∧
    (Eval.final (x (Eval.nested d)) settings M).scope = scope

/-- From some depth on, the runs end with a value or an error, and leave a scope. -/
def Settles (settings : Settings) (M : Machine) {α : Type} (x : Evaluator → Eval α)
    (result : Except EvalError α) (scope : Scope) : Prop :=
  ∃ D, ∀ d, D ≤ d → EndsAt settings M x result scope d

section Settles

variable {settings : Settings} {M M₁ M₂ N : Machine} {α : Type} {x : Evaluator → Eval α}
  {result : Except EvalError α} {scope : Scope} {d : Nat}

theorem endsAt_of_ok {a : α} (hrun : x (Eval.nested d) settings M = .ok a N) :
    EndsAt settings M x result scope d ↔ result = .ok a ∧ N.scope = scope := by
  rw [EndsAt, Eval.outcome, hrun, Eval.final_ok hrun]
  cases result with
  | ok b => simp [Except.mapError, eq_comm]
  | error e => simp [Except.mapError]

theorem endsAt_of_fault {e : EvalError}
    (hrun : x (Eval.nested d) settings M = .error (.fault e) N) :
    EndsAt settings M x result scope d ↔ result = .error e ∧ N.scope = scope := by
  rw [EndsAt, Eval.outcome, hrun, Eval.final_error hrun]
  cases result with
  | ok b => simp [Except.mapError]
  | error e' => simp [Except.mapError, eq_comm]

theorem not_endsAt_of_exhausted
    (hrun : x (Eval.nested d) settings M = .error .exhausted N) :
    ¬ EndsAt settings M x result scope d := by
  rw [EndsAt, Eval.outcome, hrun]
  cases result with
  | ok b => simp [Except.mapError]
  | error e => simp [Except.mapError]

theorem endsAt_congr {y : Evaluator → Eval α}
    (heq : x (Eval.nested d) settings M = y (Eval.nested d) settings M) :
    EndsAt settings M x result scope d ↔ EndsAt settings M y result scope d := by
  rw [EndsAt, EndsAt, Eval.outcome, Eval.outcome, Eval.final, Eval.final, heq]

/-- A run that ends in one of two machines at the same place settles in the other one. -/
theorem Honest.settles {D : Discipline} {P : Knowledge → α → Prop}
    (hx : Honest D (shared M₁ M₂) x P) (hinput : settings.input.Plain)
    (hM₁ : SoundFor (Produced settings) M₁) (hM₂ : SoundFor (Produced settings) M₂)
    (hplace : SamePlace M₁ M₂) (hunlimited₁ : M₁.output.room = none)
    (hunlimited₂ : M₂.output.room = none) (hends : EndsAt settings M₂ x result scope d) :
    Settles settings M₁ x result scope := by
  have htwins : Twins settings M₁ M₂ :=
    ⟨hM₁.lasting hinput, hM₂, hplace, hunlimited₁, hunlimited₂⟩
  have hsafe : SafeEvaluator (Reproducible settings) settings (Eval.nested d) :=
    nested_safe hinput d fun k _ => (nested_echoed hinput k).2
  have hechoes := hx.echoes hinput (nested_echoed hinput d).1 hsafe M₁ M₂ htwins
    (hM₂.reproducible hinput) rfl
  generalize hrun : x (Eval.nested d) settings M₂ = r at hechoes
  cases hechoes with
  | exceeds => exact absurd hends (not_endsAt_of_exhausted hrun)
  | error D hruns hscope =>
      obtain ⟨rfl, rfl⟩ := (endsAt_of_fault hrun).1 hends
      exact ⟨D, fun d' hd => (endsAt_of_fault (hruns d' hd)).2 ⟨rfl, hscope.symm⟩⟩
  | ok D hruns =>
      obtain ⟨rfl, rfl⟩ := (endsAt_of_ok hrun).1 hends
      have hend := hx.twins_of_ok hinput htwins rfl (hruns D (Nat.le_refl D)) hrun
      exact ⟨D, fun d' hd => (endsAt_of_ok (hruns d' hd)).2 ⟨rfl, hend.1.place.scope.symm⟩⟩

end Settles

end Terse
