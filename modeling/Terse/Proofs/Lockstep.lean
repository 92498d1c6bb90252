import Terse.Proofs.Soundness

/-!
# Two runs in lockstep

Two machines at the same place of a program may have produced different elements of the sequences
that they share.  This module shows that evaluation cannot tell: from two such machines it gives the
same result, unless one of the runs exceeds its depth.

The elements that are in the store need a reason for being there.  `Produced` says that an element
is the value of a run of the generator, in a machine whose own elements were produced.  `Determined`
says that every run of the generator behind the same elements gives this value.  The argument has
two parts.

* Lockstep (`nested_lockstep`): a run in a machine whose facts are determined agrees with a run in a
  machine whose facts were produced.  The induction is on the depth of the first run.  Where an
  element is asked for, the two runs need not do the same work; they agree because an element that
  one of them has, or just made, is determined, and one that the other has was produced.
* Determinacy (`Produced.determined`): what was produced is determined, by induction on the
  production, with lockstep for the two runs of the generator.

Labels tell where a sequence was made and not when, so two runs do not only make similar sequences
but the same ones, and the results are equal.

## Strategy

`Twins` are two machines at the same place, and `Agree` says how the runs of two computations in
twins compare.  It is closed under `bind` and under inner scopes, so `Honest.agree` has one case for
each way in which an honest computation looks at its machine.  All but one of these cases take the
same steps in both machines.

The case of an element is the one where they do not.  `Peers` are two machines that can both produce
the next element of one sequence, each with elements of its own.

* As far as both have produced the sequence, they have the same elements (`Peers.take_elements_eq`).
* A run that fails behind elements which the other machine has already passed exceeds its depth
  (`Peers.exhausted_of_passed₁` and `Peers.exhausted_of_passed₂`).
* So two requests for an element end alike, in each combination of what they find and where they
  fail (`elementAt_alike`).
-/

namespace Terse

open Eval (SamePlace)

/-! ## Facts with a reason -/

/-- An element that a run of the generator gave, with reasons for the facts that the run could
use. -/
inductive Produced (settings : Settings) : FactProperty where
  | intro {d : Nat} {M F : Machine} {s : Sequence} {p : Progress} {history : List Value} {v : Value}
      (hproducing : Producing M s p) (hhistory : p.elements.toList = history)
      (hunlimited : M.output.room = none)
      (hfacts : ∀ s' history' v', Fact M.store s' history' v' → Produced settings s' history' v')
      (hrun : Eval.program (Eval.nested d) s.generator.body settings (M.enter s p.elements) =
        .ok v F) :
      Produced settings s history v

/-- An element that every run of the generator gives which does not exceed its depth. -/
def Determined (settings : Settings) : FactProperty := fun s history v =>
  ∀ d M p, Producing M s p → p.elements.toList = history → SoundFor (Produced settings) M →
    M.output.room = none →
    match Eval.program (Eval.nested d) s.generator.body settings (M.enter s p.elements) with
    | .ok w _ => w = v
    | .error halt _ => halt = .exhausted

/-- An element that was produced and could not have been another one. -/
def Lasting (settings : Settings) : FactProperty := fun s history v =>
  Produced settings s history v ∧ Determined settings s history v

theorem SoundFor.imp {Q R : FactProperty} {M : Machine} (hM : SoundFor Q M)
    (himp : ∀ s history v, Q s history v → R s history v) : SoundFor R M :=
  ⟨hM.sound, fun hunlimited s history v hfact =>
    himp s history v (hM.facts hunlimited s history v hfact)⟩

theorem SoundFor.produced {settings : Settings} {M : Machine} (hM : SoundFor (Lasting settings) M) :
    SoundFor (Produced settings) M :=
  hM.imp fun _ _ _ h => h.1

/-- Runs of generators produce their values, at every depth. -/
theorem establishes_produced (settings : Settings) (d : Nat) :
    Establishes (Produced settings) settings d :=
  fun _ _ _ _ _ hproducing hM hunlimited hrun =>
    .intro hproducing rfl hunlimited (hM.facts hunlimited) hrun

/-! ## Agreement -/

/-- What is known in both of two machines. -/
def Knowledge.both (K₁ K₂ : Knowledge) : Knowledge where
  has v := K₁.has v ∧ K₂.has v
  text s := ⟨K₁.text s, K₂.text s⟩
  number n h := ⟨K₁.number n h, K₂.number n h⟩
  array_iff := by
    intro items
    rw [K₁.array_iff, K₂.array_iff]
    exact ⟨fun h v hv => ⟨h.1 v hv, h.2 v hv⟩,
      fun h => ⟨fun v hv => (h v hv).1, fun v hv => (h v hv).2⟩⟩

/-- Two machines at the same place of a program, the facts of the first one determined, those of
the second one produced. -/
structure Twins (settings : Settings) (M₁ M₂ : Machine) : Prop where
  left : SoundFor (Lasting settings) M₁
  right : SoundFor (Produced settings) M₂
  place : SamePlace M₁ M₂
  unlimited₁ : M₁.output.room = none
  unlimited₂ : M₂.output.room = none

/-- What both machines know. -/
def shared (M₁ M₂ : Machine) : Knowledge := M₁.knowledge.both M₂.knowledge

/-- The runs of two computations end alike, or one of them exceeds its depth.  If they succeed they
lead to twins, and their result satisfies `P`. -/
inductive Agree (settings : Settings) (M₁ M₂ : Machine) {α : Type} (x₁ x₂ : Eval α)
    (P : Knowledge → α → Prop) : Prop where
  | ok {a : α} {N₁ N₂ : Machine} (h₁ : x₁ settings M₁ = .ok a N₁) (h₂ : x₂ settings M₂ = .ok a N₂)
      (htwins : Twins settings N₁ N₂) (hgrows₁ : Grows M₁ N₁) (hgrows₂ : Grows M₂ N₂)
      (ha : P (shared N₁ N₂) a)
  | error {e : Halt} {N₁ N₂ : Machine} (h₁ : x₁ settings M₁ = .error e N₁)
      (h₂ : x₂ settings M₂ = .error e N₂)
  | exceeds₁ {N₁ : Machine} (h₁ : x₁ settings M₁ = .error .exhausted N₁)
  | exceeds₂ {N₂ : Machine} (h₂ : x₂ settings M₂ = .error .exhausted N₂)

namespace Agree

variable {settings : Settings} {M₁ M₂ : Machine} {α β : Type}

theorem pure {a : α} {P : Knowledge → α → Prop} (h : Twins settings M₁ M₂)
    (ha : P (shared M₁ M₂) a) : Agree settings M₁ M₂ (Pure.pure a) (Pure.pure a) P :=
  .ok rfl rfl h (.refl M₁) (.refl M₂) ha

theorem throw {e : Halt} {P : Knowledge → α → Prop} :
    Agree settings M₁ M₂ (throwThe Halt e) (throwThe Halt e) P :=
  .error rfl rfl

theorem bind {x₁ x₂ : Eval α} {f₁ f₂ : α → Eval β} {P : Knowledge → α → Prop}
    {R : Knowledge → β → Prop} (hx : Agree settings M₁ M₂ x₁ x₂ P)
    (hf : ∀ a N₁ N₂, Twins settings N₁ N₂ → Grows M₁ N₁ → Grows M₂ N₂ →
      P (shared N₁ N₂) a → Agree settings N₁ N₂ (f₁ a) (f₂ a) R) :
    Agree settings M₁ M₂ (x₁ >>= f₁) (x₂ >>= f₂) R := by
  cases hx with
  | error h₁ h₂ => exact .error (Eval.bind_error h₁) (Eval.bind_error h₂)
  | exceeds₁ h₁ => exact .exceeds₁ (Eval.bind_error h₁)
  | exceeds₂ h₂ => exact .exceeds₂ (Eval.bind_error h₂)
  | ok h₁ h₂ htwins hgrows₁ hgrows₂ ha =>
      rename_i a N₁ N₂
      cases hf a N₁ N₂ htwins hgrows₁ hgrows₂ ha with
      | ok h₁' h₂' htwins' hgrows₁' hgrows₂' hb =>
          exact .ok ((Eval.bind_ok h₁).trans h₁') ((Eval.bind_ok h₂).trans h₂') htwins'
            (hgrows₁.trans hgrows₁') (hgrows₂.trans hgrows₂') hb
      | error h₁' h₂' =>
          exact .error ((Eval.bind_ok h₁).trans h₁') ((Eval.bind_ok h₂).trans h₂')
      | exceeds₁ h₁' => exact .exceeds₁ ((Eval.bind_ok h₁).trans h₁')
      | exceeds₂ h₂' => exact .exceeds₂ ((Eval.bind_ok h₂).trans h₂')

/-- Agreement only depends on how the computations run in the two machines. -/
theorem congr {x₁ x₂ y₁ y₂ : Eval α} {P : Knowledge → α → Prop}
    (h₁ : x₁ settings M₁ = y₁ settings M₁) (h₂ : x₂ settings M₂ = y₂ settings M₂)
    (hy : Agree settings M₁ M₂ y₁ y₂ P) : Agree settings M₁ M₂ x₁ x₂ P := by
  cases hy with
  | ok h₁' h₂' htwins hgrows₁ hgrows₂ ha =>
      exact .ok (h₁.trans h₁') (h₂.trans h₂') htwins hgrows₁ hgrows₂ ha
  | error h₁' h₂' => exact .error (h₁.trans h₁') (h₂.trans h₂')
  | exceeds₁ h₁' => exact .exceeds₁ (h₁.trans h₁')
  | exceeds₂ h₂' => exact .exceeds₂ (h₂.trans h₂')

theorem shared_le {N₁ N₂ : Machine} (h₁ : Grows M₁ N₁) (h₂ : Grows M₂ N₂) :
    shared M₁ M₂ ≤ shared N₁ N₂ :=
  fun _ hv => ⟨h₁.known hv.1, h₂.known hv.2⟩

theorem weaken {x₁ x₂ : Eval α} {P R : Knowledge → α → Prop}
    (hx : Agree settings M₁ M₂ x₁ x₂ P)
    (himp : ∀ K' a, shared M₁ M₂ ≤ K' → P K' a → R K' a) : Agree settings M₁ M₂ x₁ x₂ R := by
  cases hx with
  | ok h₁ h₂ htwins hgrows₁ hgrows₂ ha =>
      exact .ok h₁ h₂ htwins hgrows₁ hgrows₂ (himp _ _ (shared_le hgrows₁ hgrows₂) ha)
  | error h₁ h₂ => exact .error h₁ h₂
  | exceeds₁ h₁ => exact .exceeds₁ h₁
  | exceeds₂ h₂ => exact .exceeds₂ h₂

end Agree

/-! ## Scopes -/

namespace Twins

variable {settings : Settings} {M₁ M₂ : Machine}

/-- Another scope for both machines. -/
theorem withScope (h : Twins settings M₁ M₂) {scope₁ scope₂ : Scope} (heq : scope₂ = scope₁)
    (hscope : ∀ name v, scope₁.lookup name = some v → (shared M₁ M₂).has v) :
    Twins settings { M₁ with scope := scope₁ } { M₂ with scope := scope₂ } where
  left := h.left.withScope fun name v hv => (hscope name v hv).1
  right := h.right.withScope fun name v hv => (hscope name v (heq ▸ hv)).2
  place := ⟨heq, h.place.lookback, h.place.site⟩
  unlimited₁ := h.unlimited₁
  unlimited₂ := h.unlimited₂

theorem scope_known (h : Twins settings M₁ M₂) :
    ∀ name v, M₁.scope.lookup name = some v → (shared M₁ M₂).has v :=
  fun name v hv =>
    ⟨h.left.sound.scope name v hv, h.right.sound.scope name v (by rw [h.place.scope, hv])⟩

end Twins

namespace Agree

variable {settings : Settings} {M₁ M₂ : Machine} {α : Type}

theorem inChild {inner₁ inner₂ : Scope} {excluded : List String} {step₁ step₂ : Eval α}
    {P : Knowledge → α → Prop} (h : Twins settings M₁ M₂) (heq : inner₂ = inner₁)
    (hinner : ∀ name v, inner₁.lookup name = some v → (shared M₁ M₂).has v)
    (hstep : ∀ N₁ N₂, Twins settings N₁ N₂ → Agree settings N₁ N₂ step₁ step₂ P) :
    Agree settings M₁ M₂ (Eval.inChild inner₁ excluded step₁)
      (Eval.inChild inner₂ excluded step₂) P := by
  cases hstep _ _ (h.withScope heq hinner) with
  | error h₁ h₂ => exact .error (Eval.inChild_error h₁) (Eval.inChild_error h₂)
  | exceeds₁ h₁ => exact .exceeds₁ (Eval.inChild_error h₁)
  | exceeds₂ h₂ => exact .exceeds₂ (Eval.inChild_error h₂)
  | ok h₁ h₂ htwins hgrows₁ hgrows₂ ha =>
      refine .ok (Eval.inChild_ok h₁) (Eval.inChild_ok h₂) (htwins.withScope ?_
        (Scope.forall_merge (fun name v hv => ?_) htwins.scope_known excluded))
        (hgrows₁.of_scopes _) (hgrows₂.of_scopes _) ha
      · rw [h.place.scope, htwins.place.scope]
      · have hv := h.scope_known name v hv
        exact ⟨hgrows₁.known hv.1, hgrows₂.known hv.2⟩

end Agree

/-- Two machines that can both produce the next element of a sequence, the facts of the first one
determined, those of the second one produced. -/
structure Peers (settings : Settings) (M₁ M₂ : Machine) (s : Sequence) (p₁ p₂ : Progress) :
    Prop where
  left : SoundFor (Lasting settings) M₁
  right : SoundFor (Produced settings) M₂
  producing₁ : Producing M₁ s p₁
  producing₂ : Producing M₂ s p₂
  unlimited₁ : M₁.output.room = none
  unlimited₂ : M₂.output.room = none

/-- Two machines that produce the same element are at the same place. -/
theorem Peers.enter {settings : Settings} {M₁ M₂ : Machine} {s : Sequence} {p₁ p₂ : Progress}
    (h : Peers settings M₁ M₂ s p₁ p₂) (helements : p₂.elements = p₁.elements) :
    Twins settings (M₁.enter s p₁.elements) (M₂.enter s p₂.elements) where
  left := SafeEvaluator.enter h.producing₁ h.left
  right := SafeEvaluator.enter h.producing₂ h.right
  place := by
    rw [helements]
    exact ⟨rfl, rfl, rfl⟩
  unlimited₁ := h.unlimited₁
  unlimited₂ := h.unlimited₂

/-! ## Evaluators in lockstep -/

/-- Runs at a depth agree with runs at all depths. -/
def LockedAt (settings : Settings) (d : Nat) : Prop :=
  ∀ d' n M₁ M₂, Twins settings M₁ M₂ →
    Agree settings M₁ M₂ (Eval.nested d n) (Eval.nested d' n) Knowledge.has

namespace LockedAt

variable {settings : Settings} {d : Nat} {M₁ M₂ : Machine}

theorem items (hlocked : LockedAt settings d) (d' : Nat) (h : Twins settings M₁ M₂)
    {nodes : List Node} {last : Value} (hlast : (shared M₁ M₂).has last) :
    Agree settings M₁ M₂ (Eval.items (Eval.nested d) nodes last)
      (Eval.items (Eval.nested d') nodes last) Knowledge.has := by
  induction nodes generalizing M₁ M₂ last with
  | nil => exact .pure h hlast
  | cons n rest ih => exact .bind (hlocked d' n M₁ M₂ h) fun _ _ _ h' _ _ hv => ih h' hv

theorem program (hlocked : LockedAt settings d) (d' : Nat) (h : Twins settings M₁ M₂)
    (body : Program) :
    Agree settings M₁ M₂ (Eval.program (Eval.nested d) body)
      (Eval.program (Eval.nested d') body) Knowledge.has :=
  hlocked.items d' h (shared M₁ M₂).empty

/-- What a generator gives at a depth in lockstep could not have been another value. -/
theorem establishes_lasting (hlocked : LockedAt settings d) :
    Establishes (Lasting settings) settings d := by
  intro M s p v F hproducing hM hunlimited hrun
  refine ⟨establishes_produced settings d M s p v F hproducing hM.produced hunlimited hrun, ?_⟩
  intro d' M' p' hproducing' hhistory hM' hunlimited'
  have hpeers : Peers settings M M' s p p' :=
    ⟨hM, hM', hproducing, hproducing', hunlimited, hunlimited'⟩
  cases hlocked.program d' (hpeers.enter (Array.toList_inj.1 hhistory)) s.generator.body with
  | ok h₁ h₂ =>
      rw [hrun] at h₁
      obtain ⟨rfl, -⟩ := EStateM.Result.ok.inj h₁
      rw [h₂]
  | error h₁ h₂ =>
      rw [hrun] at h₁
      cases h₁
  | exceeds₁ h₁ =>
      rw [hrun] at h₁
      cases h₁
  | exceeds₂ h₂ => rw [h₂]

end LockedAt

/-! ## Elements -/

/-- An element behind the first ones is a fact. -/
theorem Producing.fact {M : Machine} {s : Sequence} {p : Progress} (h : Producing M s p) {n : Nat}
    {v : Value} (hseeds : s.seeds.length ≤ n) (hv : p.elements.toList[n]? = some v) :
    Fact M.store s (p.elements.toList.take n) v := by
  obtain ⟨hn, rfl⟩ := List.getElem?_eq_some_iff.1 hv
  refine ⟨p, p.elements.toList.drop (n + 1), h.find, h.same, ?_, ?_⟩
  · rw [List.length_take_of_le (Nat.le_of_lt hn)]
    exact hseeds
  · rw [← List.drop_eq_getElem_cons hn, List.take_append_drop]

/-- A sequence that can produce starts with its first elements. -/
theorem Producing.seeds_prefix {M : Machine} {s : Sequence} {p : Progress} (h : Producing M s p) :
    s.seeds <+: p.elements.toList := by
  rw [← h.same]
  exact (h.sound.store.coherent _ p h.find).seeds

theorem Producing.seeds_le {M : Machine} {s : Sequence} {p : Progress} (h : Producing M s p) :
    s.seeds.length ≤ p.elements.size := by
  simpa using h.seeds_prefix.length_le

namespace Peers

variable {settings : Settings} {M₁ M₂ : Machine} {s : Sequence} {p₁ p₂ : Progress}

/-- As far as two machines have both produced a sequence, they have the same elements. -/
theorem take_elements_eq (h : Peers settings M₁ M₂ s p₁ p₂) {n : Nat}
    (hn₁ : n ≤ p₁.elements.size) (hn₂ : n ≤ p₂.elements.size) :
    p₁.elements.toList.take n = p₂.elements.toList.take n := by
  induction n with
  | zero => rfl
  | succ n ih =>
      have hfront := ih (Nat.le_of_succ_le hn₁) (Nat.le_of_succ_le hn₂)
      have hlt₁ : n < p₁.elements.toList.length := by simpa using Nat.lt_of_succ_le hn₁
      have hlt₂ : n < p₂.elements.toList.length := by simpa using Nat.lt_of_succ_le hn₂
      suffices hnth : p₁.elements.toList[n] = p₂.elements.toList[n] by
        rw [List.take_succ_eq_append_getElem hlt₁, List.take_succ_eq_append_getElem hlt₂, hfront,
          hnth]
      -- The first elements were given to the sequence, and only those behind them were produced.
      by_cases hseeds : s.seeds.length ≤ n
      · -- The second machine's element is the value of a run; the first machine's is determined.
        have hfact₁ := h.producing₁.fact hseeds (List.getElem?_eq_getElem hlt₁)
        have hfact₂ := h.producing₂.fact hseeds (List.getElem?_eq_getElem hlt₂)
        have hdetermined := (h.left.facts h.unlimited₁ _ _ _ hfact₁).2
        cases h.right.facts h.unlimited₂ _ _ _ hfact₂ with
        | @intro d M F _ p _ _ hproducing hhistory hunlimited hfacts hrun =>
            have hvalue := hdetermined d M p hproducing (hhistory.trans hfront.symm)
              ⟨hproducing.sound, fun _ => hfacts⟩ hunlimited
            rw [hrun] at hvalue
            exact hvalue.symm
      · have hseed : n < s.seeds.length := Nat.lt_of_not_le hseeds
        have hseeds₁ := h.producing₁.seeds_prefix
        have hseeds₂ := h.producing₂.seeds_prefix
        rw [← hseeds₁.getElem hseed, ← hseeds₂.getElem hseed]

/-- The generator cannot fail in the second machine behind elements that the first one has already
passed. -/
theorem exhausted_of_passed₁ (h : Peers settings M₁ M₂ s p₁ p₂)
    (hpassed : p₂.elements.size < p₁.elements.size) {d : Nat} {e : Halt} {F : Machine}
    (hrun : Eval.program (Eval.nested d) s.generator.body settings (M₂.enter s p₂.elements) =
      .error e F) : e = .exhausted := by
  have htake := h.take_elements_eq (Nat.le_of_lt hpassed) (Nat.le_refl _)
  have hlt : p₂.elements.size < p₁.elements.toList.length := by simpa using hpassed
  have hfact := h.producing₁.fact h.producing₂.seeds_le (List.getElem?_eq_getElem hlt)
  -- The element that the first machine has here is determined, so no run behind the same elements
  -- fails.
  have hhistory : p₂.elements.toList = p₁.elements.toList.take p₂.elements.size := by
    rw [htake, List.take_of_length_le (by simp)]
  have hend := (h.left.facts h.unlimited₁ _ _ _ hfact).2 d M₂ p₂ h.producing₂ hhistory h.right
    h.unlimited₂
  rwa [hrun] at hend

/-- The same with the machines exchanged, for a depth in lockstep. -/
theorem exhausted_of_passed₂ (h : Peers settings M₁ M₂ s p₁ p₂) {d : Nat}
    (hlocked : LockedAt settings d) (hpassed : p₁.elements.size < p₂.elements.size) {e : Halt}
    {F : Machine}
    (hrun : Eval.program (Eval.nested d) s.generator.body settings (M₁.enter s p₁.elements) =
      .error e F) : e = .exhausted := by
  have htake := h.take_elements_eq (Nat.le_refl _) (Nat.le_of_lt hpassed)
  have hlt : p₁.elements.size < p₂.elements.toList.length := by simpa using hpassed
  have hfact := h.producing₂.fact h.producing₁.seeds_le (List.getElem?_eq_getElem hlt)
  -- The element of the second machine comes from a run that succeeded in some machine `M`.
  cases h.right.facts h.unlimited₂ _ _ _ hfact with
  | @intro d' M F' _ p _ _ hproducing hhistory hunlimited hfacts hrun' =>
      have helements : p.elements = p₁.elements := by
        rw [← Array.toList_inj, hhistory, ← htake, List.take_of_length_le (by simp)]
      have hpeers : Peers settings M₁ M s p₁ p :=
        ⟨h.left, ⟨hproducing.sound, fun _ => hfacts⟩, h.producing₁, hproducing, h.unlimited₁,
          hunlimited⟩
      cases hlocked.program d' (hpeers.enter helements) s.generator.body with
      | ok h₁ _ => cases hrun.symm.trans h₁
      | error _ h₂ => cases hrun'.symm.trans h₂
      | exceeds₁ h₁ => exact (EStateM.Result.error.inj (hrun.symm.trans h₁)).1
      | exceeds₂ h₂ => cases hrun'.symm.trans h₂

end Peers

/-- Two runs end alike, or one of them exceeds its depth. -/
inductive Alike {α : Type} :
    EStateM.Result Halt Machine α → EStateM.Result Halt Machine α → Prop where
  | ok (a : α) (N₁ N₂ : Machine) : Alike (.ok a N₁) (.ok a N₂)
  | error (e : Halt) (N₁ N₂ : Machine) : Alike (.error e N₁) (.error e N₂)
  | exceeds₁ (N₁ : Machine) (r : EStateM.Result Halt Machine α) : Alike (.error .exhausted N₁) r
  | exceeds₂ (r : EStateM.Result Halt Machine α) (N₂ : Machine) : Alike r (.error .exhausted N₂)

section Elements

variable {settings : Settings} {M₁ M₂ N₁ N₂ : Machine} {s : Sequence}

/-- Two machines that both have an element have the same one. -/
theorem Peers.element_eq {p₁ p₂ : Progress} (h : Peers settings M₁ M₂ s p₁ p₂) {index : Nat}
    {v₁ v₂ : Value} (hv₁ : p₁.elements[index]? = some v₁) (hv₂ : p₂.elements[index]? = some v₂) :
    v₁ = v₂ := by
  have hlt₁ := (Array.getElem?_eq_some_iff.1 hv₁).1
  have hlt₂ := (Array.getElem?_eq_some_iff.1 hv₂).1
  have htake := h.take_elements_eq (Nat.succ_le_of_lt hlt₁) (Nat.succ_le_of_lt hlt₂)
  have hvalue := congrArg (·[index]?) htake
  simpa only [List.getElem?_take, Nat.lt_succ_self, if_true, Array.getElem?_toList, hv₁, hv₂,
    Option.some.injEq] using hvalue

/-- Two machines in which the generator fails fail alike. -/
theorem Peers.alike_of_failed {p₁ p₂ : Progress} (h : Peers settings M₁ M₂ s p₁ p₂) {d d' : Nat}
    (hlocked : LockedAt settings d) {e₁ e₂ : Halt} {F₁ F₂ : Machine}
    (hrun₁ : Eval.program (Eval.nested d) s.generator.body settings (M₁.enter s p₁.elements) =
      .error e₁ F₁)
    (hrun₂ : Eval.program (Eval.nested d') s.generator.body settings (M₂.enter s p₂.elements) =
      .error e₂ F₂) {α : Type} :
    Alike (.error e₁ N₁ : EStateM.Result Halt Machine α) (.error e₂ N₂) := by
  -- If one machine is behind the other, its generator cannot have failed but for its depth.
  rcases Nat.lt_trichotomy p₁.elements.size p₂.elements.size with hlt | heq | hgt
  · obtain rfl := h.exhausted_of_passed₂ hlocked hlt hrun₁
    exact .exceeds₁ _ _
  · -- Behind the same elements the two runs are in lockstep.
    have htake := h.take_elements_eq (Nat.le_refl _) (Nat.le_of_eq heq)
    rw [List.take_of_length_le (by simp), List.take_of_length_le (by simp [heq])] at htake
    cases hlocked.program d' (h.enter (Array.toList_inj.1 htake.symm)) s.generator.body with
    | ok h₁ => cases hrun₁.symm.trans h₁
    | error h₁ h₂ =>
        obtain ⟨rfl, -⟩ := EStateM.Result.error.inj (hrun₁.symm.trans h₁)
        obtain ⟨rfl, -⟩ := EStateM.Result.error.inj (hrun₂.symm.trans h₂)
        exact .error _ _ _
    | exceeds₁ h₁ =>
        obtain ⟨rfl, -⟩ := EStateM.Result.error.inj (hrun₁.symm.trans h₁)
        exact .exceeds₁ _ _
    | exceeds₂ h₂ =>
        obtain ⟨rfl, -⟩ := EStateM.Result.error.inj (hrun₂.symm.trans h₂)
        exact .exceeds₂ _ _
  · obtain rfl := h.exhausted_of_passed₁ hgt hrun₂
    exact .exceeds₂ _ _

/-- The request for an element ends alike in two machines, whatever they have produced. -/
theorem elementAt_alike {d d' : Nat} (hlocked : LockedAt settings d)
    (hrun₁ : SafeEvaluator (Lasting settings) settings (Eval.nested d))
    (hrun₂ : SafeEvaluator (Produced settings) settings (Eval.nested d'))
    (hM₁ : SoundFor (Lasting settings) M₁) (hM₂ : SoundFor (Produced settings) M₂)
    (hunlimited₁ : M₁.output.room = none) (hunlimited₂ : M₂.output.room = none)
    (hs₁ : M₁.knowledge.has (.sequence s)) (hs₂ : M₂.knowledge.has (.sequence s)) (index : Nat) :
    Alike (Eval.elementAt (Eval.nested d) s index settings M₁)
      (Eval.elementAt (Eval.nested d') s index settings M₂) := by
  -- Each request stops in a machine that has the element, or cannot produce the next one.
  have hpeers : ∀ {N₁ N₂ : Machine}, SoundFor (Lasting settings) N₁ → Grows M₁ N₁ →
      SoundFor (Produced settings) N₂ → Grows M₂ N₂ →
      Peers settings N₁ N₂ s (N₁.store.progress s) (N₂.store.progress s) :=
    fun hN₁ hgrows₁ hN₂ hgrows₂ =>
      ⟨hN₁, hN₂, hN₁.producing (hgrows₁.known hs₁), hN₂.producing (hgrows₂.known hs₂),
        hgrows₁.unlimited.2 hunlimited₁, hgrows₂.unlimited.2 hunlimited₂⟩
  have hcases₁ := hrun₁.elementAt_cases hM₁ hs₁ index
  have hcases₂ := hrun₂.elementAt_cases hM₂ hs₂ index
  generalize Eval.elementAt (Eval.nested d) s index settings M₁ = r₁ at hcases₁ ⊢
  generalize Eval.elementAt (Eval.nested d') s index settings M₂ = r₂ at hcases₂ ⊢
  -- Whether an index is outside does not depend on the machine; of the other cases, none excludes
  -- another.
  cases hcases₁ with
  | outside hlength₁ =>
      cases hcases₂ with
      | outside => exact .ok _ _ _
      | found hlength₂ => exact absurd hlength₁ hlength₂
      | failed hlength₂ => exact absurd hlength₁ hlength₂
  | found hlength₁ hN₁ hgrows₁ hv₁ =>
      have hlt₁ := (Array.getElem?_eq_some_iff.1 hv₁).1
      cases hcases₂ with
      | outside hlength₂ => exact absurd hlength₂ hlength₁
      | found _ hN₂ hgrows₂ hv₂ =>
          obtain rfl := (hpeers hN₁ hgrows₁ hN₂ hgrows₂).element_eq hv₁ hv₂
          exact .ok _ _ _
      | failed _ hN₂ hgrows₂ hsize₂ hgenerate₂ =>
          obtain ⟨F, hprogram⟩ := Eval.program_of_generate_error hgenerate₂
          obtain rfl := (hpeers hN₁ hgrows₁ hN₂ hgrows₂).exhausted_of_passed₁
            (Nat.lt_of_le_of_lt hsize₂ hlt₁) hprogram
          exact .exceeds₂ _ _
  | failed hlength₁ hN₁ hgrows₁ hsize₁ hgenerate₁ =>
      obtain ⟨F₁, hprogram₁⟩ := Eval.program_of_generate_error hgenerate₁
      cases hcases₂ with
      | outside hlength₂ => exact absurd hlength₂ hlength₁
      | found _ hN₂ hgrows₂ hv₂ =>
          have hlt₂ := (Array.getElem?_eq_some_iff.1 hv₂).1
          obtain rfl := (hpeers hN₁ hgrows₁ hN₂ hgrows₂).exhausted_of_passed₂ hlocked
            (Nat.lt_of_le_of_lt hsize₁ hlt₂) hprogram₁
          exact .exceeds₁ _ _
      | failed _ hN₂ hgrows₂ hsize₂ hgenerate₂ =>
          obtain ⟨F₂, hprogram₂⟩ := Eval.program_of_generate_error hgenerate₂
          exact (hpeers hN₁ hgrows₁ hN₂ hgrows₂).alike_of_failed hlocked hprogram₁ hprogram₂

end Elements

/-! ## Honest computations -/

namespace Agree

variable {settings : Settings} {M₁ M₂ : Machine} {α : Type}

/-- Runs that end alike and at the same place agree, by what is known of each. -/
theorem of_alike {x₁ x₂ : Eval α} {P : Knowledge → α → Prop} (h : Twins settings M₁ M₂)
    (hx₁ : Preserves (Lasting settings) settings M₁ x₁ P)
    (hx₂ : Preserves (Produced settings) settings M₂ x₂ P)
    (hboth : ∀ K₁ K₂ a, P K₁ a → P K₂ a → P (K₁.both K₂) a)
    (halike : Alike (x₁ settings M₁) (x₂ settings M₂))
    (hplace : ∀ a b N₁ N₂, x₁ settings M₁ = .ok a N₁ → x₂ settings M₂ = .ok b N₂ →
      SamePlace N₁ N₂) :
    Agree settings M₁ M₂ x₁ x₂ P := by
  generalize h₁ : x₁ settings M₁ = r₁ at halike
  generalize h₂ : x₂ settings M₂ = r₂ at halike
  cases halike with
  | ok a N₁ N₂ =>
      obtain ⟨hN₁, hgrows₁, ha₁⟩ := hx₁.ok h₁
      obtain ⟨hN₂, hgrows₂, ha₂⟩ := hx₂.ok h₂
      exact .ok h₁ h₂ ⟨hN₁, hN₂, hplace a a N₁ N₂ h₁ h₂, hgrows₁.unlimited.2 h.unlimited₁,
        hgrows₂.unlimited.2 h.unlimited₂⟩ hgrows₁ hgrows₂ (hboth _ _ a ha₁ ha₂)
  | error e N₁ N₂ => exact .error h₁ h₂
  | exceeds₁ N₁ => exact .exceeds₁ h₁
  | exceeds₂ _ N₂ => exact .exceeds₂ h₂

/-- Two runs that are given by equations. -/
theorem of_runs {x₁ x₂ : Eval α} {P : Knowledge → α → Prop} {a : α} {N₁ N₂ : Machine}
    (h : Twins settings M₁ M₂) (hx₁ : Preserves (Lasting settings) settings M₁ x₁ P)
    (hx₂ : Preserves (Produced settings) settings M₂ x₂ P)
    (hboth : ∀ K₁ K₂ a, P K₁ a → P K₂ a → P (K₁.both K₂) a)
    (h₁ : x₁ settings M₁ = .ok a N₁) (h₂ : x₂ settings M₂ = .ok a N₂)
    (hplace : SamePlace N₁ N₂) : Agree settings M₁ M₂ x₁ x₂ P := by
  refine of_alike h hx₁ hx₂ hboth (by rw [h₁, h₂]; exact .ok a N₁ N₂) fun b c N₁' N₂' h₁' h₂' => ?_
  obtain ⟨-, rfl⟩ := EStateM.Result.ok.inj (h₁.symm.trans h₁')
  obtain ⟨-, rfl⟩ := EStateM.Result.ok.inj (h₂.symm.trans h₂')
  exact hplace

theorem readVariable (h : Twins settings M₁ M₂) {name : String} {position : Position} :
    Agree settings M₁ M₂ (Eval.readVariable name position) (Eval.readVariable name position)
      Knowledge.has := by
  have hsame : M₂.scope.get? M₂.lookback name = M₁.scope.get? M₁.lookback name := by
    rw [h.place.scope, h.place.lookback]
  cases hget : M₁.scope.get? M₁.lookback name with
  | none =>
      exact .error (Eval.readVariable_error hget) (Eval.readVariable_error (hsame.trans hget))
  | some result =>
      exact of_runs h (.readVariable h.left) (.readVariable h.right) (fun _ _ _ h₁ h₂ => ⟨h₁, h₂⟩)
        (Eval.readVariable_ok hget) (Eval.readVariable_ok (hsame.trans hget))
        ⟨h.place.scope, rfl, h.place.site⟩

theorem writeLine (h : Twins settings M₁ M₂) {text : String} :
    Agree settings M₁ M₂ (Eval.writeLine text) (Eval.writeLine text) fun _ _ => True := by
  obtain ⟨output₁, -, hrun₁⟩ := Eval.writeLine_cases settings M₁ text
  obtain ⟨output₂, -, hrun₂⟩ := Eval.writeLine_cases settings M₂ text
  exact of_runs h (.writeLine h.left) (.writeLine h.right) (fun _ _ _ _ _ => trivial)
    (hrun₁.resolve_right fun hlimited => hlimited.1 h.unlimited₁)
    (hrun₂.resolve_right fun hlimited => hlimited.1 h.unlimited₂)
    ⟨h.place.scope, h.place.lookback, h.place.site⟩

end Agree

namespace LockedAt

variable {settings : Settings} {d d' : Nat} {M₁ M₂ : Machine}

theorem applyBlock (hlocked : LockedAt settings d) (h : Twins settings M₁ M₂) (b : Block)
    {v : Value} (hv : (shared M₁ M₂).has v) :
    Agree settings M₁ M₂ (Eval.applyBlock (Eval.nested d) b v)
      (Eval.applyBlock (Eval.nested d') b v) Knowledge.has := by
  refine .congr (Eval.applyBlock_eq b v) (Eval.applyBlock_eq b v) ?_
  exact .inChild h (by rw [h.place.scope]) (Scope.forall_set h.scope_known hv)
    fun _ _ h' => hlocked.program d' h' b.body

theorem applyCombinator (hlocked : LockedAt settings d) (h : Twins settings M₁ M₂)
    (c : Combinator) {v w : Value} (hv : (shared M₁ M₂).has v) (hw : (shared M₁ M₂).has w) :
    Agree settings M₁ M₂ (Eval.applyCombinator (Eval.nested d) c v w)
      (Eval.applyCombinator (Eval.nested d') c v w) Knowledge.has := by
  refine .congr (Eval.applyCombinator_eq c v w) (Eval.applyCombinator_eq c v w) ?_
  exact .inChild h (by rw [h.place.scope])
    (Scope.forall_set (Scope.forall_set h.scope_known hv) hw)
    fun N₁ N₂ h' => hlocked d' c.expr N₁ N₂ h'

theorem invoke (hlocked : LockedAt settings d) (h : Twins settings M₁ M₂) (name : String)
    {values : List Value} (hvalues : (shared M₁ M₂).all values) (position : Position) :
    Agree settings M₁ M₂ (Eval.invoke (Eval.nested d) name values position)
      (Eval.invoke (Eval.nested d') name values position) Knowledge.has := by
  have h₁ := Eval.invoke_eq (Eval.nested d) settings M₁ name values position
  have h₂ := Eval.invoke_eq (Eval.nested d') settings M₂ name values position
  rw [h.place.scope] at h₂
  cases hfunction : M₁.scope.function? name with
  | none =>
      rw [hfunction] at h₁ h₂
      exact .error h₁ h₂
  | some function =>
      rw [hfunction] at h₁ h₂
      by_cases hlength : function.params.length = values.length
      · simp only [hlength, if_true] at h₁ h₂
        refine .congr h₁ h₂ (.inChild h rfl (Scope.forall_setAll h.scope_known fun b hb => ?_)
          fun N₁ N₂ h' => hlocked d' function.body N₁ N₂ h')
        exact hvalues b.2 (List.of_mem_zip hb).2
      · simp only [hlength, if_false] at h₁ h₂
        exact .error h₁ h₂

end LockedAt

/-- Honest computations run in lockstep if the evaluators do. -/
theorem Honest.agree {D : Discipline} {settings : Settings} {d d' : Nat}
    (hinput : settings.input.Plain) (hlocked : LockedAt settings d)
    (hrun₁ : SafeEvaluator (Lasting settings) settings (Eval.nested d))
    (hrun₂ : SafeEvaluator (Produced settings) settings (Eval.nested d'))
    {α : Type} {K : Knowledge} {x : Evaluator → Eval α} {P : Knowledge → α → Prop}
    (hx : Honest D K x P) :
    ∀ M₁ M₂, Twins settings M₁ M₂ → shared M₁ M₂ = K →
      Agree settings M₁ M₂ (x (Eval.nested d)) (x (Eval.nested d')) P := by
  have hvalues : ∀ (K₁ K₂ : Knowledge) (v : Value), K₁.has v → K₂.has v → (K₁.both K₂).has v :=
    fun _ _ _ h₁ h₂ => ⟨h₁, h₂⟩
  induction hx with
  | pure ha =>
      rintro M₁ M₂ h rfl
      exact .pure h ha
  | bind _ _ ihx ihf =>
      rintro M₁ M₂ h rfl
      exact .bind (ihx M₁ M₂ h rfl) fun a N₁ N₂ h' hgrows₁ hgrows₂ ha =>
        ihf _ a (Agree.shared_le hgrows₁ hgrows₂) ha N₁ N₂ h' rfl
  | weaken _ himp ih =>
      rintro M₁ M₂ h rfl
      exact (ih M₁ M₂ h rfl).weaken himp
  | fail error => exact fun M₁ M₂ _ _ => .throw
  | exhaust => exact fun M₁ M₂ _ _ => .throw
  | settings =>
      rintro M₁ M₂ h rfl
      exact .ok rfl rfl h (.refl M₁) (.refl M₂) ((shared M₁ M₂).plain hinput)
  | readVariable name position => exact fun M₁ M₂ h _ => .readVariable h
  | current name =>
      rintro M₁ M₂ h rfl
      have hsame : M₂.scope.lookup name = M₁.scope.lookup name := by rw [h.place.scope]
      refine .ok (Eval.current_eq name) ((Eval.current_eq name).trans (by rw [hsame])) h (.refl M₁)
        (.refl M₂) (Knowledge.getD_option fun v hv => h.scope_known name v hv)
  | @assign _ name v _ hv =>
      rintro M₁ M₂ h rfl
      exact .ok (Eval.assign_eq name v) (Eval.assign_eq name v)
        (h.withScope (by rw [h.place.scope]) (Scope.forall_set h.scope_known hv))
        (.of_same rfl rfl .rfl) (.of_same rfl rfl .rfl) trivial
  | @define _ name function _ =>
      rintro M₁ M₂ h rfl
      exact .ok (Eval.define_eq name function) (Eval.define_eq name function)
        (h.withScope (by rw [h.place.scope]) h.scope_known)
        (.of_same rfl rfl .rfl) (.of_same rfl rfl .rfl) trivial
  | writeLine text => exact fun M₁ M₂ h _ => .writeLine h
  -- The new sequence is the same in both machines, as its scope and its label are.
  | @makeSequence _ seeds generator length hseeds hgenerator =>
      rintro M₁ M₂ h rfl
      have hmake₁ : Honest D M₁.knowledge (fun _ => Eval.makeSequence seeds generator length)
          Knowledge.has := .makeSequence (fun v hv => (hseeds v hv).1) hgenerator
      have hmake₂ : Honest D M₂.knowledge (fun _ => Eval.makeSequence seeds generator length)
          Knowledge.has := .makeSequence (fun v hv => (hseeds v hv).2) hgenerator
      refine .of_alike h (hmake₁.preserves hinput hrun₁ M₁ h.left rfl)
        (hmake₂.preserves hinput hrun₂ M₂ h.right rfl) hvalues ?_ fun a b N₁ N₂ h₁ h₂ => ?_
      · show Alike (Eval.makeSequence seeds generator length settings M₁)
          (Eval.makeSequence seeds generator length settings M₂)
        rw [Eval.makeSequence_eq, Eval.makeSequence_eq, h.place.scope, h.place.site]
        exact .ok _ _ _
      · obtain ⟨-, rfl⟩ := EStateM.Result.ok.inj h₁
        obtain ⟨-, rfl⟩ := EStateM.Result.ok.inj h₂
        exact ⟨h.place.scope, h.place.lookback, congrArg Site.next h.place.site⟩
  | node _ => exact fun M₁ M₂ h _ => hlocked d' _ M₁ M₂ h
  | block _ hv =>
      rintro M₁ M₂ h rfl
      exact hlocked.applyBlock h _ hv
  | combinator _ hv hw =>
      rintro M₁ M₂ h rfl
      exact hlocked.applyCombinator h _ hv hw
  | invoke name position hvalues _ =>
      rintro M₁ M₂ h rfl
      exact hlocked.invoke h name hvalues position
  -- The requests may take different steps, but neither of them moves its machine to another place.
  | @element _ s index hs =>
      rintro M₁ M₂ h rfl
      refine .of_alike h (hrun₁.elementAt h.left hs.1 index) (hrun₂.elementAt h.right hs.2 index)
        (fun _ _ _ h₁ h₂ v hv => ⟨h₁ v hv, h₂ v hv⟩)
        (elementAt_alike hlocked hrun₁ hrun₂ h.left h.right h.unlimited₁ h.unlimited₂ hs.1 hs.2
          index)
        fun a b N₁ N₂ h₁ h₂ => ?_
      have hplace₁ := Eval.elementAt_samePlace (Eval.nested d) settings M₁ s index
      have hplace₂ := Eval.elementAt_samePlace (Eval.nested d') settings M₂ s index
      rw [Eval.final_ok h₁] at hplace₁
      rw [Eval.final_ok h₂] at hplace₂
      exact ⟨by rw [hplace₁.scope, hplace₂.scope, h.place.scope],
        by rw [hplace₁.lookback, hplace₂.lookback, h.place.lookback],
        by rw [hplace₁.site, hplace₂.site, h.place.site]⟩

/-! ## All depths, all facts -/

/-- Evaluation runs in lockstep with itself, at every depth. -/
theorem nested_lockstep {settings : Settings} (hinput : settings.input.Plain) (d : Nat) :
    LockedAt settings d := by
  induction d using Nat.strongRecOn with
  | ind d ih =>
      intro d' n M₁ M₂ h
      cases d with
      | zero => exact .exceeds₁ rfl
      | succ d =>
          cases d' with
          | zero => exact .exceeds₂ rfl
          | succ d' =>
              -- What the first evaluator produces comes from runs at any depth up to `d`, hence
              -- strong induction; for the second one it is enough to be produced.
              have hrun₁ : SafeEvaluator (Lasting settings) settings (Eval.nested d) :=
                nested_safe hinput d fun k hk => (ih k (Nat.lt_succ_of_le hk)).establishes_lasting
              have hrun₂ : SafeEvaluator (Produced settings) settings (Eval.nested d') :=
                nested_safe hinput d' fun k _ => establishes_produced settings k
              have heval : Honest .free (shared M₁ M₂) (fun run => Eval.node run n) Knowledge.has :=
                Honest.eval Discipline.free_closed trivial
              exact heval.agree hinput (ih d (Nat.lt_succ_self d)) hrun₁ hrun₂ M₁ M₂ h rfl

/-- What was produced could not have been another value. -/
theorem Produced.determined {settings : Settings} (hinput : settings.input.Plain) {s : Sequence}
    {history : List Value} {v : Value} (h : Produced settings s history v) :
    Determined settings s history v := by
  induction h with
  | @intro d M F s p history v hproducing hhistory hunlimited hfacts hrun ih =>
      subst hhistory
      -- The facts that the run could use are determined, so every other run is in lockstep with it.
      have hM : SoundFor (Lasting settings) M :=
        ⟨hproducing.sound, fun _ s' history' v' hfact =>
          ⟨hfacts s' history' v' hfact, ih s' history' v' hfact⟩⟩
      have hlasting := (nested_lockstep hinput d).establishes_lasting
      exact (hlasting M s p v F hproducing hM hunlimited hrun).2

theorem SoundFor.lasting {settings : Settings} (hinput : settings.input.Plain) {M : Machine}
    (hM : SoundFor (Produced settings) M) : SoundFor (Lasting settings) M :=
  hM.imp fun _ _ _ h => ⟨h, h.determined hinput⟩

end Terse
