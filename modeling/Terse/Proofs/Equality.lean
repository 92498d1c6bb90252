import Terse.Proofs.Groups
import Terse.Proofs.Materialized

/-!
# Equality and the sequences in values

Before two values are compared, a sequence with a length becomes the array of its elements.  This
happens to the values themselves and not to what is in them, so a sequence that is an item or an
element is compared by its label.

`Expands` says that all sequences in a value have a length and can be produced, and what the value
is with arrays in their place.  `Value.aligned` says that wherever a sequence is in one of two
values, the same sequence is in the same place of the other one.  Values are equal exactly if they
are equal once they are expanded and what is compared is aligned.

## Strategy

Three things have to be shown.

* Expansion does not depend on the machine (`Expands.transport`, `Expands.unique`).  Elements are
  asked for in one machine after another, but all of these are at the same place of the program, and
  runs that end in one of them end alike in the others.  The induction is on the expansion, which
  asks for the elements of a sequence before it looks at what is in them.
* Comparing values as they stand is comparing them expanded, and the places of the sequences in them
  (`Expands.looseEq_eq`).  Two sequences with one label are the same sequence, so they expand to the
  same value.
* The operator first settles one operand, and then the other one in the machine that has the
  elements of the first (`Expands.settle`).  What an operand is settled to expands to the same value
  as the operand.
-/

namespace Terse

open Eval (SamePlace)

/-! ## Values without sequences -/

/-- In a machine, a value is another one with arrays in the place of its sequences, however deep
they are.  The elements of a sequence are asked for before the sequences in them. -/
inductive Expands (settings : Settings) : Machine → Value → Value → Prop where
  | text {M : Machine} (text : String) : Expands settings M (.text text) (.text text)
  | number {M : Machine} (n : Decimal) : Expands settings M (.number n) (.number n)
  | array {M : Machine} {items expanded : List Value} (hlength : expanded.length = items.length)
      (hitems : ∀ (i : Nat) v w, items[i]? = some v → expanded[i]? = some w →
        Expands settings M v w) :
      Expands settings M (.array items) (.array expanded)
  | sequence {M M' : Machine} {s : Sequence} {n d : Nat} {items expanded : List Value}
      (hbounded : s.length = some n)
      (hrun : Eval.takeElements (Eval.nested d) s n settings M = .ok items M')
      (hitems : Expands settings M' (.array items) (.array expanded)) :
      Expands settings M (.sequence s) (.array expanded)

/-- A value with the array of its elements in its place, if it is a sequence itself. -/
inductive Unfolds (settings : Settings) (M : Machine) : Value → Value → Prop where
  | sequence {M' : Machine} {s : Sequence} {n d : Nat} {items : List Value}
      (hbounded : s.length = some n)
      (hrun : Eval.takeElements (Eval.nested d) s n settings M = .ok items M') :
      Unfolds settings M (.sequence s) (.array items)
  | other {v : Value} (hv : ∀ s, v ≠ .sequence s) : Unfolds settings M v v

namespace Value

mutual

/-- Whether the sequences in two values are the same and in the same places. -/
def aligned : Value → Value → Bool
  | sequence a, sequence b => a.label == b.label
  | sequence _, _ | _, sequence _ => false
  | array a, array b => alignedAll a b
  | _, _ => true

def alignedAll : List Value → List Value → Bool
  | a :: as, b :: bs => aligned a b && alignedAll as bs
  | _, _ => true

end

end Value

/-! ## Runs that are repeated -/

section Repeated

variable {settings : Settings} {M N M' N' : Machine} {α : Type} {x : Evaluator → Eval α}
  {P : Knowledge → α → Prop} {d d' : Nat} {a b : α}

/-- A run that succeeds in one of two machines succeeds in the other one from some depth on, always
in the same way. -/
theorem Honest.steady {D : Discipline} (hx : Honest D (shared N M) x P)
    (hinput : settings.input.Plain) (h : Twins settings N M)
    (hrun : x (Eval.nested d) settings M = .ok a M') :
    ∃ depth N', (∀ d', depth ≤ d' → x (Eval.nested d') settings N = .ok a N') ∧
      Twins settings N' M' ∧ shared N M ≤ shared N' M' ∧ P (shared N' M') a := by
  have hsafe : SafeEvaluator (Reproducible settings) settings (Eval.nested d) :=
    nested_safe hinput d fun k _ => (nested_echoed hinput k).2
  have hechoes := hx.echoes hinput (nested_echoed hinput d).1 hsafe N M h
    (h.right.reproducible hinput) rfl
  rw [hrun] at hechoes
  cases hechoes with
  | @ok _ N' _ depth hruns =>
      exact ⟨depth, N', hruns, hx.twins_of_ok hinput h rfl (hruns depth (Nat.le_refl depth)) hrun⟩

/-- Two runs that succeed give the same result. -/
theorem Honest.eq_of_ok {D : Discipline} (hx : Honest D (shared N M) x P)
    (hinput : settings.input.Plain) (h : Twins settings N M)
    (hN : x (Eval.nested d) settings N = .ok a N') (hM : x (Eval.nested d') settings M = .ok b M') :
    a = b := by
  have hagree := hx.agree hinput (nested_lockstep hinput d) (nested_safe_lasting hinput d)
    (nested_safe_produced hinput d') N M h rfl
  cases hagree with
  | ok h₁ h₂ =>
      obtain ⟨rfl, -⟩ := EStateM.Result.ok.inj (h₁.symm.trans hN)
      exact (EStateM.Result.ok.inj (h₂.symm.trans hM)).1
  | error h₁ _ => cases h₁.symm.trans hN
  | exceeds₁ h₁ => cases h₁.symm.trans hN
  | exceeds₂ h₂ => cases h₂.symm.trans hM

end Repeated

/-- Taking elements does not move to another place of the program. -/
theorem Eval.takeElements_samePlace {run : Evaluator} {settings : Settings} {M M' : Machine}
    {s : Sequence} {count : Nat} {items : List Value}
    (hrun : takeElements run s count settings M = .ok items M') : SamePlace M M' := by
  have hwalk : ∀ (count index : Nat) (taken : List Value) (M : Machine),
      SamePlace M (final (walk run s (fun taken v => pure (true, v :: taken)) count index taken)
        settings M) := by
    intro count
    -- The place is the same behind each element that was asked for, also where that failed.
    induction count with
    | zero => exact fun index taken M => .refl M
    | succ count ih =>
        intro index taken M
        have hplace := elementAt_samePlace run settings M s index
        rw [walk]
        cases helement : elementAt run s index settings M with
        | error halt N =>
            rw [final_error helement] at hplace
            rwa [final_error (bind_error helement)]
        | ok element N =>
            rw [final_ok helement] at hplace
            rw [final_bind_ok helement]
            cases element with
            | none => exact hplace
            | some v => exact hplace.trans (ih (index + 1) (v :: taken) N)
  have hplace := hwalk count 0 [] M
  unfold takeElements at hrun
  cases htaken : walk run s (fun taken v => pure (true, v :: taken)) count 0 [] settings M with
  | error halt N =>
      rw [bind_error htaken] at hrun
      cases hrun
  | ok taken N =>
      rw [bind_ok htaken] at hrun
      obtain ⟨-, rfl⟩ := EStateM.Result.ok.inj hrun
      rwa [final_ok htaken] at hplace

/-! ## Expansion does not depend on the machine -/

section Expansion

variable {settings : Settings} {M N : Machine} {v w w' V : Value}

theorem Expands.transport (hinput : settings.input.Plain) (h : Expands settings M v w) :
    ∀ {N : Machine}, Twins settings N M → (shared N M).has v → Expands settings N v w := by
  induction h with
  | text text => exact fun _ _ => .text text
  | number n => exact fun _ _ => .number n
  | @array M items expanded hlength _ ih =>
      intro N htwins hv
      refine .array hlength fun i v w hvi hwi => ih i v w hvi hwi htwins ?_
      exact (shared N M).array_iff.1 hv v (List.mem_of_getElem? hvi)
  | @sequence M M' s n d items expanded hbounded hrun _ ih =>
      intro N htwins hv
      obtain ⟨depth, N', hruns, htwins', -, hall⟩ :=
        (Honest.takeElements hv n (D := .free)).steady hinput htwins hrun
      exact .sequence hbounded (hruns depth (Nat.le_refl depth))
        (ih htwins' ((shared N' M').array_iff.2 hall))

/-- A value expands in one way only. -/
theorem Expands.unique (hinput : settings.input.Plain) (h : Expands settings M v w) :
    ∀ {N : Machine} {w' : Value}, Twins settings N M → (shared N M).has v →
      Expands settings N v w' → w' = w := by
  induction h with
  | text text =>
      intro N w' _ _ h'
      cases h'
      rfl
  | number n =>
      intro N w' _ _ h'
      cases h'
      rfl
  | @array M items expanded hlength hitems ih =>
      intro N w' htwins hv h'
      cases h' with
      | @array _ _ expanded' hlength' hitems' =>
          -- Item by item, as both expansions have the length of the array.
          refine congrArg Value.array (List.ext_getElem? fun i => ?_)
          rcases Nat.lt_or_ge i items.length with hi | hi
          · have hexpanded := List.getElem?_eq_getElem (hlength ▸ hi : i < expanded.length)
            have hexpanded' := List.getElem?_eq_getElem (hlength' ▸ hi : i < expanded'.length)
            have hitem := List.getElem?_eq_getElem hi
            have hknown := (shared N M).array_iff.1 hv _ (List.mem_of_getElem? hitem)
            have heq := ih i _ _ hitem hexpanded htwins hknown (hitems' i _ _ hitem hexpanded')
            rw [hexpanded, hexpanded', heq]
          · rw [List.getElem?_eq_none (by omega), List.getElem?_eq_none (by omega)]
  | @sequence M M' s n d items expanded hbounded hrun hitems ih =>
      intro N w' htwins hv h'
      cases h' with
      | @sequence _ N' _ n' d' items' expanded' hbounded' hrun' hitems' =>
          obtain rfl := Option.some.inj (hbounded.symm.trans hbounded')
          have htake : Honest .free (shared N M) (fun run => Eval.takeElements run s n)
              Knowledge.all := Honest.takeElements hv n
          obtain rfl := htake.eq_of_ok hinput htwins hrun' hrun
          obtain ⟨htwins', -, hall⟩ := htake.twins_of_ok hinput htwins rfl hrun' hrun
          exact ih htwins' ((shared N' M').array_iff.2 hall) hitems'

theorem Unfolds.transport (hinput : settings.input.Plain) (h : Unfolds settings M v V)
    (htwins : Twins settings N M) (hv : (shared N M).has v) : Unfolds settings N v V := by
  cases h with
  | other hother => exact .other hother
  | @sequence M' s n d items hbounded hrun =>
      obtain ⟨depth, N', hruns, -⟩ :=
        (Honest.takeElements hv n (D := .free)).steady hinput htwins hrun
      exact .sequence hbounded (hruns depth (Nat.le_refl depth))

/-- What expands can be unfolded. -/
theorem Expands.exists_unfolds (h : Expands settings M v w) : ∃ V, Unfolds settings M v V := by
  cases h with
  | text text => exact ⟨_, .other fun s => by simp⟩
  | number n => exact ⟨_, .other fun s => by simp⟩
  | array => exact ⟨_, .other fun s => by simp⟩
  | sequence hbounded hrun => exact ⟨_, .sequence hbounded hrun⟩

end Expansion

/-! ## Comparing items -/

namespace Value

/-- Lists are equal, or aligned, item by item. -/
theorem looseEqAll_eq {xs ys xs' ys' : List Value} (hxs : xs'.length = xs.length)
    (hys : ys'.length = ys.length)
    (hitems : ∀ (i : Nat) x y x' y', xs[i]? = some x → ys[i]? = some y → xs'[i]? = some x' →
      ys'[i]? = some y' → x.looseEq y = (x'.looseEq y' && x.aligned y)) :
    looseEqAll xs ys = (looseEqAll xs' ys' && alignedAll xs ys) := by
  induction xs generalizing ys xs' ys' with
  | nil =>
      obtain rfl := List.length_eq_zero_iff.1 hxs
      cases ys with
      | nil =>
          obtain rfl := List.length_eq_zero_iff.1 hys
          simp [looseEqAll, alignedAll]
      | cons y ys =>
          obtain ⟨y', rest, rfl⟩ := List.exists_cons_of_length_eq_add_one hys
          simp [looseEqAll]
  | cons x xs ih =>
      obtain ⟨x', xs', rfl⟩ := List.exists_cons_of_length_eq_add_one hxs
      cases ys with
      | nil =>
          obtain rfl := List.length_eq_zero_iff.1 hys
          simp [looseEqAll]
      | cons y ys =>
          obtain ⟨y', ys', rfl⟩ := List.exists_cons_of_length_eq_add_one hys
          have hfirst := hitems 0 x y x' y' rfl rfl rfl rfl
          have hrest := ih (Nat.succ.inj hxs) (Nat.succ.inj hys)
            fun i x y x' y' hx hy hx' hy' => hitems (i + 1) x y x' y' hx hy hx' hy'
          rw [looseEqAll, looseEqAll, alignedAll, hfirst, hrest]
          -- Both sides are the conjunction of the same four facts.
          cases x'.looseEq y' <;> cases x.aligned y <;> simp

/-- A sequence is neither equal to nor aligned with anything else than a sequence. -/
theorem looseEq_sequence_of_ne (s : Sequence) {v : Value} (hv : ∀ t, v ≠ .sequence t) :
    (sequence s).looseEq v = false ∧ (sequence s).aligned v = false := by
  cases v with
  | sequence t => exact absurd rfl (hv t)
  | text text => simp [looseEq, aligned]
  | number n => simp [looseEq, aligned]
  | array items => simp [looseEq, aligned]

end Value

section Comparison

variable {settings : Settings} {M : Machine}

/-- Sequences that are known and have one label are the same. -/
theorem sequence_eq_of_label {s t : Sequence} (hs : M.knowledge.has (.sequence s))
    (ht : M.knowledge.has (.sequence t)) (hlabel : s.label = t.label) : s = t := by
  obtain ⟨⟨p, hp, rfl⟩, -⟩ := Known.sequence_iff.1 hs
  obtain ⟨⟨q, hq, rfl⟩, -⟩ := Known.sequence_iff.1 ht
  rw [← hlabel, hp] at hq
  rw [Option.some.inj hq]

/-- Known values are equal exactly if they are equal once they are expanded and they are aligned. -/
theorem Expands.looseEq_eq (hinput : settings.input.Plain) {v v' : Value}
    (hv : Expands settings M v v') : Twins settings M M → M.knowledge.has v →
      ∀ {w w' : Value}, Expands settings M w w' → M.knowledge.has w →
        v.looseEq w = (v'.looseEq w' && v.aligned w) := by
  induction hv with
  | text text =>
      intro _ _ w w' hw _
      cases hw <;> simp [Value.looseEq, Value.aligned]
  | number n =>
      intro _ _ w w' hw _
      cases hw <;> simp [Value.looseEq, Value.aligned]
  | @array M items expanded hlength hitems ih =>
      intro hM hknown w w' hw hknown'
      cases hw with
      | text text => simp [Value.looseEq]
      | number n => simp [Value.looseEq]
      | sequence => simp [Value.looseEq, Value.aligned]
      | @array _ items' expanded' hlength' hitems' =>
          rw [Value.looseEq, Value.looseEq, Value.aligned]
          refine Value.looseEqAll_eq hlength hlength' fun i x y x' y' hx hy hx' hy' => ?_
          exact ih i x x' hx hx' hM
            (M.knowledge.array_iff.1 hknown x (List.mem_of_getElem? hx)) (hitems' i y y' hy hy')
            (M.knowledge.array_iff.1 hknown' y (List.mem_of_getElem? hy))
  | @sequence M M' s n d items expanded hbounded hrun hitems ih =>
      intro hM hknown w w' hw hknown'
      have hs : Expands settings M (.sequence s) (.array expanded) :=
        .sequence hbounded hrun hitems
      by_cases hsequence : ∃ t, w = .sequence t
      · obtain ⟨t, rfl⟩ := hsequence
        rw [Value.looseEq, Value.aligned]
        -- Sequences are compared by their labels, on both sides.
        by_cases hlabel : s.label = t.label
        · obtain rfl := sequence_eq_of_label hknown hknown' hlabel
          obtain rfl := hs.unique hinput hM ⟨hknown, hknown⟩ hw
          rw [Value.looseEq_refl, Bool.true_and]
        · rw [beq_false_of_ne hlabel, Bool.and_false]
      · obtain ⟨hne, hnot⟩ := Value.looseEq_sequence_of_ne s fun t heq => hsequence ⟨t, heq⟩
        rw [hne, hnot, Bool.and_false]

end Comparison

/-! ## Equality of values -/

section Settling

variable {settings : Settings} {M N : Machine} {v w V : Value}

/-- A sound machine with unlimited output, in which all elements were produced. -/
structure Ready (settings : Settings) (M : Machine) : Prop where
  sound : SoundFor (Produced settings) M
  unlimited : M.output.room = none

theorem Ready.twins (hM : Ready settings M) (hN : Ready settings N)
    (hinput : settings.input.Plain) (hplace : SamePlace M N) : Twins settings M N :=
  ⟨hM.sound.lasting hinput, hN.sound, hplace, hM.unlimited, hN.unlimited⟩

theorem Eval.SamePlace.symm (h : SamePlace M N) : SamePlace N M :=
  ⟨h.scope.symm, h.lookback.symm, h.site.symm⟩

/-- From some depth on, a value that expands is settled to what it unfolds to, which expands to the
same value. -/
theorem Expands.settle (hinput : settings.input.Plain) (hM : Ready settings M)
    (hknown : M.knowledge.has v) (h : Expands settings M v w) (hV : Unfolds settings M v V)
    (position : Position) :
    ∃ depth N, (∀ d, depth ≤ d → Eval.settle (Eval.nested d) v position settings M = .ok V N) ∧
      Ready settings N ∧ SamePlace M N ∧ M.knowledge ≤ N.knowledge ∧ N.knowledge.has V ∧
      Expands settings N V w := by
  -- Only a sequence is changed, into the array of elements that are produced on the way.
  cases hV with
  | other hother =>
      refine ⟨0, M, fun d _ => ?_, hM, .refl M, fun _ hv => hv, hknown, h⟩
      cases v with
      | sequence s => exact absurd rfl (hother s)
      | _ => rfl
  | @sequence M' s n d items hbounded hrun =>
      have htwins := hM.twins hM hinput (.refl M)
      have hshared : (shared M M).has (.sequence s) := ⟨hknown, hknown⟩
      have htake : Honest .free (shared M M) (fun run => Eval.takeElements run s n)
          Knowledge.all := Honest.takeElements hshared n
      obtain ⟨depth, N, hruns, htwins', hle, hall⟩ := htake.steady hinput htwins hrun
      have hrunN := hruns depth (Nat.le_refl depth)
      refine ⟨depth, N, fun d hd => ?_, ⟨htwins'.left.produced, htwins'.unlimited₁⟩,
        Eval.takeElements_samePlace hrunN, fun v hv => (hle v ⟨hv, hv⟩).1,
        N.knowledge.array_iff.2 fun v hv => (hall v hv).1, ?_⟩
      · simp only [Eval.settle, hbounded, Option.isSome_some, if_true, Eval.allElements,
          Eval.requireLength, pure_bind]
        exact Eval.bind_ok (hruns d hd)
      · cases h with
        | @sequence _ M'' _ n' d' items' expanded hbounded' hrun' hitems =>
            obtain rfl := Option.some.inj (hbounded.symm.trans hbounded')
            obtain rfl := htake.eq_of_ok hinput htwins hrun hrun'
            obtain ⟨htwins'', -, hall'⟩ := htake.twins_of_ok hinput htwins rfl hrunN hrun'
            exact hitems.transport hinput htwins'' ((shared N M'').array_iff.2 hall')

end Settling

theorem Eval.applyBinary_equal {run : Evaluator} (v w : Value) (position : Position) :
    applyBinary run .equal v w position = do
      let V ← settle run v position
      let W ← settle run w position
      return .ofBool (V.looseEq W == true) := by
  rw [applyBinary]
  rfl

theorem Eval.applyBinary_notEqual {run : Evaluator} (v w : Value) (position : Position) :
    applyBinary run .notEqual v w position = do
      let V ← settle run v position
      let W ← settle run w position
      return .ofBool (V.looseEq W == false) := by
  rw [applyBinary]
  rfl

/-- Two values of which all sequences have a length and can be produced are compared by what they
unfold to: `=` holds exactly if the expanded values are equal and wherever a sequence is in one of
the unfolded values, the same sequence is in the same place of the other one; `!=` is the opposite.
Nothing else of the machine is changed than the elements that are kept. -/
theorem equal_settles_expanded {settings : Settings} {held : List Value} {M : Machine}
    {a b a' b' : Value} (h : Reached settings held M) (ha : Obtainable held a)
    (hb : Obtainable held b) (hunlimited : M.output.room = none)
    (ha' : Expands settings M a a') (hb' : Expands settings M b b') (position : Position) :
    (∃ A, Unfolds settings M a A) ∧ (∃ B, Unfolds settings M b B) ∧
      ∀ A B, Unfolds settings M a A → Unfolds settings M b B →
        Settles settings M (fun run => Eval.applyBinary run .equal a b position)
          (.ok (.ofBool (a'.looseEq b' && A.aligned B))) M.scope ∧
        Settles settings M (fun run => Eval.applyBinary run .notEqual a b position)
          (.ok (.ofBool (!(a'.looseEq b' && A.aligned B)))) M.scope := by
  obtain ⟨hinput, hM, hheld⟩ := h.sound
  refine ⟨ha'.exists_unfolds, hb'.exists_unfolds, fun A B hA hB => ?_⟩
  have hready : Ready settings M := ⟨hM, hunlimited⟩
  have hknown := ha _ hheld
  have hknown' := hb _ hheld
  obtain ⟨D₁, N₁, hruns₁, hready₁, hplace₁, hle₁, hA₁, ha₁⟩ :=
    ha'.settle hinput hready hknown hA position
  -- The second operand is settled in the machine that has the elements of the first one.
  have htwins₁ := hready₁.twins hready hinput hplace₁.symm
  have hshared : (shared N₁ M).has b := ⟨hle₁ b hknown', hknown'⟩
  obtain ⟨D₂, N₂, hruns₂, hready₂, hplace₂, hle₂, hB₂, hb₂⟩ :=
    (hb'.transport hinput htwins₁ hshared).settle hinput hready₁ (hle₁ b hknown')
      (hB.transport hinput htwins₁ hshared) position
  have ha₂ := ha₁.transport hinput (hready₂.twins hready₁ hinput hplace₂.symm)
    ⟨hle₂ A hA₁, hA₁⟩
  have heq : A.looseEq B = (a'.looseEq b' && A.aligned B) :=
    ha₂.looseEq_eq hinput (hready₂.twins hready₂ hinput (.refl N₂)) (hle₂ A hA₁) hb₂ hB₂
  have hscope : N₂.scope = M.scope := (hplace₁.trans hplace₂).scope
  have hruns : ∀ d, max D₁ D₂ ≤ d → ∀ test : Bool → Value,
      (Eval.settle (Eval.nested d) a position >>= fun A =>
        Eval.settle (Eval.nested d) b position >>= fun B => pure (test (A.looseEq B)))
        settings M = .ok (test (a'.looseEq b' && A.aligned B)) N₂ := by
    intro d hd test
    rw [Eval.bind_ok (hruns₁ d (by omega)), Eval.bind_ok (hruns₂ d (by omega)), heq]
    rfl
  refine ⟨⟨max D₁ D₂, fun d hd => (endsAt_of_ok ?_).2 ⟨rfl, hscope⟩⟩,
    ⟨max D₁ D₂, fun d hd => (endsAt_of_ok ?_).2 ⟨rfl, hscope⟩⟩⟩
  · have hrun := hruns d hd fun same => .ofBool (same == true)
    rw [beq_true] at hrun
    exact (congrFun (congrFun (Eval.applyBinary_equal a b position) settings) M).trans hrun
  · have hrun := hruns d hd fun same => .ofBool (same == false)
    rw [beq_false] at hrun
    exact (congrFun (congrFun (Eval.applyBinary_notEqual a b position) settings) M).trans hrun

/-! ## An instance -/

namespace Comparing

open Collecting (sequence elements machine reached_machine)

theorem obtainable_sequence : Obtainable [.sequence sequence] (.sequence sequence) :=
  fun _ hK => hK _ List.mem_cons_self

theorem obtainable_elements : Obtainable [.sequence sequence] (.array elements) := by
  intro K _
  refine K.array_iff.2 fun v hv => ?_
  simp only [elements, List.mem_cons, List.not_mem_nil, or_false] at hv
  rcases hv with rfl | rfl | rfl <;> exact K.text _

theorem expands_elements (M : Machine) :
    Expands .small M (.array elements) (.array elements) := by
  refine .array rfl fun i v w hv hw => ?_
  obtain rfl := Option.some.inj (hv.symm.trans hw)
  have hmem := List.mem_of_getElem? hv
  simp only [elements, List.mem_cons, List.not_mem_nil, or_false] at hmem
  rcases hmem with rfl | rfl | rfl <;> exact .text _

theorem takeElements_sequence :
    Eval.takeElements (Eval.nested 4) sequence 3 .small (machine "" 0) =
      .ok elements (machine "" 2) := by
  rfl

theorem expands_sequence :
    Expands .small (machine "" 0) (.sequence sequence) (.array elements) :=
  .sequence rfl takeElements_sequence (expands_elements _)

theorem expands_singleton {M : Machine} {v w : Value} (h : Expands .small M v w) :
    Expands .small M (.array [v]) (.array [w]) := by
  refine .array rfl fun i x y hx hy => ?_
  cases i with
  | zero =>
      obtain rfl := Option.some.inj hx
      obtain rfl := Option.some.inj hy
      exact h
  | succ i => cases hx

end Comparing

/-- A sequence is equal to the array of its elements. -/
theorem equal_settles_elements :
    Settles .small (Collecting.machine "" 0)
        (fun run => Eval.applyBinary run .equal (.sequence Collecting.sequence)
          (.array Collecting.elements) .start) (.ok (.ofBool true)) (Collecting.collected "") ∧
      Settles .small (Collecting.machine "" 0)
        (fun run => Eval.applyBinary run .notEqual (.sequence Collecting.sequence)
          (.array Collecting.elements) .start) (.ok (.ofBool false)) (Collecting.collected "") := by
  have hsettles := equal_settles_expanded Collecting.reached_machine Comparing.obtainable_sequence
    Comparing.obtainable_elements rfl Comparing.expands_sequence (Comparing.expands_elements _)
    .start
  have heq : ((Value.array Collecting.elements).looseEq (.array Collecting.elements) &&
      (Value.array Collecting.elements).aligned (.array Collecting.elements)) = true := by decide
  have hboth := hsettles.2.2 (.array Collecting.elements) (.array Collecting.elements)
    (.sequence rfl Comparing.takeElements_sequence) (.other fun s => by simp)
  rw [heq] at hboth
  exact hboth

/-- A sequence in an array is not equal to the array of its elements in its place. -/
theorem equal_misses_nested :
    ¬ ∀ a b a' b' : Value, Obtainable [.sequence Collecting.sequence] a →
      Obtainable [.sequence Collecting.sequence] b →
      Expands .small (Collecting.machine "" 0) a a' →
      Expands .small (Collecting.machine "" 0) b b' →
      Settles .small (Collecting.machine "" 0)
        (fun run => Eval.applyBinary run .equal a b .start) (.ok (.ofBool (a'.looseEq b')))
        (Collecting.collected "") := by
  intro hsettled
  have hitem {v : Value} (hv : Obtainable [.sequence Collecting.sequence] v) :
      Obtainable [.sequence Collecting.sequence] (.array [v]) :=
    fun K hK => K.array_iff.2 fun w hw => List.mem_singleton.1 hw ▸ hv K hK
  obtain ⟨D, hends⟩ := hsettled (.array [.sequence Collecting.sequence])
    (.array [.array Collecting.elements]) _ _ (hitem Comparing.obtainable_sequence)
    (hitem Comparing.obtainable_elements) (Comparing.expands_singleton Comparing.expands_sequence)
    (Comparing.expands_singleton (Comparing.expands_elements _))
  have hrun : Eval.applyBinary (Eval.nested D) .equal (.array [.sequence Collecting.sequence])
      (.array [.array Collecting.elements]) .start .small (Collecting.machine "" 0) =
      .ok (.ofBool false) (Collecting.machine "" 0) := by
    rw [Eval.applyBinary_equal]
    rfl
  have hresult := ((endsAt_of_ok hrun).1 (hends D (Nat.le_refl D))).1
  have heq : (Value.array [.array Collecting.elements]).looseEq
      (.array [.array Collecting.elements]) = true := by decide
  rw [heq] at hresult
  exact absurd (Value.number.inj (Except.ok.inj hresult)) (by decide)

end Terse
