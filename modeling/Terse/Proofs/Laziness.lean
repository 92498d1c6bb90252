import Terse.Proofs.Reached

/-!
# Laziness cannot be observed

An element of a sequence is produced when it is first asked for.  When that is, and what the program
did before, makes no difference: the element is the same in all machines that a program can reach
and that hold the sequence.  So a program cannot tell whether a sequence was produced as a whole
when it was made, or element by element later.

The machines need not be reached by the same program, nor one from the other.  What they have in
common is the sequence itself: its label, its first elements, its generator and the scope that it
was made in.  The elements that a reached machine has were produced (`Reached.sound`), hence
determined (`SoundFor.lasting`), and then the two requests end alike (`elementAt_alike`).
-/

namespace Terse

open Eval (outcome)

/-- Runs that end alike and do not exceed their depth have the same outcome. -/
theorem Alike.outcome_eq {settings : Settings} {M₁ M₂ : Machine} {α : Type} {x₁ x₂ : Eval α}
    (h : Alike (x₁ settings M₁) (x₂ settings M₂))
    (hfinished₁ : outcome x₁ settings M₁ ≠ .error .exhausted)
    (hfinished₂ : outcome x₂ settings M₂ ≠ .error .exhausted) :
    outcome x₁ settings M₁ = outcome x₂ settings M₂ := by
  unfold outcome at hfinished₁ hfinished₂ ⊢
  generalize x₁ settings M₁ = r₁ at h hfinished₁ ⊢
  generalize x₂ settings M₂ = r₂ at h hfinished₂ ⊢
  cases h with
  | ok a N₁ N₂ => rfl
  | error e N₁ N₂ => rfl
  | exceeds₁ N₁ => exact absurd rfl hfinished₁
  | exceeds₂ _ N₂ => exact absurd rfl hfinished₂

/-- The outcome of asking a sequence for an element, which may be the element, none, or an error,
is the same in any two machines that a program can reach and that hold the sequence: whichever
elements of this or of other sequences were asked for before, in whatever order, and whatever else
was evaluated.  The output has no limit, and both runs stay within their depth. -/
theorem elementAt_independent {settings : Settings} {held₁ held₂ : List Value} {M₁ M₂ : Machine}
    {s : Sequence} (h₁ : Reached settings held₁ M₁) (h₂ : Reached settings held₂ M₂)
    (hs₁ : Obtainable held₁ (.sequence s)) (hs₂ : Obtainable held₂ (.sequence s))
    (hroom₁ : M₁.output.room = none) (hroom₂ : M₂.output.room = none) (d₁ d₂ index : Nat)
    (hfinished₁ : outcome (Eval.elementAt (Eval.nested d₁) s index) settings M₁ ≠
      .error .exhausted)
    (hfinished₂ : outcome (Eval.elementAt (Eval.nested d₂) s index) settings M₂ ≠
      .error .exhausted) :
    outcome (Eval.elementAt (Eval.nested d₁) s index) settings M₁ =
      outcome (Eval.elementAt (Eval.nested d₂) s index) settings M₂ := by
  obtain ⟨hinput, hM₁, hheld₁⟩ := h₁.sound
  obtain ⟨-, hM₂, hheld₂⟩ := h₂.sound
  have hrun₁ : SafeEvaluator (Lasting settings) settings (Eval.nested d₁) :=
    nested_safe hinput d₁ fun k _ => (nested_lockstep hinput k).establishes_lasting
  have halike := elementAt_alike (nested_lockstep hinput d₁) hrun₁ (nested_safe_produced hinput d₂)
    (hM₁.lasting hinput) hM₂ hroom₁ hroom₂ (hs₁ _ hheld₁) (hs₂ _ hheld₂) index
  exact halike.outcome_eq hfinished₁ hfinished₂

/-- Element 1 of a sequence of growing texts is the same when it is produced first and when it is
there already. -/
theorem Growing.elementAt_made_eq_asked :
    outcome (Eval.elementAt (Eval.nested 4) sequence 1) .small made =
      outcome (Eval.elementAt (Eval.nested 5) sequence 1) .small asked := by
  have hmade : outcome (Eval.elementAt (Eval.nested 4) sequence 1) .small made =
      .ok (some (.text "ab")) := by rfl
  have hasked : outcome (Eval.elementAt (Eval.nested 5) sequence 1) .small asked =
      .ok (some (.text "ab")) := by rfl
  exact elementAt_independent reached_made reached_asked (fun _ h => h _ List.mem_cons_self)
    (fun _ h => h _ List.mem_cons_self) rfl rfl 4 5 1 (by rw [hmade]; simp) (by rw [hasked]; simp)

end Terse
