import Mathlib.Algebra.Order.Ring.Abs
import Mathlib.Data.Sign.Basic
import Terse.Evaluation.Basic
import Terse.Proofs.Rational

/-!
# Remainders

The modulo of two numbers is taken at a common scale: the remainder of a division of coefficients
that cuts the quotient toward zero, and the divisor added once where that remainder has the other
sign.  On values this is the one remainder that is zero or has the sign of the divisor, whatever the
scales and the signs of the operands.

* `IsRemainder` says this of rational numbers, and `IsRemainder.unique` that there is only one such
  remainder: two of them differ by a multiple of the divisor, and by less than the divisor.
* `truncatedRemainder_spec` is about the division that cuts toward zero.  At a common scale the
  coefficients are divided as integers.
* `isRemainder_add` is about the step behind it, which is taken if the signs differ.
-/

namespace Terse.Decimal

/-- A remainder of a division: what is left of `a` behind a whole multiple of `b`, nearer to zero
than `b` is and on the same side. -/
structure IsRemainder (a b r : ℚ) : Prop where
  multiple : ∃ k : ℤ, a - r = k * b
  small : |r| < |b|
  side : r = 0 ∨ SignType.sign r = SignType.sign b

namespace IsRemainder

variable {a b r r' : ℚ}

/-- Measured by the divisor, a remainder lies between nothing and a whole one. -/
theorem bounds (h : IsRemainder a b r) : 0 ≤ r * b ∧ r * b < b * b := by
  have hnonneg : 0 ≤ r * b := by
    rcases h.side with hzero | hsign
    · rw [hzero, zero_mul]
    · rw [← sign_nonneg_iff, sign_mul, hsign, ← sign_mul, sign_nonneg_iff]
      exact mul_self_nonneg b
  have hb : 0 < |b| := (abs_nonneg r).trans_lt h.small
  refine ⟨hnonneg, ?_⟩
  calc r * b = |r| * |b| := by rw [← abs_mul, abs_of_nonneg hnonneg]
    _ < |b| * |b| := mul_lt_mul_of_pos_right h.small hb
    _ = b * b := abs_mul_abs_self b

/-- Two remainders of one division differ by a multiple of the divisor that is less than a whole
one. -/
theorem unique (h : IsRemainder a b r) (h' : IsRemainder a b r') : r = r' := by
  obtain ⟨k, hk⟩ := h.multiple
  obtain ⟨k', hk'⟩ := h'.multiple
  obtain ⟨hlow, hhigh⟩ := h.bounds
  obtain ⟨hlow', hhigh'⟩ := h'.bounds
  have hsquare : 0 < b * b := hlow.trans_lt hhigh
  have hdifference : r - r' = ((k' - k : ℤ) : ℚ) * b := by
    push_cast
    linarith
  have hscaled : ((k' - k : ℤ) : ℚ) * (b * b) = r * b - r' * b := by
    rw [← sub_mul, hdifference, mul_assoc]
  have hlt : ((k' - k : ℤ) : ℚ) < 1 := by
    rw [← mul_lt_mul_iff_left₀ hsquare, hscaled]
    linarith
  have hgt : (-1 : ℚ) < ((k' - k : ℤ) : ℚ) := by
    rw [← mul_lt_mul_iff_left₀ hsquare, hscaled]
    linarith
  have hzero : k' - k = 0 := by
    have hlt' : k' - k < 1 := by exact_mod_cast hlt
    have hgt' : -1 < k' - k := by exact_mod_cast hgt
    omega
  rw [hzero, Int.cast_zero, zero_mul] at hdifference
  linarith

end IsRemainder

/-! ## The remainder that is computed -/

variable {a b : Decimal}

/-- The remainder of a division that cuts the quotient toward zero is nearer to zero than the
divisor is, and differs from the dividend by a whole multiple. -/
theorem truncatedRemainder_spec (hb : b.toRat ≠ 0) :
    (∃ k : ℤ, a.toRat - (a.truncatedRemainder b).toRat = k * b.toRat) ∧
      |(a.truncatedRemainder b).toRat| < |b.toRat| := by
  set scale := max a.scale b.scale
  have ha : a.toRat = a.coefficientAt scale * 10 ^ (-scale) :=
    toRat_eq_coefficientAt (le_max_left _ _)
  have hb' : b.toRat = b.coefficientAt scale * 10 ^ (-scale) :=
    toRat_eq_coefficientAt (le_max_right _ _)
  have hr : (a.truncatedRemainder b).toRat =
      (a.coefficientAt scale).tmod (b.coefficientAt scale) * 10 ^ (-scale) := rfl
  have hdivisor : b.coefficientAt scale ≠ 0 := by
    rintro hzero
    rw [hb', hzero, Int.cast_zero, zero_mul] at hb
    exact hb rfl
  constructor
  · refine ⟨(a.coefficientAt scale).tdiv (b.coefficientAt scale), ?_⟩
    have hsum := Int.tdiv_mul_add_tmod (a.coefficientAt scale) (b.coefficientAt scale)
    have hdifference :
        a.coefficientAt scale - (a.coefficientAt scale).tmod (b.coefficientAt scale) =
          (a.coefficientAt scale).tdiv (b.coefficientAt scale) * b.coefficientAt scale := by
      linarith
    rw [ha, hb', hr, ← sub_mul, ← mul_assoc, ← Int.cast_sub, ← Int.cast_mul, hdifference]
  · have hsmall : |(a.coefficientAt scale).tmod (b.coefficientAt scale)| <
        |b.coefficientAt scale| := by
      rw [Int.abs_eq_natAbs, Int.abs_eq_natAbs, Int.natAbs_tmod]
      exact_mod_cast Nat.mod_lt _ (Int.natAbs_pos.2 hdivisor)
    rw [hr, hb', abs_mul, abs_mul]
    exact mul_lt_mul_of_pos_right (by exact_mod_cast hsmall) (abs_pos.2 (ten_zpow_pos _).ne')

/-- A remainder on the other side of zero comes to the side of the divisor when the divisor is added
to it. -/
theorem isRemainder_add {x y r : ℚ} (hmultiple : ∃ k : ℤ, x - r = k * y) (hsmall : |r| < |y|)
    (hr : r ≠ 0) (hside : SignType.sign r ≠ SignType.sign y) : IsRemainder x y (r + y) := by
  obtain ⟨k, hk⟩ := hmultiple
  have hmultiple' : ∃ k : ℤ, x - (r + y) = k * y := by
    refine ⟨k - 1, ?_⟩
    push_cast
    linarith
  have hy : y ≠ 0 := abs_pos.1 ((abs_nonneg r).trans_lt hsmall)
  -- The signs differ, which leaves two of the four cases.
  rcases lt_or_gt_of_ne hr with hneg | hpos <;> rcases lt_or_gt_of_ne hy with hneg' | hpos'
  · exact absurd ((sign_neg hneg).trans (sign_neg hneg').symm) hside
  · rw [abs_of_neg hneg, abs_of_pos hpos'] at hsmall
    refine ⟨hmultiple', ?_, .inr ?_⟩
    · rw [abs_of_pos hpos', abs_of_pos (by linarith)]
      linarith
    · rw [sign_pos hpos', sign_pos (by linarith)]
  · rw [abs_of_pos hpos, abs_of_neg hneg'] at hsmall
    refine ⟨hmultiple', ?_, .inr ?_⟩
    · rw [abs_of_neg hneg', abs_of_neg (by linarith)]
      linarith
    · rw [sign_neg hneg', sign_neg (by linarith)]
  · exact absurd ((sign_pos hpos).trans (sign_pos hpos').symm) hside

/-- Neither of two numbers is zero: they have one sign if both are negative or none is. -/
theorem sign_eq_iff_isNegative (ha : a.toRat ≠ 0) (hb : b.toRat ≠ 0) :
    SignType.sign a.toRat = SignType.sign b.toRat ↔ a.isNegative = b.isNegative := by
  rw [Bool.eq_iff_iff, isNegative_iff, isNegative_iff]
  rcases lt_or_gt_of_ne ha with hneg | hpos <;> rcases lt_or_gt_of_ne hb with hneg' | hpos'
  · exact iff_of_true ((sign_neg hneg).trans (sign_neg hneg').symm) (iff_of_true hneg hneg')
  · rw [sign_neg hneg, sign_pos hpos']
    exact iff_of_false (by decide) fun h => hpos'.not_gt (h.1 hneg)
  · rw [sign_pos hpos, sign_neg hneg']
    exact iff_of_false (by decide) fun h => hpos.not_gt (h.2 hneg')
  · exact iff_of_true ((sign_pos hpos).trans (sign_pos hpos').symm)
      (iff_of_false hpos.not_gt hpos'.not_gt)

theorem exists_modulo (hb : b.toRat ≠ 0) :
    ∃ r, a.modulo b = .ok r ∧ IsRemainder a.toRat b.toRat r.toRat := by
  obtain ⟨hmultiple, hsmall⟩ := truncatedRemainder_spec (a := a) hb
  set rest := a.truncatedRemainder b with hrest
  rw [modulo, if_neg (mt b.isZero_iff.1 hb), ← hrest]
  by_cases hzero : rest.toRat = 0
  · have hisZero : rest.isZero = true := rest.isZero_iff.2 hzero
    exact ⟨rest, by simp [hisZero], hmultiple, hsmall, .inl hzero⟩
  have hisZero : rest.isZero = false := by
    rw [← Bool.not_eq_true]
    exact mt rest.isZero_iff.1 hzero
  by_cases hsign : rest.isNegative = b.isNegative
  · have hside := (sign_eq_iff_isNegative hzero hb).2 hsign
    exact ⟨rest, by simp [hsign], hmultiple, hsmall, .inr hside⟩
  · refine ⟨rest + b, by simp [hisZero, hsign], ?_⟩
    rw [toRat_add]
    exact isRemainder_add hmultiple hsmall hzero (mt (sign_eq_iff_isNegative hzero hb).1 hsign)

/-- The modulo of two numbers fails for the divisor zero, with an error of arithmetic at the place
of the operation.  For any other divisor it has a result, and the value of the result is the only
remainder that is zero or has the sign of the divisor. -/
theorem modulo_isRemainder_iff (a b : Decimal) :
    (b.toRat = 0 → a.modulo b = .error .moduloByZero ∧
      ∀ position, Eval.ofArithmetic (a.modulo b) position =
        Eval.fail (.arithmetic .moduloByZero position)) ∧
    (b.toRat ≠ 0 → ∃ r, a.modulo b = .ok r ∧
      ∀ x : ℚ, IsRemainder a.toRat b.toRat x ↔ x = r.toRat) := by
  constructor
  · intro hb
    have hmodulo : a.modulo b = .error .moduloByZero := by
      rw [modulo, if_pos (b.isZero_iff.2 hb)]
    refine ⟨hmodulo, fun position => ?_⟩
    rw [hmodulo, Eval.ofArithmetic]
  · intro hb
    obtain ⟨r, hmodulo, hremainder⟩ := exists_modulo (a := a) hb
    refine ⟨r, hmodulo, fun x => ⟨fun hx => hx.unique hremainder, ?_⟩⟩
    rintro rfl
    exact hremainder

-- The divisor -2 is added only to the remainder 1.5 of 3.5, which has the other sign.
example : modulo ⟨-35, 1⟩ (ofInt (-2)) = .ok ⟨-15, 1⟩ ∧
    modulo ⟨35, 1⟩ (ofInt (-2)) = .ok ⟨-5, 1⟩ := by
  decide

end Terse.Decimal
