import Mathlib.Data.Nat.Prime.Int
import Terse.Proofs.Rational

/-!
# Keeping leading digits

`keepDigits` replaces a number by one with fewer digits.  Two facts say how close it stays, for any
sign and any scale:

* The relative error is at most `roundoff digits`, one unit of the last digit that is kept
  (`abs_keepDigits_sub_le`).
* A value that has no more significant digits stays as it is, however many trailing zeros its
  representation has (`keepDigits_of_fits`).

`FitsDigits digits` holds of the values with at most that many significant digits.  A power of a
value never has fewer significant digits than the powers before it (`FitsDigits.pow_of_le`).

What happens to a coefficient is `kept`: the last digits are cut off, and one is added if they are
half a unit or more.  This is a fact about integers, and the scale only says in which unit it is
meant (`toRat_keepDigits`).  Two representations of one value differ by zeros at the end of the
coefficient (`eq_mul_pow_of_le`), so a coefficient that is longer than the value needs ends in zeros
(`pow_dvd_of_fits`), and cutting these off is exact.
-/

namespace Terse.Decimal

/-! ## The relative error -/

/-- The largest relative error of keeping some leading digits. -/
def roundoff (digits : ℕ) : ℚ := 10 ^ (1 - (digits : ℤ))

theorem roundoff_pos (digits : ℕ) : 0 < roundoff digits := ten_zpow_pos _

theorem roundoff_lt_one {digits : ℕ} (h : 1 < digits) : roundoff digits < 1 := by
  apply zpow_lt_one_of_neg₀ (by norm_num)
  omega

/-- The digits that are kept of a coefficient, with the carry from those that are cut off. -/
def kept (c unit : ℤ) : ℤ := c.tdiv unit + if unit ≤ 2 * c.tmod unit then 1 else 0

/-- What is cut off, and what is added for it, is less than a unit of the last digit kept. -/
theorem abs_kept_sub_lt (c : ℤ) {unit : ℤ} (hunit : 0 < unit) :
    |kept c unit * unit - c| < unit := by
  have hsum := Int.tdiv_mul_add_tmod c unit
  have hlow := Int.lt_tmod_of_pos c hunit
  have hhigh := Int.tmod_lt_of_pos c hunit
  rw [kept, abs_lt]
  split
  · constructor <;> linarith
  · constructor <;> linarith

/-- Digits that are all zero are cut off without a trace. -/
theorem kept_of_dvd {c unit : ℤ} (hunit : 0 < unit) (h : unit ∣ c) : kept c unit * unit = c := by
  have hrest : c.tmod unit = 0 := Int.tmod_eq_zero_of_dvd h
  rw [kept, hrest, if_neg (by omega), add_zero]
  exact Int.tdiv_mul_cancel h

theorem keepDigits_of_lt {digits : ℕ} {d : Decimal} (h : digits < d.digitCount) :
    d.keepDigits digits = ⟨kept d.coefficient (10 ^ (d.digitCount - digits)),
      d.scale - (d.digitCount - digits : ℕ)⟩ := by
  have hunit : ((Digits.weight 10 (d.digitCount - digits) : ℕ) : ℤ) =
      10 ^ (d.digitCount - digits) := by
    show ((10 ^ (d.digitCount - digits) : ℕ) : ℤ) = _
    push_cast
    rfl
  simp only [keepDigits, if_pos h, hunit]
  rfl

/-- The value of a number that is cut, at the scale that it had. -/
theorem toRat_keepDigits {digits : ℕ} {d : Decimal} (h : digits < d.digitCount) :
    (d.keepDigits digits).toRat =
      ((kept d.coefficient (10 ^ (d.digitCount - digits)) * 10 ^ (d.digitCount - digits) : ℤ) : ℚ) *
        10 ^ (-d.scale) := by
  have hexponent : -(d.scale - ((d.digitCount - digits : ℕ) : ℤ)) =
      ((d.digitCount - digits : ℕ) : ℤ) + -d.scale := by omega
  rw [keepDigits_of_lt h, toRat, hexponent, zpow_add₀ (by norm_num), zpow_natCast]
  push_cast
  ring

/-- A number stays within its roundoff when leading digits are kept. -/
theorem abs_keepDigits_sub_le {digits : ℕ} (hdigits : 0 < digits) (d : Decimal) :
    |(d.keepDigits digits).toRat - d.toRat| ≤ roundoff digits * |d.toRat| := by
  by_cases hcut : digits < d.digitCount
  · have hsize : d.coefficient.natAbs ≠ 0 := by
      intro hzero
      rw [digitCount, hzero] at hcut
      have hone : Digits.decimalLength 0 = 1 := rfl
      omega
    have herror := abs_kept_sub_lt d.coefficient
      (by positivity : (0 : ℤ) < 10 ^ (d.digitCount - digits))
    have hleading := Digits.pow_decimalLength_le hsize
    rw [toRat_keepDigits hcut, abs_toRat, toRat, ← sub_mul, abs_mul, abs_of_pos (ten_zpow_pos _),
      ← mul_assoc]
    apply mul_le_mul_of_nonneg_right _ (ten_zpow_pos _).le
    -- The unit of the last digit kept, in relation to the leading digit of the number.
    calc |((kept d.coefficient (10 ^ (d.digitCount - digits)) *
            10 ^ (d.digitCount - digits) : ℤ) : ℚ) - d.coefficient|
        ≤ 10 ^ (d.digitCount - digits) := by exact_mod_cast herror.le
      _ = roundoff digits * 10 ^ (d.digitCount - 1) := by
        rw [roundoff, ← zpow_natCast, ← zpow_natCast, ← zpow_add₀ (by norm_num)]
        congr 1
        omega
      _ ≤ roundoff digits * d.coefficient.natAbs := by
        apply mul_le_mul_of_nonneg_left _ (roundoff_pos digits).le
        exact_mod_cast hleading
  · rw [keepDigits, if_neg hcut, sub_self, abs_zero]
    exact mul_nonneg (roundoff_pos digits).le (abs_nonneg _)

/-! ## Values with few significant digits -/

/-- A value has at most some number of significant digits. -/
def FitsDigits (digits : ℕ) (x : ℚ) : Prop := ∃ c e : ℤ, |c| < 10 ^ digits ∧ x = c * 10 ^ e

/-- The coefficient of a value at the smaller of two exponents has the more trailing zeros. -/
theorem eq_mul_pow_of_le {c c' e e' : ℤ} (h : (c : ℚ) * 10 ^ e = c' * 10 ^ e') (hle : e ≤ e') :
    c = c' * 10 ^ (e' - e).toNat := by
  have hexponent : e' = ((e' - e).toNat : ℤ) + e := by omega
  rw [hexponent, zpow_add₀ (by norm_num), zpow_natCast, ← mul_assoc] at h
  have hcancel := mul_right_cancel₀ (ten_zpow_pos e).ne' h
  exact_mod_cast hcancel

theorem abs_le_abs_mul_pow (c : ℤ) (zeros : ℕ) : |c| ≤ |c * 10 ^ zeros| := by
  have hone : (1 : ℤ) ≤ 10 ^ zeros := one_le_pow₀ (by norm_num)
  rw [abs_mul, abs_of_nonneg (by positivity : (0 : ℤ) ≤ 10 ^ zeros)]
  exact le_mul_of_one_le_right (abs_nonneg c) hone

/-- A coefficient without trailing zeros has the significant digits of its value. -/
theorem abs_lt_of_fits {digits : ℕ} {c e : ℤ} (hdvd : ¬ 10 ∣ c)
    (h : FitsDigits digits (c * 10 ^ e)) : |c| < 10 ^ digits := by
  obtain ⟨c', e', hc', hvalue⟩ := h
  rcases le_or_gt e' e with hle | hlt
  · rw [eq_mul_pow_of_le hvalue.symm hle] at hc'
    exact (abs_le_abs_mul_pow c _).trans_lt hc'
  · have hne : (e' - e).toNat ≠ 0 := by omega
    apply absurd _ hdvd
    rw [eq_mul_pow_of_le hvalue hlt.le]
    exact Dvd.dvd.mul_left (dvd_pow_self 10 hne) c'

/-- If a value has few significant digits, the other digits of its coefficient are zeros. -/
theorem pow_dvd_of_fits {digits : ℕ} {d : Decimal} (h : FitsDigits digits d.toRat)
    (hcut : digits < d.digitCount) : (10 : ℤ) ^ (d.digitCount - digits) ∣ d.coefficient := by
  by_cases hzero : d.coefficient = 0
  · rw [hzero]
    exact dvd_zero _
  have hleading : (10 : ℤ) ^ (d.digitCount - 1) ≤ |d.coefficient| := by
    rw [Int.abs_eq_natAbs]
    exact_mod_cast Digits.pow_decimalLength_le (Int.natAbs_ne_zero.2 hzero)
  obtain ⟨c, e, hc, hvalue⟩ := h
  rw [toRat] at hvalue
  -- The coefficient is the short one with zeros behind it, or the other way around.
  rcases le_or_gt (-d.scale) e with hle | hlt
  · have hcoefficient := eq_mul_pow_of_le hvalue hle
    set zeros := (e - -d.scale).toNat
    have hlength : (10 : ℤ) ^ (d.digitCount - 1) < 10 ^ (digits + zeros) := by
      calc (10 : ℤ) ^ (d.digitCount - 1) ≤ |d.coefficient| := hleading
        _ = |c| * 10 ^ zeros := by
          rw [hcoefficient, abs_mul, abs_of_nonneg (by positivity : (0 : ℤ) ≤ 10 ^ zeros)]
        _ < 10 ^ digits * 10 ^ zeros := mul_lt_mul_of_pos_right hc (by positivity)
        _ = 10 ^ (digits + zeros) := (pow_add 10 digits zeros).symm
    have hzeros : d.digitCount - 1 < digits + zeros :=
      (pow_lt_pow_iff_right₀ (by norm_num)).1 hlength
    rw [hcoefficient]
    exact Dvd.dvd.mul_left (pow_dvd_pow 10 (by omega)) c
  · -- Here the coefficient is too short to be cut.
    have hshort : |d.coefficient| < 10 ^ digits := by
      rw [eq_mul_pow_of_le hvalue.symm hlt.le] at hc
      exact (abs_le_abs_mul_pow _ _).trans_lt hc
    have hlong : (10 : ℤ) ^ digits ≤ 10 ^ (d.digitCount - 1) :=
      pow_le_pow_right₀ (by norm_num) (by omega)
    omega

/-- A value with few significant digits is kept as it is. -/
theorem keepDigits_of_fits {digits : ℕ} {d : Decimal} (h : FitsDigits digits d.toRat) :
    (d.keepDigits digits).toRat = d.toRat := by
  by_cases hcut : digits < d.digitCount
  · rw [toRat_keepDigits hcut, kept_of_dvd (by positivity) (pow_dvd_of_fits h hcut), toRat]
  · rw [keepDigits, if_neg hcut]

theorem not_ten_dvd_pow {c : ℤ} (h : ¬ 10 ∣ c) (n : ℕ) : ¬ 10 ∣ c ^ n := by
  intro hdvd
  have htwo : (2 : ℤ) ∣ c := Int.prime_two.dvd_of_dvd_pow (dvd_trans (by norm_num) hdvd)
  have hfive : (5 : ℤ) ∣ c := by
    apply Prime.dvd_of_dvd_pow (Nat.prime_iff_prime_int.1 Nat.prime_five)
    exact dvd_trans (by norm_num) hdvd
  omega

/-- The powers up to one with few significant digits have few significant digits: without trailing
zeros, coefficients of powers only grow. -/
theorem FitsDigits.pow_of_le {digits n k : ℕ} {d : Decimal} (hdigits : 0 < digits)
    (h : FitsDigits digits (d.toRat ^ n)) (hk : k ≤ n) : FitsDigits digits (d.toRat ^ k) := by
  have hpower : ∀ m : ℕ, d.toRat ^ m =
      ((d.normalize.coefficient ^ m : ℤ) : ℚ) * 10 ^ (-d.normalize.scale * m) := by
    intro m
    rw [← d.toRat_normalize, toRat, mul_pow, zpow_mul, zpow_natCast]
    push_cast
    rfl
  refine ⟨d.normalize.coefficient ^ k, -d.normalize.scale * k, ?_, hpower k⟩
  -- Without trailing zeros, the coefficient of a power has as many digits as the power needs.
  rcases d.reduced_normalize with hzero | hdvd
  · have hone : (1 : ℤ) < 10 ^ digits := one_lt_pow₀ (by norm_num) hdigits.ne'
    rw [hzero, show zero.coefficient = 0 from rfl, abs_pow, abs_zero]
    exact (pow_le_one₀ le_rfl zero_le_one).trans_lt hone
  · have hpos : (1 : ℤ) ≤ |d.normalize.coefficient| := by
      apply Int.one_le_abs
      intro hzero
      exact hdvd (hzero ▸ dvd_zero _)
    calc |d.normalize.coefficient ^ k| = |d.normalize.coefficient| ^ k := abs_pow _ _
      _ ≤ |d.normalize.coefficient| ^ n := pow_le_pow_right₀ hpos hk
      _ = |d.normalize.coefficient ^ n| := (abs_pow _ _).symm
      _ < 10 ^ digits := abs_lt_of_fits (not_ten_dvd_pow hdvd n) (hpower n ▸ h)

end Terse.Decimal
