import Mathlib.Algebra.Order.Field.Power
import Mathlib.Data.Nat.Log
import Mathlib.Tactic.Linarith
import Mathlib.Tactic.Positivity
import Mathlib.Tactic.Ring
import Terse.Decimal.Power

/-!
# Decimal numbers as rational numbers

`toRat` is the value of a decimal number.  What a decimal number does depends on its value, and its
representation only decides how it does it:

* `magnitude` is the exponent of the power of ten just above the value (`magnitude_spec`).
* `compare` orders by value (`compares`), so that `equal` is equality of values (`equal_iff`).
* `normalize` picks one representation of each value (`normalize_eq_iff`).
* `word?` recognizes the integers that are words, whatever their scale (`word?_of_toRat`).

## Strategy

A number with scale `s` is its coefficient times `10 ^ (-s)`.  Two numbers are brought to one scale,
the larger of their own, and then their coefficients are added, subtracted or compared
(`toRat_eq_coefficientAt`).  The scales may be far apart, so `compare` does this only if it has to:
it looks at the signs first and then at the magnitudes.  `compares` has one case for each of these
tests, and the lemmas in front of it say that the earlier ones decide where the signs or the
magnitudes are different.

The number of digits is found without writing them.  The length in base two gives an estimate that
is never too large (`pow_estimate_le`), and a search goes on from there (`lengthFrom_eq`).  Trailing
zeros are cut off in runs of `2 ^ level` zeros, from the longest run to the shortest
(`stripZeros_spec`).
-/

namespace Terse

/-! ## The length of a number -/

namespace Digits

/-- The first estimate of the length is too small: `10 ^ 59 ≤ 2 ^ 196`. -/
theorem pow_estimate_le {n : Nat} (hn : n ≠ 0) : 10 ^ (n.log2 * 59 / 196) ≤ n := by
  set estimate := n.log2 * 59 / 196
  have hestimate : 196 * estimate ≤ 59 * n.log2 := by omega
  have hpower : (10 ^ estimate) ^ 59 ≤ (2 ^ n.log2) ^ 59 := by
    calc (10 ^ estimate) ^ 59 = (10 ^ 59) ^ estimate := by rw [← pow_mul, ← pow_mul, mul_comm]
      _ ≤ (2 ^ 196) ^ estimate := Nat.pow_le_pow_left (by norm_num) _
      _ = 2 ^ (196 * estimate) := (pow_mul 2 196 estimate).symm
      _ ≤ 2 ^ (59 * n.log2) := Nat.pow_le_pow_right (by norm_num) hestimate
      _ = (2 ^ n.log2) ^ 59 := by rw [← pow_mul, mul_comm]
  calc 10 ^ estimate ≤ 2 ^ n.log2 := (Nat.pow_le_pow_iff_left (by norm_num)).1 hpower
    _ ≤ n := Nat.log2_self_le hn

/-- The search finds the length if it starts below and has enough tries. -/
theorem lengthFrom_eq {n tries estimate : Nat} (hn : n ≠ 0) (hlow : estimate ≤ Nat.log 10 n + 1)
    (hhigh : Nat.log 10 n + 1 ≤ estimate + tries) :
    lengthFrom n tries estimate = Nat.log 10 n + 1 := by
  induction tries generalizing estimate with
  | zero =>
      unfold lengthFrom
      omega
  | succ tries ih =>
      -- The search stops at the first power of ten above the number.
      have hweight : n < weight 10 estimate ↔ Nat.log 10 n < estimate :=
        (Nat.log_lt_iff_lt_pow (by norm_num) hn).symm
      unfold lengthFrom
      split
      · rename_i hlt
        have := hweight.1 hlt
        omega
      · rename_i hle
        have := mt hweight.2 hle
        exact ih (by omega) (by omega)

/-- The number of decimal digits, for zero too. -/
theorem decimalLength_eq (n : Nat) : decimalLength n = Nat.log 10 n + 1 := by
  rcases eq_or_ne n 0 with rfl | hn
  · rfl
  have hestimate : n.log2 * 59 / 196 ≤ Nat.log 10 n :=
    Nat.le_log_of_pow_le (by norm_num) (pow_estimate_le hn)
  have hlog : Nat.log 10 n ≤ n.log2 := by
    rw [Nat.log2_eq_log_two]
    exact Nat.log_anti_left (by norm_num) (by norm_num)
  apply lengthFrom_eq hn <;> omega

theorem lt_pow_decimalLength (n : Nat) : n < 10 ^ decimalLength n := by
  rw [decimalLength_eq]
  exact Nat.lt_pow_succ_log_self (by norm_num) n

theorem pow_decimalLength_le {n : Nat} (hn : n ≠ 0) : 10 ^ (decimalLength n - 1) ≤ n := by
  rw [decimalLength_eq, Nat.add_sub_cancel]
  exact Nat.pow_log_le_self 10 hn

theorem decimalLength_pos (n : Nat) : 0 < decimalLength n := by
  rw [decimalLength_eq]
  exact Nat.succ_pos _

/-- All trailing zeros are removed, and only they are. -/
theorem stripZeros_spec (level n : Nat) (hn : ¬ 10 ^ 2 ^ (level + 1) ∣ n) :
    (stripZeros level n).1 * 10 ^ (stripZeros level n).2 = n ∧ ¬ 10 ∣ (stripZeros level n).1 := by
  induction level generalizing n with
  | zero =>
      simp only [zero_add, pow_one] at hn
      unfold stripZeros
      split
      · rename_i hzero
        exact ⟨Nat.div_mul_cancel (Nat.dvd_of_mod_eq_zero hzero), by omega⟩
      · rename_i hne
        exact ⟨Nat.mul_one n, by omega⟩
  | succ level ih =>
      have hrun : weight 10 (weight 2 (level + 1)) = 10 ^ 2 ^ (level + 1) := rfl
      have hsquare : 10 ^ 2 ^ (level + 1 + 1) = 10 ^ 2 ^ (level + 1) * 10 ^ 2 ^ (level + 1) := by
        rw [pow_succ 2 (level + 1), pow_mul, pow_two]
      simp only [stripZeros, hrun]
      split
      -- A run of zeros is cut off; a second one of this length would make a longer run.
      · rename_i hzero
        obtain ⟨m, rfl⟩ := Nat.dvd_of_mod_eq_zero hzero
        have hpos : 0 < 10 ^ 2 ^ (level + 1) := by positivity
        have hm : ¬ 10 ^ 2 ^ (level + 1) ∣ m := by
          intro hdvd
          rw [hsquare] at hn
          exact hn (Nat.mul_dvd_mul_left _ hdvd)
        obtain ⟨hvalue, hstripped⟩ := ih m hm
        rw [Nat.mul_div_cancel_left m hpos]
        refine ⟨?_, hstripped⟩
        show _ * 10 ^ (_ + 2 ^ (level + 1)) = _
        rw [pow_add, ← mul_assoc, hvalue, mul_comm]
      · rename_i hne
        exact ih n fun hdvd => hne (Nat.mod_eq_zero_of_dvd hdvd)

end Digits

namespace Decimal

/-! ## Values -/

/-- The value of a decimal number. -/
def toRat (d : Decimal) : ℚ := d.coefficient * 10 ^ (-d.scale)

theorem ten_zpow_pos (e : ℤ) : (0 : ℚ) < 10 ^ e := zpow_pos (by norm_num) e

@[simp] theorem toRat_ofInt (n : ℤ) : (ofInt n).toRat = n := by
  simp [toRat, ofInt]

@[simp] theorem toRat_zero : zero.toRat = 0 := by
  simp [zero]

@[simp] theorem toRat_one : one.toRat = 1 := by
  simp [one]

@[simp] theorem toRat_mul (a b : Decimal) : (a * b).toRat = a.toRat * b.toRat := by
  show ((a.coefficient * b.coefficient : ℤ) : ℚ) * 10 ^ (-(a.scale + b.scale)) = _
  rw [neg_add, zpow_add₀ (by norm_num), Int.cast_mul, toRat, toRat]
  ring

theorem toRat_eq_zero_iff (d : Decimal) : d.toRat = 0 ↔ d.coefficient = 0 := by
  rw [toRat, mul_eq_zero, Int.cast_eq_zero]
  exact or_iff_left (ten_zpow_pos _).ne'

theorem toRat_neg_iff (d : Decimal) : d.toRat < 0 ↔ d.coefficient < 0 := by
  rw [toRat, ← not_le, mul_nonneg_iff_of_pos_right (ten_zpow_pos _), not_le, Int.cast_lt_zero]

theorem toRat_pos_iff (d : Decimal) : 0 < d.toRat ↔ 0 < d.coefficient := by
  rw [toRat, mul_pos_iff_of_pos_right (ten_zpow_pos _), Int.cast_pos]

theorem isNegative_iff (d : Decimal) : d.isNegative = true ↔ d.toRat < 0 := by
  rw [isNegative, decide_eq_true_iff, toRat_neg_iff]

theorem isZero_iff (d : Decimal) : d.isZero = true ↔ d.toRat = 0 := by
  rw [isZero, beq_iff_eq, toRat_eq_zero_iff]

/-- The same value at a larger scale. -/
theorem toRat_eq_coefficientAt {d : Decimal} {scale : ℤ} (h : d.scale ≤ scale) :
    d.toRat = d.coefficientAt scale * 10 ^ (-scale) := by
  have hscale : -d.scale = ((scale - d.scale).toNat : ℤ) + -scale := by omega
  show (d.coefficient : ℚ) * 10 ^ (-d.scale) =
    ((d.coefficient * (10 ^ (scale - d.scale).toNat : ℕ) : ℤ) : ℚ) * 10 ^ (-scale)
  rw [hscale, zpow_add₀ (by norm_num), zpow_natCast]
  push_cast
  ring

@[simp] theorem toRat_add (a b : Decimal) : (a + b).toRat = a.toRat + b.toRat := by
  rw [toRat_eq_coefficientAt (le_max_left a.scale b.scale),
    toRat_eq_coefficientAt (le_max_right a.scale b.scale), ← add_mul, ← Int.cast_add]
  rfl

@[simp] theorem toRat_sub (a b : Decimal) : (a - b).toRat = a.toRat - b.toRat := by
  rw [toRat_eq_coefficientAt (le_max_left a.scale b.scale),
    toRat_eq_coefficientAt (le_max_right a.scale b.scale), ← sub_mul, ← Int.cast_sub]
  rfl

/-! ## Magnitudes -/

theorem abs_toRat (d : Decimal) : |d.toRat| = d.coefficient.natAbs * 10 ^ (-d.scale) := by
  rw [toRat, abs_mul, abs_of_pos (ten_zpow_pos _), Nat.cast_natAbs, Int.cast_abs]

/-- The magnitude is the exponent of the power of ten just above the value. -/
theorem magnitude_spec {d : Decimal} (h : d.toRat ≠ 0) :
    10 ^ (d.magnitude - 1) ≤ |d.toRat| ∧ |d.toRat| < 10 ^ d.magnitude := by
  have hcoefficient : d.coefficient ≠ 0 := mt d.toRat_eq_zero_iff.2 h
  have hsize : d.coefficient.natAbs ≠ 0 := Int.natAbs_ne_zero.2 hcoefficient
  have hpos := Digits.decimalLength_pos d.coefficient.natAbs
  have hmagnitude : d.magnitude = (d.digitCount : ℤ) - d.scale := by
    rw [magnitude, if_neg]
    exact mt d.isZero_iff.1 h
  rw [abs_toRat, hmagnitude, digitCount]
  constructor
  · have hexponent : ((Digits.decimalLength d.coefficient.natAbs : ℤ) - d.scale - 1) =
        ((Digits.decimalLength d.coefficient.natAbs - 1 : ℕ) : ℤ) + -d.scale := by omega
    rw [hexponent, zpow_add₀ (by norm_num), zpow_natCast]
    gcongr
    exact_mod_cast Digits.pow_decimalLength_le hsize
  · rw [sub_eq_add_neg, zpow_add₀ (by norm_num), zpow_natCast]
    gcongr
    exact_mod_cast Digits.lt_pow_decimalLength d.coefficient.natAbs

/-- A larger magnitude is a larger distance from zero. -/
theorem abs_lt_of_magnitude_lt {a b : Decimal} (ha : a.toRat ≠ 0) (hb : b.toRat ≠ 0)
    (h : a.magnitude < b.magnitude) : |a.toRat| < |b.toRat| := by
  calc |a.toRat| < 10 ^ a.magnitude := (magnitude_spec ha).2
    _ ≤ 10 ^ (b.magnitude - 1) := zpow_le_zpow_right₀ (by norm_num) (by omega)
    _ ≤ |b.toRat| := (magnitude_spec hb).1

/-- The magnitude depends on the value only. -/
theorem magnitude_congr {a b : Decimal} (h : a.toRat = b.toRat) : a.magnitude = b.magnitude := by
  by_cases hzero : a.toRat = 0
  · rw [magnitude, magnitude, if_pos (a.isZero_iff.2 hzero), if_pos (b.isZero_iff.2 (h ▸ hzero))]
  · have hzero' : b.toRat ≠ 0 := h ▸ hzero
    rcases lt_trichotomy a.magnitude b.magnitude with hlt | heq | hgt
    · exact absurd (abs_lt_of_magnitude_lt hzero hzero' hlt) (by rw [h]; exact lt_irrefl _)
    · exact heq
    · exact absurd (abs_lt_of_magnitude_lt hzero' hzero hgt) (by rw [h]; exact lt_irrefl _)

theorem inRange_congr {a b : Decimal} (h : a.toRat = b.toRat) : a.inRange = b.inRange := by
  rw [inRange, inRange, magnitude_congr h]

/-! ## Order -/

/-- Coefficients at one scale are ordered as the values are. -/
theorem compares_coefficients (m n scale : ℤ) :
    (Ord.compare m n).Compares ((m : ℚ) * 10 ^ (-scale)) (n * 10 ^ (-scale)) := by
  have hmono : StrictMono fun coefficient : ℤ => (coefficient : ℚ) * 10 ^ (-scale) :=
    fun _ _ h => mul_lt_mul_of_pos_right (Int.cast_lt.2 h) (ten_zpow_pos _)
  exact hmono.compares.2 ((compare_iff m n).1 rfl)

theorem coefficient_inj {m n scale : ℤ} (h : (m : ℚ) * 10 ^ (-scale) = n * 10 ^ (-scale)) :
    m = n :=
  Int.cast_injective (mul_right_cancel₀ (ten_zpow_pos _).ne' h)

/-- Integers that are known to be different decide if they are ordered as the values are. -/
theorem compares_of_ne {m n : ℤ} {x y : ℚ} (hne : m ≠ n) (hlt : m < n → x < y)
    (hgt : n < m → y < x) : (Ord.compare m n).Compares x y := by
  rcases lt_or_gt_of_ne hne with h | h
  · rw [compare_lt_iff_lt.2 h]
    exact hlt h
  · rw [compare_gt_iff_gt.2 h]
    exact hgt h

theorem lt_of_sign_lt {a b : Decimal} (h : a.coefficient.sign < b.coefficient.sign) :
    a.toRat < b.toRat := by
  rcases lt_trichotomy a.coefficient 0 with ha | ha | ha
  · have hb : 0 ≤ b.coefficient := by
      by_contra hneg
      rw [Int.sign_eq_neg_one_of_neg ha, Int.sign_eq_neg_one_of_neg (not_le.1 hneg)] at h
      exact lt_irrefl _ h
    have hb' : 0 ≤ b.toRat := not_lt.1 (mt b.toRat_neg_iff.1 (not_lt.2 hb))
    exact (a.toRat_neg_iff.2 ha).trans_le hb'
  · rw [ha, Int.sign_zero, Int.sign_pos_iff] at h
    rw [a.toRat_eq_zero_iff.2 ha]
    exact b.toRat_pos_iff.2 h
  · rw [Int.sign_eq_one_of_pos ha] at h
    rcases Int.sign_trichotomy b.coefficient with hb | hb | hb <;> omega

section SameSign

variable {a b : Decimal}

theorem zero_iff_of_sign_eq (h : a.coefficient.sign = b.coefficient.sign) :
    a.toRat = 0 ↔ b.toRat = 0 := by
  rw [toRat_eq_zero_iff, toRat_eq_zero_iff, ← Int.sign_eq_zero_iff_zero, h,
    Int.sign_eq_zero_iff_zero]

theorem neg_iff_of_sign_eq (h : a.coefficient.sign = b.coefficient.sign) :
    a.toRat < 0 ↔ b.toRat < 0 := by
  rw [toRat_neg_iff, toRat_neg_iff, ← Int.sign_eq_neg_one_iff_neg, h, Int.sign_eq_neg_one_iff_neg]

/-- Of two positive numbers, the one of larger magnitude is larger. -/
theorem compares_of_pos (ha : 0 < a.toRat) (hb : 0 < b.toRat) (h : a.magnitude ≠ b.magnitude) :
    (Ord.compare a.magnitude b.magnitude).Compares a.toRat b.toRat := by
  apply compares_of_ne h
  · intro hlt
    have habs := abs_lt_of_magnitude_lt ha.ne' hb.ne' hlt
    rwa [abs_of_pos ha, abs_of_pos hb] at habs
  · intro hgt
    have habs := abs_lt_of_magnitude_lt hb.ne' ha.ne' hgt
    rwa [abs_of_pos ha, abs_of_pos hb] at habs

/-- Of two negative numbers, the one of larger magnitude is smaller. -/
theorem compares_of_neg (ha : a.toRat < 0) (hb : b.toRat < 0) (h : a.magnitude ≠ b.magnitude) :
    (Ord.compare b.magnitude a.magnitude).Compares a.toRat b.toRat := by
  apply compares_of_ne h.symm
  · intro hlt
    have habs := abs_lt_of_magnitude_lt hb.ne ha.ne hlt
    rw [abs_of_neg ha, abs_of_neg hb] at habs
    exact neg_lt_neg_iff.1 habs
  · intro hgt
    have habs := abs_lt_of_magnitude_lt ha.ne hb.ne hgt
    rw [abs_of_neg ha, abs_of_neg hb] at habs
    exact neg_lt_neg_iff.1 habs

end SameSign

/-- Numbers are ordered by value, whatever their scales. -/
theorem compares (a b : Decimal) : (a.compare b).Compares a.toRat b.toRat := by
  unfold Decimal.compare
  split
  -- At one scale the coefficients decide.
  · rename_i hscale
    rw [toRat, toRat, ← hscale]
    exact compares_coefficients _ _ _
  split
  -- Different signs decide, where zero has a sign of its own.
  · rename_i _ hsign
    exact compares_of_ne hsign lt_of_sign_lt lt_of_sign_lt
  split
  -- Different magnitudes decide, the other way round for negative numbers.
  · rename_i _ hsign hmagnitude
    have hsign : a.coefficient.sign = b.coefficient.sign := not_not.1 hsign
    split
    · rename_i hnegative
      have hneg : a.toRat < 0 := a.isNegative_iff.1 hnegative
      exact compares_of_neg hneg ((neg_iff_of_sign_eq hsign).1 hneg) hmagnitude
    · rename_i hnegative
      have hnonneg : ¬ a.toRat < 0 := mt a.isNegative_iff.2 hnegative
      -- Two zeros have one magnitude, so neither number is zero.
      have hne : a.toRat ≠ 0 := by
        intro hzero
        have hzero' : b.toRat = 0 := (zero_iff_of_sign_eq hsign).1 hzero
        exact hmagnitude (magnitude_congr (hzero.trans hzero'.symm))
      have hpos : 0 < a.toRat := lt_of_le_of_ne (not_lt.1 hnonneg) hne.symm
      have hpos' : 0 < b.toRat :=
        lt_of_le_of_ne (not_lt.1 (mt (neg_iff_of_sign_eq hsign).2 hnonneg))
          (Ne.symm (mt (zero_iff_of_sign_eq hsign).2 hne))
      exact compares_of_pos hpos hpos' hmagnitude
  · rw [toRat_eq_coefficientAt (le_max_left a.scale b.scale),
      toRat_eq_coefficientAt (le_max_right a.scale b.scale)]
    exact compares_coefficients _ _ _

/-- Two representations are equal exactly if their values are. -/
theorem equal_iff (a b : Decimal) : a.equal b = true ↔ a.toRat = b.toRat := by
  rw [equal, Ordering.isEq_iff_eq_eq]
  exact (compares a b).eq_eq

/-! ## One representation of each value -/

/-- A representation without trailing zeros. -/
def Reduced (d : Decimal) : Prop := d = zero ∨ ¬ 10 ∣ d.coefficient

/-- There is one representation of each value without trailing zeros. -/
theorem Reduced.eq_of_toRat_eq {a b : Decimal} (ha : a.Reduced) (hb : b.Reduced)
    (h : a.toRat = b.toRat) : a = b := by
  -- At the larger scale, the coefficient of the other number would end with zeros.
  wlog hscale : a.scale ≤ b.scale generalizing a b
  · exact (this hb ha h.symm (by omega)).symm
  rw [toRat_eq_coefficientAt hscale, toRat_eq_coefficientAt (le_refl b.scale)] at h
  have hcoefficients : a.coefficientAt b.scale = b.coefficientAt b.scale :=
    coefficient_inj h
  have hcoefficient : b.coefficient = a.coefficient * (10 ^ (b.scale - a.scale).toNat : ℕ) := by
    rw [coefficientAt, coefficientAt, sub_self] at hcoefficients
    simpa [Digits.weight] using hcoefficients.symm
  rcases hb with rfl | hb
  · have hzero : a.coefficient = 0 := by
      rcases mul_eq_zero.1 hcoefficient.symm with hzero | hpower
      · exact hzero
      · exact absurd hpower (by positivity)
    rcases ha with ha | ha
    · exact ha
    · exact absurd (hzero ▸ dvd_zero _) ha
  · have hexponent : (b.scale - a.scale).toNat = 0 := by
      by_contra hne
      apply hb
      rw [hcoefficient]
      exact Dvd.dvd.mul_left (by exact_mod_cast dvd_pow_self 10 hne) _
    have hsame : b.scale = a.scale := by omega
    rw [hexponent, pow_zero, Nat.cast_one, mul_one] at hcoefficient
    show mk a.coefficient a.scale = b
    rw [← hcoefficient, ← hsame]

/-- Normalizing cuts off trailing zeros, and all of them. -/
theorem normalize_spec {d : Decimal} (h : d.coefficient ≠ 0) :
    ∃ zeros : ℕ, d.coefficient = d.normalize.coefficient * 10 ^ zeros ∧
      d.normalize.scale = d.scale - zeros ∧ ¬ 10 ∣ d.normalize.coefficient := by
  set size := d.coefficient.natAbs with hsize
  have hpos : size ≠ 0 := Int.natAbs_ne_zero.2 h
  set level := (Digits.decimalLength size).log2
  -- There are fewer zeros than digits.
  have hlevel : ¬ 10 ^ 2 ^ (level + 1) ∣ size := by
    apply Nat.not_dvd_of_pos_of_lt (Nat.pos_of_ne_zero hpos)
    calc size < 10 ^ Digits.decimalLength size := Digits.lt_pow_decimalLength size
      _ ≤ 10 ^ 2 ^ (level + 1) :=
        Nat.pow_le_pow_right (by norm_num) (Nat.le_of_lt Nat.lt_log2_self)
  obtain ⟨hvalue, hstripped⟩ := Digits.stripZeros_spec level size hlevel
  have hnormalize : d.normalize = ⟨d.coefficient.sign * (Digits.stripZeros level size).1,
      d.scale - (Digits.stripZeros level size).2⟩ := by
    rw [normalize, if_neg (mt d.isZero_iff.1 (mt d.toRat_eq_zero_iff.1 h))]
  rw [hnormalize]
  generalize Digits.stripZeros level size = parts at *
  refine ⟨parts.2, ?_, rfl, ?_⟩
  · calc d.coefficient = d.coefficient.sign * size := (Int.sign_mul_natAbs d.coefficient).symm
      _ = d.coefficient.sign * parts.1 * 10 ^ parts.2 := by
        rw [mul_assoc, ← hvalue]
        push_cast
        rfl
  · intro hdvd
    rw [← Int.natAbs_dvd_natAbs, Int.natAbs_mul, Int.natAbs_sign_of_ne_zero h, one_mul] at hdvd
    exact hstripped hdvd

theorem toRat_normalize (d : Decimal) : d.normalize.toRat = d.toRat := by
  by_cases h : d.coefficient = 0
  · rw [d.toRat_eq_zero_iff.2 h, normalize, if_pos (d.isZero_iff.2 (d.toRat_eq_zero_iff.2 h)),
      toRat_zero]
  · obtain ⟨zeros, hcoefficient, hscale, -⟩ := normalize_spec h
    have hexponent : -d.normalize.scale = (zeros : ℤ) + -d.scale := by omega
    rw [toRat, toRat, hexponent, zpow_add₀ (by norm_num), zpow_natCast]
    conv_rhs => rw [hcoefficient]
    push_cast
    ring

theorem reduced_normalize (d : Decimal) : d.normalize.Reduced := by
  by_cases h : d.coefficient = 0
  · left
    rw [normalize, if_pos (d.isZero_iff.2 (d.toRat_eq_zero_iff.2 h))]
  · right
    obtain ⟨-, -, -, hdvd⟩ := normalize_spec h
    exact hdvd

/-- Two numbers have one normal form exactly if they have one value. -/
theorem normalize_eq_iff (a b : Decimal) : a.normalize = b.normalize ↔ a.toRat = b.toRat := by
  constructor
  · intro h
    rw [← a.toRat_normalize, ← b.toRat_normalize, h]
  · intro h
    apply a.reduced_normalize.eq_of_toRat_eq b.reduced_normalize
    rw [toRat_normalize, toRat_normalize, h]

/-! ## Whole numbers -/

/-- Behind the decimal point a whole number has zeros only. -/
theorem coefficient_of_whole {d : Decimal} {n : ℤ} (h : d.toRat = n) (hscale : 0 < d.scale) :
    d.coefficient = n * Digits.weight 10 d.scale.toNat := by
  have hinteger : (ofInt n).toRat = (ofInt n).coefficientAt d.scale * 10 ^ (-d.scale) :=
    toRat_eq_coefficientAt hscale.le
  rw [toRat_ofInt, ← h] at hinteger
  have hcoefficient := coefficient_inj hinteger
  simpa [coefficientAt, ofInt] using hcoefficient

theorem isWhole_of_toRat {d : Decimal} {n : ℤ} (h : d.toRat = n) : d.isWhole = true := by
  rw [isWhole, Bool.or_eq_true, decide_eq_true_iff]
  by_cases hscale : d.scale ≤ 0
  · exact .inl hscale
  · right
    rw [coefficient_of_whole h (not_le.1 hscale), Int.mul_emod_left]
    rfl

theorem wholePart_of_toRat {d : Decimal} {n : ℤ} (h : d.toRat = n) : d.wholePart = n := by
  unfold wholePart
  split
  · rename_i hscale
    rw [toRat_eq_coefficientAt hscale, neg_zero, zpow_zero, mul_one] at h
    exact_mod_cast h
  · rename_i hscale
    rw [coefficient_of_whole h (not_le.1 hscale)]
    apply Int.mul_tdiv_cancel
    exact_mod_cast (Nat.pow_pos (by norm_num) : 0 < 10 ^ d.scale.toNat).ne'

/-- A word with a sign is recognized whatever its scale. -/
theorem word?_of_toRat {d : Decimal} {n : ℤ} (h : d.toRat = n)
    (hword : Word.holdsSigned n = true) : d.word? = some n := by
  rw [word?, if_pos (isWhole_of_toRat h)]
  simp only [wholePart_of_toRat h, hword, if_true]

end Decimal

end Terse
