import Terse.Proofs.Nearest
import Terse.Proofs.Powers
import Terse.Proofs.Runs

/-!
# The accuracy of division

A quotient is rounded twice: to the nearest number with `quotientLength` digits when it is computed,
which are a hundred or those of its whole part, and to the precision when it is a result.  The
second rounding is off by less than a unit of the last digit it keeps, and if it cuts off digits, by
a whole number of units of the last digit that was there.  So the half of such a unit that the first
rounding is off by does not matter:

```text
precision         |-------- unit --------|
quotientLength    |--|--|--|--|--|--|--|--|        error  ≤ seven parts and a half
```

With a precision of no more digits than were computed, the result is off by less than a unit of its
last digit.  With a larger precision it is the quotient as it was computed.

## Strategy

* A quotient is computed on the sizes of the coefficients, which are natural numbers.
  `toRat_quotient` and `toRat_div_eq` write the computed and the exact quotient in one unit, so that
  they differ as `nearestQuotient` differs from a fraction.
* `shifted_bounds` says that the zeros behind the dividend make the quotient as long as it is
  wanted, so its unit is known from the decade of the exact quotient (`quotientUnit_eq`).
* `abs_round_sub_add_le` is the argument of the picture.
* That no number with the digits that are computed is closer (`abs_quotient_sub_le_of_fits`) is what
  makes the last part of the result an equivalence: with a larger precision, the quotient is as
  accurate as any number with these digits.
-/

namespace Terse.Decimal

/-! ## The quotient as it is computed -/

/-- The whole quotient of two sizes, with as many zeros behind the dividend as make it not zero. -/
def leadingQuotient (n m : ℕ) : ℕ := n * 10 ^ leadingShift n m / m

/-- The number of zeros that are written behind the dividend in all. -/
def quotientShift (n m : ℕ) : ℕ :=
  leadingShift n m + (quotientDigits - Digits.decimalLength (leadingQuotient n m))

/-- The number of digits that a quotient is computed with. -/
def quotientLength (a b : Decimal) : ℕ :=
  max quotientDigits
    (Digits.decimalLength (leadingQuotient a.coefficient.natAbs b.coefficient.natAbs))

theorem quotientLength_pos (a b : Decimal) : 0 < quotientLength a b :=
  (by decide : 0 < quotientDigits).trans_le (le_max_left _ _)

/-- A whole quotient, with one added if half of the divisor or more is left. -/
def nearestQuotient (n m : ℕ) : ℕ := n / m + if m ≤ 2 * (n % m) then 1 else 0

theorem abs_nearestQuotient_sub_le {n m : ℕ} (hm : 0 < m) :
    |(nearestQuotient n m : ℚ) - n / m| ≤ 1 / 2 := by
  have hm' : (0 : ℚ) < m := by exact_mod_cast hm
  have hsum : (m : ℚ) * (n / m : ℕ) + (n % m : ℕ) = n := by exact_mod_cast Nat.div_add_mod n m
  have hrest : ((n % m : ℕ) : ℚ) < m := by exact_mod_cast Nat.mod_lt n hm
  have hexact : (n : ℚ) / m = (n / m : ℕ) + (n % m : ℕ) / m := by
    rw [← hsum]
    field_simp
  have hnonneg : (0 : ℚ) ≤ (n % m : ℕ) / m := by positivity
  have hone : ((n % m : ℕ) : ℚ) / m < 1 := (div_lt_one hm').2 hrest
  rw [nearestQuotient, hexact, abs_le]
  split
  · rename_i hhalf
    have hhalf : (1 : ℚ) / 2 ≤ (n % m : ℕ) / m := by
      have hhalf : (m : ℚ) ≤ 2 * (n % m : ℕ) := by exact_mod_cast hhalf
      rw [div_le_div_iff₀ two_pos hm']
      linarith
    push_cast
    constructor <;> linarith
  · rename_i hhalf
    have hhalf : ((n % m : ℕ) : ℚ) / m < 1 / 2 := by
      have hhalf : 2 * ((n % m : ℕ) : ℚ) < m := by exact_mod_cast not_le.1 hhalf
      rw [div_lt_div_iff₀ hm' two_pos]
      linarith
    push_cast
    constructor <;> linarith

/-- Behind the shift the whole quotient has the length that is wanted. -/
theorem shifted_bounds {n m : ℕ} (hn : n ≠ 0) (hm : 0 < m) {digits : ℕ}
    (hdigits : digits = max quotientDigits (Digits.decimalLength (leadingQuotient n m))) :
    10 ^ (digits - 1) * m ≤ n * 10 ^ quotientShift n m ∧
      n * 10 ^ quotientShift n m < 10 ^ digits * m := by
  have hpos : leadingQuotient n m ≠ 0 := (shifted_div_pos hn hm 0).ne'
  have hlow : leadingQuotient n m * m ≤ n * 10 ^ leadingShift n m := Nat.div_mul_le_self _ _
  have hhigh : n * 10 ^ leadingShift n m < (leadingQuotient n m + 1) * m := by
    rw [mul_comm _ m]
    exact Nat.lt_mul_div_succ _ hm
  have hshift : n * 10 ^ quotientShift n m = n * 10 ^ leadingShift n m *
      10 ^ (quotientDigits - Digits.decimalLength (leadingQuotient n m)) := by
    rw [quotientShift, pow_add, mul_assoc]
  -- Only the bounds of the leading quotient and its length matter from here on.
  generalize leadingQuotient n m = first at *
  have hlength := Digits.decimalLength_pos first
  have hsum : digits =
      Digits.decimalLength first + (quotientDigits - Digits.decimalLength first) := by omega
  have hsum' : digits - 1 =
      Digits.decimalLength first - 1 + (quotientDigits - Digits.decimalLength first) := by omega
  generalize quotientDigits - Digits.decimalLength first = extra at *
  constructor
  · calc 10 ^ (digits - 1) * m
        = 10 ^ (Digits.decimalLength first - 1) * m * 10 ^ extra := by
          rw [hsum', pow_add]
          ring
      _ ≤ first * m * 10 ^ extra := by
          gcongr
          exact Digits.pow_decimalLength_le hpos
      _ ≤ n * 10 ^ leadingShift n m * 10 ^ extra := Nat.mul_le_mul_right _ hlow
      _ = n * 10 ^ quotientShift n m := hshift.symm
  · calc n * 10 ^ quotientShift n m = n * 10 ^ leadingShift n m * 10 ^ extra := hshift
      _ < (first + 1) * m * 10 ^ extra := Nat.mul_lt_mul_of_pos_right hhigh (by positivity)
      _ ≤ 10 ^ Digits.decimalLength first * m * 10 ^ extra := by
          gcongr
          exact Digits.lt_pow_decimalLength first
      _ = 10 ^ digits * m := by
          rw [hsum, pow_add]
          ring

/-- The unit of the last digit of a quotient as it is computed. -/
def quotientUnit (a b : Decimal) : ℚ :=
  10 ^ (-(a.scale - b.scale + quotientShift a.coefficient.natAbs b.coefficient.natAbs))

section Quotient

variable {a b : Decimal}

/-- By other numbers than one a quotient is computed digit by digit. -/
theorem toRat_quotient (ha : a.toRat ≠ 0) (hone : b.toRat ≠ 1) :
    (a.quotient b).toRat = ((a.coefficient.sign * b.coefficient.sign : ℤ) : ℚ) *
      nearestQuotient (a.coefficient.natAbs * 10 ^
        quotientShift a.coefficient.natAbs b.coefficient.natAbs) b.coefficient.natAbs *
      quotientUnit a b := by
  have hequal : ¬ b.equal Decimal.one = true := by
    rw [equal_iff, toRat_one]
    exact hone
  simp only [quotient, if_neg (mt a.isZero_iff.1 ha), if_neg hequal, toRat, quotientUnit]
  rw [Int.cast_mul]
  rfl

theorem toRat_eq_sign_mul (d : Decimal) :
    d.toRat = d.coefficient.sign * (d.coefficient.natAbs * 10 ^ (-d.scale)) := by
  have hsplit : ((d.coefficient.sign * d.coefficient.natAbs : ℤ) : ℚ) = d.coefficient := by
    rw [Int.sign_mul_natAbs]
  rw [toRat, ← hsplit, Int.cast_mul, mul_assoc]
  rfl

/-- The exact quotient, in the same unit. -/
theorem toRat_div_eq (hb : b.toRat ≠ 0) :
    a.toRat / b.toRat = ((a.coefficient.sign * b.coefficient.sign : ℤ) : ℚ) *
      (((a.coefficient.natAbs * 10 ^ quotientShift a.coefficient.natAbs b.coefficient.natAbs : ℕ)
        : ℚ) / b.coefficient.natAbs) * quotientUnit a b := by
  have hne : b.coefficient ≠ 0 := mt b.toRat_eq_zero_iff.2 hb
  have hsize : (b.coefficient.natAbs : ℚ) ≠ 0 := by exact_mod_cast Int.natAbs_ne_zero.2 hne
  have hsign : (b.coefficient.sign : ℚ) * b.coefficient.sign = 1 := by
    rcases Int.sign_trichotomy b.coefficient with h | h | h
    · rw [h, Int.cast_one, one_mul]
    · exact absurd (Int.sign_eq_zero_iff_zero.1 h) hne
    · rw [h]
      norm_num
  have hten : (10 : ℚ) ≠ 0 := by norm_num
  rw [div_eq_iff hb, toRat_eq_sign_mul a, toRat_eq_sign_mul b, quotientUnit]
  generalize quotientShift a.coefficient.natAbs b.coefficient.natAbs = shift
  have hunit : (10 : ℚ) ^ (-(a.scale - b.scale + shift)) * 10 ^ shift * 10 ^ (-b.scale) =
      10 ^ (-a.scale) := by
    rw [← zpow_natCast, ← zpow_add₀ hten, ← zpow_add₀ hten]
    congr 1
    omega
  rw [← hunit]
  push_cast
  field_simp
  rw [pow_two, hsign]
  ring

theorem abs_sign_mul_sign (ha : a.toRat ≠ 0) (hb : b.toRat ≠ 0) :
    |((a.coefficient.sign * b.coefficient.sign : ℤ) : ℚ)| = 1 := by
  have ha : a.coefficient ≠ 0 := mt a.toRat_eq_zero_iff.2 ha
  have hb : b.coefficient ≠ 0 := mt b.toRat_eq_zero_iff.2 hb
  rw [← Int.cast_abs, abs_mul, Int.abs_sign_of_ne_zero ha, Int.abs_sign_of_ne_zero hb]
  norm_num

theorem quotientUnit_pos (a b : Decimal) : 0 < quotientUnit a b := ten_zpow_pos _

/-- The first rounding is off by half a unit at most. -/
theorem abs_quotient_sub_le (ha : a.toRat ≠ 0) (hb : b.toRat ≠ 0) (hone : b.toRat ≠ 1) :
    |(a.quotient b).toRat - a.toRat / b.toRat| ≤ 1 / 2 * quotientUnit a b := by
  have hsize : 0 < b.coefficient.natAbs := Int.natAbs_pos.2 (mt b.toRat_eq_zero_iff.2 hb)
  rw [toRat_quotient ha hone, toRat_div_eq hb, ← sub_mul, ← mul_sub, abs_mul, abs_mul,
    abs_sign_mul_sign ha hb, one_mul, abs_of_pos (quotientUnit_pos a b)]
  exact mul_le_mul_of_nonneg_right (abs_nearestQuotient_sub_le hsize) (quotientUnit_pos a b).le

/-- The exact quotient lies in the decade of the digits that are computed. -/
theorem abs_div_bounds (ha : a.toRat ≠ 0) (hb : b.toRat ≠ 0) :
    10 ^ (quotientLength a b - 1) * quotientUnit a b ≤ |a.toRat / b.toRat| ∧
      |a.toRat / b.toRat| < 10 ^ quotientLength a b * quotientUnit a b := by
  have hn : a.coefficient.natAbs ≠ 0 := Int.natAbs_ne_zero.2 (mt a.toRat_eq_zero_iff.2 ha)
  have hm : 0 < b.coefficient.natAbs := Int.natAbs_pos.2 (mt b.toRat_eq_zero_iff.2 hb)
  have hm' : (0 : ℚ) < b.coefficient.natAbs := by exact_mod_cast hm
  have hunit := quotientUnit_pos a b
  obtain ⟨hlow, hhigh⟩ := shifted_bounds hn hm (rfl : quotientLength a b = _)
  rw [toRat_div_eq hb, abs_mul, abs_mul, abs_sign_mul_sign ha hb, one_mul, abs_of_pos hunit,
    abs_of_nonneg (by positivity), mul_le_mul_iff_of_pos_right hunit,
    mul_lt_mul_iff_of_pos_right hunit, le_div_iff₀ hm', div_lt_iff₀ hm']
  exact ⟨by exact_mod_cast hlow, by exact_mod_cast hhigh⟩

/-- The digits that are computed are those of the decade of the exact quotient. -/
theorem quotientUnit_eq (ha : a.toRat ≠ 0) (hb : b.toRat ≠ 0) {m : ℤ}
    (hlow : 10 ^ (m - 1) ≤ |a.toRat / b.toRat|) (hhigh : |a.toRat / b.toRat| < 10 ^ m) :
    quotientUnit a b = 10 ^ (m - quotientLength a b) := by
  obtain ⟨hlow', hhigh'⟩ := abs_div_bounds ha hb
  have hpos := quotientLength_pos a b
  have hten : (10 : ℚ) ≠ 0 := by norm_num
  rw [quotientUnit, ← zpow_natCast, ← zpow_add₀ hten] at hlow' hhigh'
  rw [quotientUnit]
  congr 1
  generalize -(a.scale - b.scale + quotientShift a.coefficient.natAbs b.coefficient.natAbs) = e at *
  have hexponent : ((quotientLength a b - 1 : ℕ) : ℤ) + e = quotientLength a b + e - 1 := by omega
  rw [hexponent] at hlow'
  have hdecade := decade_unique hlow hhigh hlow' hhigh'
  omega

/-- A computed quotient is a whole number of units with as many digits, or a power of ten. -/
theorem quotient_eq_units (ha : a.toRat ≠ 0) (hb : b.toRat ≠ 0) (hone : b.toRat ≠ 1) :
    ∃ k : ℤ, (a.quotient b).toRat = k * quotientUnit a b ∧
      10 ^ (quotientLength a b - 1) ≤ |k| ∧ |k| ≤ 10 ^ quotientLength a b := by
  have hn : a.coefficient.natAbs ≠ 0 := Int.natAbs_ne_zero.2 (mt a.toRat_eq_zero_iff.2 ha)
  have hm : 0 < b.coefficient.natAbs := Int.natAbs_pos.2 (mt b.toRat_eq_zero_iff.2 hb)
  have hsign : |a.coefficient.sign * b.coefficient.sign| = 1 := by
    have hsign := abs_sign_mul_sign ha hb
    rw [← Int.cast_abs] at hsign
    exact_mod_cast hsign
  obtain ⟨hlow, hhigh⟩ := shifted_bounds hn hm (rfl : quotientLength a b = _)
  rw [← Nat.le_div_iff_mul_le hm] at hlow
  rw [← Nat.div_lt_iff_lt_mul hm] at hhigh
  refine ⟨_, (toRat_quotient ha hone).trans (congrArg (· * quotientUnit a b)
    (Int.cast_mul _ ((nearestQuotient _ _ : ℕ) : ℤ)).symm), ?_⟩
  rw [abs_mul, hsign, one_mul, Nat.abs_cast, nearestQuotient]
  norm_cast
  constructor
  · exact hlow.trans (Nat.le_add_right _ _)
  · split <;> omega

/-- No whole number of units is closer to the exact quotient than the computed one. -/
theorem abs_quotient_sub_le_units (ha : a.toRat ≠ 0) (hb : b.toRat ≠ 0) (hone : b.toRat ≠ 1)
    (j : ℤ) : |(a.quotient b).toRat - a.toRat / b.toRat| ≤
      |j * quotientUnit a b - a.toRat / b.toRat| := by
  have hunit := quotientUnit_pos a b
  have hhalf := abs_quotient_sub_le ha hb hone
  obtain ⟨k, hk, -, -⟩ := quotient_eq_units ha hb hone
  rw [hk] at hhalf ⊢
  by_cases hjk : j = k
  · rw [hjk]
  · have hapart : quotientUnit a b ≤ |j * quotientUnit a b - k * quotientUnit a b| := by
      have hone : (1 : ℚ) ≤ |(j : ℚ) - k| := by
        exact_mod_cast Int.one_le_abs (sub_ne_zero.2 hjk)
      rw [← sub_mul, abs_mul, abs_of_pos hunit]
      exact le_mul_of_one_le_left hunit.le hone
    have htriangle := abs_sub_le (j * quotientUnit a b) (a.toRat / b.toRat) (k * quotientUnit a b)
    rw [abs_sub_comm (a.toRat / b.toRat)] at htriangle
    linarith

/-- No number with as many significant digits is closer to the exact quotient either: one with a
smaller unit is closer to zero than the decade of the quotient. -/
theorem abs_quotient_sub_le_of_fits (ha : a.toRat ≠ 0) (hb : b.toRat ≠ 0) (hone : b.toRat ≠ 1)
    {y : ℚ} (hy : FitsDigits (quotientLength a b) y) :
    |(a.quotient b).toRat - a.toRat / b.toRat| ≤ |y - a.toRat / b.toRat| := by
  obtain ⟨c, e, hc, rfl⟩ := hy
  obtain ⟨f, hf⟩ : ∃ f : ℤ, quotientUnit a b = 10 ^ f := ⟨_, rfl⟩
  have hten : (10 : ℚ) ≠ 0 := by norm_num
  -- With a unit as large it is a whole number of units; with a smaller one it is at the near end of
  -- the decade or beyond.
  rcases le_or_gt f e with hle | hlt
  · have hunits : (c : ℚ) * 10 ^ e = ((c * 10 ^ (e - f).toNat : ℤ) : ℚ) * quotientUnit a b := by
      have hexponent : e = ((e - f).toNat : ℤ) + f := by omega
      rw [hf]
      nth_rewrite 1 [hexponent]
      rw [zpow_add₀ hten, zpow_natCast]
      push_cast
      ring
    rw [hunits]
    exact abs_quotient_sub_le_units ha hb hone _
  · set x := a.toRat / b.toRat
    have hbelow : |(c : ℚ) * 10 ^ e| ≤ 10 ^ (quotientLength a b - 1) * quotientUnit a b := by
      have hpos := quotientLength_pos a b
      have hc : |(c : ℚ)| ≤ 10 ^ quotientLength a b := by exact_mod_cast hc.le
      calc |(c : ℚ) * 10 ^ e| = |(c : ℚ)| * 10 ^ e := by rw [abs_mul, abs_of_pos (ten_zpow_pos e)]
        _ ≤ 10 ^ quotientLength a b * 10 ^ (f - 1) :=
          mul_le_mul hc (zpow_le_zpow_right₀ (by norm_num) (by omega)) (ten_zpow_pos e).le
            (by positivity)
        _ = 10 ^ (quotientLength a b - 1) * quotientUnit a b := by
          rw [hf, ← zpow_natCast, ← zpow_natCast, ← zpow_add₀ hten, ← zpow_add₀ hten]
          congr 1
          omega
    have hdecade : 10 ^ (quotientLength a b - 1) * quotientUnit a b ≤ |x| :=
      (abs_div_bounds ha hb).1
    rcases le_total 0 x with hx | hx
    · have hend := abs_quotient_sub_le_units ha hb hone (10 ^ (quotientLength a b - 1))
      push_cast at hend
      rw [abs_of_nonneg hx] at hdecade
      calc _ ≤ |10 ^ (quotientLength a b - 1) * quotientUnit a b - x| := hend
        _ = x - 10 ^ (quotientLength a b - 1) * quotientUnit a b := by
          rw [abs_of_nonpos (by linarith)]
          ring
        _ ≤ x - c * 10 ^ e := by linarith [(abs_le.1 hbelow).2]
        _ ≤ |c * 10 ^ e - x| := by
          rw [abs_sub_comm]
          exact le_abs_self _
    · have hend := abs_quotient_sub_le_units ha hb hone (-10 ^ (quotientLength a b - 1))
      push_cast at hend
      rw [abs_of_nonpos hx] at hdecade
      calc _ ≤ |-10 ^ (quotientLength a b - 1) * quotientUnit a b - x| := hend
        _ = -10 ^ (quotientLength a b - 1) * quotientUnit a b - x := by
          rw [abs_of_nonneg (by linarith)]
        _ ≤ c * 10 ^ e - x := by linarith [(abs_le.1 hbelow).1]
        _ ≤ |c * 10 ^ e - x| := le_abs_self _

end Quotient

/-! ## Rounding a quotient -/

/-- If rounding cuts off digits, it is off by a whole number of units of the last one, so it is off
by at least that unit less than by the unit of the last digit that it keeps. -/
theorem abs_round_sub_add_le {d : Decimal} {k e : ℤ} (hvalue : d.toRat = k * 10 ^ e)
    (hne : d.toRat ≠ 0) {precision : ℕ} (he : e ≤ d.magnitude - (max precision 1 : ℕ)) :
    |(d.round precision).toRat - d.toRat| + 10 ^ e ≤ unitOf (max precision 1) d := by
  have herror := abs_round_sub_lt hne precision
  have hunit : unitOf (max precision 1) d =
      (10 ^ (d.magnitude - (max precision 1 : ℕ) - e).toNat : ℤ) * 10 ^ e := by
    rw [unitOf]
    generalize d.magnitude - (max precision 1 : ℕ) = f at *
    have hexponent : f = ((f - e).toNat : ℤ) + e := by omega
    nth_rewrite 1 [hexponent]
    rw [zpow_add₀ (by norm_num), zpow_natCast]
    push_cast
    rfl
  generalize (d.magnitude - (max precision 1 : ℕ) - e).toNat = zeros at hunit
  rw [toRat_round hne] at herror ⊢
  generalize wholeUnits (d.toRat / unitOf (max precision 1) d) = w at *
  rw [hunit, hvalue] at *
  -- The difference is a whole number of small units, and less than the large unit.
  have hwhole : (w : ℚ) * ((10 ^ zeros : ℤ) * 10 ^ e) - k * 10 ^ e =
      ((w * 10 ^ zeros - k : ℤ) : ℚ) * 10 ^ e := by
    push_cast
    ring
  have hpos := ten_zpow_pos e
  rw [hwhole, abs_mul, abs_of_pos hpos, ← Int.cast_abs] at herror ⊢
  rw [mul_lt_mul_iff_of_pos_right hpos, Int.cast_lt] at herror
  calc ((|w * 10 ^ zeros - k| : ℤ) : ℚ) * 10 ^ e + 10 ^ e
      = ((|w * 10 ^ zeros - k| + 1 : ℤ) : ℚ) * 10 ^ e := by
        push_cast
        ring
    _ ≤ ((10 ^ zeros : ℤ) : ℚ) * 10 ^ e := by
        apply mul_le_mul_of_nonneg_right _ hpos.le
        exact_mod_cast herror

section Precision

variable {a b : Decimal} {precision : ℕ} {m : ℤ}

theorem quotient_of_one (hb : b.toRat = 1) : (a.quotient b).toRat = a.toRat := by
  have hequal : b.equal Decimal.one = true := by rw [equal_iff, toRat_one, hb]
  unfold quotient
  split
  · rename_i hzero
    rw [toRat_zero, a.isZero_iff.1 hzero]
  · rfl

theorem fits_quotient (ha : a.toRat ≠ 0) (hb : b.toRat ≠ 0) (hone : b.toRat ≠ 1) :
    FitsDigits (quotientLength a b) (a.quotient b).toRat := by
  obtain ⟨k, hk, -, hle⟩ := quotient_eq_units ha hb hone
  rw [hk]
  exact fits_of_abs_le (quotientLength_pos a b) hle _

/-- With no more digits than were computed, the second rounding makes up for the first. -/
theorem abs_round_quotient_sub_lt (ha : a.toRat ≠ 0) (hb : b.toRat ≠ 0) (hone : b.toRat ≠ 1)
    (hprecision : 1 ≤ precision) (hle : precision ≤ quotientLength a b)
    (hlow : 10 ^ (m - 1) ≤ |a.toRat / b.toRat|) (hhigh : |a.toRat / b.toRat| < 10 ^ m) :
    |((a.quotient b).round precision).toRat - a.toRat / b.toRat| < 10 ^ (m - precision) := by
  have hpos := ten_zpow_pos (m - quotientLength a b)
  have hlength := quotientLength_pos a b
  have hhalf := abs_quotient_sub_le ha hb hone
  obtain ⟨k, hk, hlong, hshort⟩ := quotient_eq_units ha hb hone
  rw [quotientUnit_eq ha hb hlow hhigh] at hhalf hk
  rcases hshort.eq_or_lt with hcarry | hless
  · -- The computed quotient is a power of ten, which the second rounding leaves as it is.
    have hdigit : FitsDigits 1 (a.quotient b).toRat := hk ▸ fits_of_abs_eq hcarry _
    rw [toRat_round_of_fits (hdigit.mono (le_max_right _ _))]
    calc _ ≤ 1 / 2 * 10 ^ (m - quotientLength a b) := hhalf
      _ < 10 ^ (m - quotientLength a b) := by linarith
      _ ≤ 10 ^ (m - precision) := zpow_le_zpow_right₀ (by norm_num) (by omega)
  · have hmagnitude := magnitude_of_units hlength hk hlong hless
    have hne : (a.quotient b).toRat ≠ 0 := by
      have hk0 : k ≠ 0 := abs_pos.1 ((pow_pos (by norm_num) _).trans_le hlong)
      rw [hk]
      exact mul_ne_zero (Int.cast_ne_zero.2 hk0) hpos.ne'
    have hcut : |((a.quotient b).round precision).toRat - (a.quotient b).toRat| +
        10 ^ (m - quotientLength a b) ≤ unitOf (max precision 1) (a.quotient b) :=
      abs_round_sub_add_le hk hne (by omega)
    have hunit : unitOf (max precision 1) (a.quotient b) = 10 ^ (m - precision) := by
      rw [unitOf, hmagnitude, max_eq_left hprecision, add_sub_cancel]
    have htriangle := abs_sub_le ((a.quotient b).round precision).toRat (a.quotient b).toRat
      (a.toRat / b.toRat)
    linarith

/-- With more digits than were computed, the second rounding does nothing. -/
theorem toRat_round_quotient (ha : a.toRat ≠ 0) (hb : b.toRat ≠ 0) (hone : b.toRat ≠ 1)
    (hle : quotientLength a b ≤ precision) :
    ((a.quotient b).round precision).toRat = (a.quotient b).toRat :=
  toRat_round_of_fits ((fits_quotient ha hb hone).mono (hle.trans (le_max_left _ _)))

end Precision

/-- A number within the exponent range that is not zero is as it was. -/
theorem eq_of_bounded {d q : Decimal} (h : d.bounded = .ok q) (hq : q.toRat ≠ 0) : q = d := by
  unfold bounded at h
  split at h
  · cases h
  split at h
  · obtain rfl := Except.ok.inj h
    exact absurd toRat_zero hq
  · exact (Except.ok.inj h).symm

end Terse.Decimal

/-! ## Main results -/

namespace Terse.Eval

open Decimal

variable {run : Evaluator} {position : Position} {settings : Settings} {M M' : Machine}

@[simp] theorem toNumber_number (n : Decimal) : toNumber run (.number n) position = pure n := by
  funext settings M
  show numberWithin run position settings.depth (.number n) settings M = _
  rw [numberWithin]

/-- Division of two numbers computes the quotient and rounds it. -/
theorem applyBinary_divide {a b : Decimal} (hb : b.toRat ≠ 0) :
    applyBinary run .divide (.number a) (.number b) position = number (a.quotient b) position := by
  have hdivide : a.divide b = .ok (a.quotient b) := by
    rw [divide, if_neg (mt b.isZero_iff.1 hb)]
  simp only [applyBinary, toNumber_number, pure_bind, arithmetic, hdivide]
  rfl

/-- A number that is a result and not zero is one that was rounded. -/
theorem eq_round_of_number {d q : Decimal}
    (h : number d position settings M = .ok (.number q) M') (hq : q.toRat ≠ 0) :
    q = d.round settings.precision := by
  rw [number_eq] at h
  cases hbounded : (d.round settings.precision).bounded with
  | error cause =>
      rw [hbounded] at h
      cases h
  | ok n =>
      rw [hbounded] at h
      cases h
      exact eq_of_bounded hbounded hq

/-- A quotient that is not zero has no more digits than the precision.  It is off by less than a
unit of the last digit, of those that the precision asks for and that are computed.  It is off by
less than a unit of the last digit that the precision asks for exactly if all of these are computed,
or the divisor is one, or a number with the digits that are computed is as close. -/
theorem divide_accurate_iff {a b q : Decimal} {m : ℤ} (hprecision : 1 ≤ settings.precision)
    (hb : b.toRat ≠ 0) (hq : q.toRat ≠ 0)
    (hrun : applyBinary run .divide (.number a) (.number b) position settings M =
      .ok (.number q) M')
    (hlow : 10 ^ (m - 1) ≤ |a.toRat / b.toRat|) (hhigh : |a.toRat / b.toRat| < 10 ^ m) :
    q.digitCount ≤ settings.precision ∧
      |q.toRat - a.toRat / b.toRat| <
        10 ^ (m - (min settings.precision (quotientLength a b) : ℕ)) ∧
      (|q.toRat - a.toRat / b.toRat| < 10 ^ (m - settings.precision) ↔
        settings.precision ≤ quotientLength a b ∨ b.toRat = 1 ∨
          ∃ y, FitsDigits (quotientLength a b) y ∧
            |y - a.toRat / b.toRat| < 10 ^ (m - settings.precision)) := by
  have ha : a.toRat ≠ 0 := by
    intro hzero
    rw [hzero, zero_div, abs_zero] at hlow
    exact absurd hlow (not_le.2 (ten_zpow_pos _))
  rw [applyBinary_divide hb] at hrun
  obtain rfl := eq_round_of_number hrun hq
  generalize settings.precision = precision at *
  refine ⟨(digitCount_round_le _ _).trans_eq (max_eq_left hprecision), ?_⟩
  by_cases hone : b.toRat = 1
  · -- The quotient by one is the dividend.
    have herror : |((a.quotient b).round precision).toRat - a.toRat / b.toRat| <
        10 ^ (m - precision) := by
      rw [hone, div_one] at hlow hhigh ⊢
      have hmagnitude := magnitude_eq_of_bounds hlow hhigh
      have hround := abs_round_sub_lt ha precision
      rw [unitOf, hmagnitude, max_eq_left hprecision] at hround
      rwa [round_congr (quotient_of_one hone)]
    refine ⟨herror.trans_le (zpow_le_zpow_right₀ (by norm_num) (by omega)), ?_⟩
    exact iff_of_true herror (.inr (.inl hone))
  rcases le_or_gt precision (quotientLength a b) with hle | hgt
  · have herror := abs_round_quotient_sub_lt ha hb hone hprecision hle hlow hhigh
    rw [min_eq_left hle]
    exact ⟨herror, iff_of_true herror (.inl hle)⟩
  · rw [toRat_round_quotient ha hb hone hgt.le, min_eq_right hgt.le]
    constructor
    · have hhalf := abs_quotient_sub_le ha hb hone
      have hpos := ten_zpow_pos (m - quotientLength a b)
      rw [quotientUnit_eq ha hb hlow hhigh] at hhalf
      linarith
    · rw [or_iff_right (not_le.2 hgt), or_iff_right hone]
      constructor
      · intro hclose
        exact ⟨_, fits_quotient ha hb hone, hclose⟩
      · rintro ⟨y, hy, hclose⟩
        exact (abs_quotient_sub_le_of_fits ha hb hone hy).trans_lt hclose

/-- Settings for a small program with a precision. -/
def atPrecision (precision : ℕ) : Settings := { Settings.small with precision := precision }

/-- With three digits `-2 / 3` is `-0.666`, off by less than a thousandth though the hundred digits
that are computed end in a seven. -/
theorem divide_accurate_thirds :
    1 ≤ (atPrecision 3).precision ∧ (ofInt 3).toRat ≠ 0 ∧ (⟨-666, 3⟩ : Decimal).toRat ≠ 0 ∧
      applyBinary (nested 0) .divide (.number (ofInt (-2))) (.number (ofInt 3)) .start
        (atPrecision 3) .blank = .ok (.number ⟨-666, 3⟩) .blank ∧
      (10 : ℚ) ^ ((0 : ℤ) - 1) ≤ |(ofInt (-2)).toRat / (ofInt 3).toRat| ∧
      |(ofInt (-2)).toRat / (ofInt 3).toRat| < 10 ^ (0 : ℤ) ∧
      3 ≤ quotientLength (ofInt (-2)) (ofInt 3) ∧
      |(⟨-666, 3⟩ : Decimal).toRat - (ofInt (-2)).toRat / (ofInt 3).toRat| <
        10 ^ ((0 : ℤ) - (3 : ℕ)) := by
  have hb : (ofInt 3).toRat ≠ 0 := by norm_num
  have hq : (⟨-666, 3⟩ : Decimal).toRat ≠ 0 := by norm_num [toRat]
  have hrun : applyBinary (nested 0) .divide (.number (ofInt (-2))) (.number (ofInt 3)) .start
      (atPrecision 3) .blank = .ok (.number ⟨-666, 3⟩) .blank := by rfl
  have habs : |(ofInt (-2)).toRat / (ofInt 3).toRat| = 2 / 3 := by norm_num [abs_of_pos]
  have hlow : (10 : ℚ) ^ ((0 : ℤ) - 1) ≤ |(ofInt (-2)).toRat / (ofInt 3).toRat| := by
    rw [habs]
    norm_num
  have hhigh : |(ofInt (-2)).toRat / (ofInt 3).toRat| < 10 ^ (0 : ℤ) := by
    rw [habs]
    norm_num
  have hlength : 3 ≤ quotientLength (ofInt (-2)) (ofInt 3) := by decide
  have haccurate := divide_accurate_iff (by decide) hb hq hrun hlow hhigh
  exact ⟨by decide, hb, hq, hrun, hlow, hhigh, hlength, haccurate.2.2.2 (.inl hlength)⟩

/-- With a precision of 150 digits `1 / 3` still has a hundred of them. -/
theorem divide_hundred_digits :
    applyBinary (nested 0) .divide (.number (ofInt 1)) (.number (ofInt 3)) .start
        (atPrecision 150) .blank = .ok (.number ⟨(10 ^ 100 - 1) / 3, 100⟩) .blank ∧
      (10 : ℚ) ^ ((0 : ℤ) - 1) ≤ |(ofInt 1).toRat / (ofInt 3).toRat| ∧
      |(ofInt 1).toRat / (ofInt 3).toRat| < 10 ^ (0 : ℤ) ∧
      ¬ |(⟨(10 ^ 100 - 1) / 3, 100⟩ : Decimal).toRat - (ofInt 1).toRat / (ofInt 3).toRat| <
        10 ^ ((0 : ℤ) - (150 : ℕ)) := by
  refine ⟨by rfl, by norm_num, by norm_num, ?_⟩
  rw [toRat_ofInt, toRat_ofInt]
  norm_num [toRat, abs_of_neg]

end Terse.Eval
