import Mathlib.Data.Rat.Floor
import Terse.Proofs.Rounding

/-!
# Rounding as a function of values

The value of a rounded number is determined by the value of the number.  Measured in units of the
last digit that is kept, rounding takes a value to a whole number, `wholeUnits`: half a unit or more
goes up if the value is positive, and a negative value is cut toward zero (`toRat_round`).

```text
units of the last digit     -2   -1.5   -1   -0.5    0    0.5    1    1.5    2
is rounded to               -2   -1     -1    0      0    1      1    2      2
```

`wholeUnits` is monotone and leaves whole numbers as they are.  Since powers of ten are whole
numbers of units, rounding never leaves a decade: a carry leads to its upper end at most.  So
rounding keeps order also where the unit changes, and it is a projection (`round_projection`).

Scales are words.  A number can be rounded if the scales that it has meanwhile are words
(`Roundable`); numbers within the exponent range can (`roundable_of_inRange`), and so can what
rounding gives (`Roundable.round`).

Positive values are rounded to the nearest whole number of units.  Negative ones are so only if what
is cut off is not more than half a unit, and rounding commutes with negation only if it is less than
half a unit (`round_nearest_iff`).

## Strategy

* `kept` was defined on integers, with division toward zero.  In units of the last digit it is
  `wholeUnits`, a floor or a ceiling (`kept_eq_wholeUnits`), so everything else is about these.
* A power of ten is rounded to itself, if it is not below the unit.  By monotony nothing is rounded
  across it (`le_toRat_round`, `toRat_round_le`), which gives the two ends of a decade for each sign
  (`round_of_pos`, `round_of_neg`).
* Order is kept in one decade because the unit is the same (`round_mono_of_magnitude_eq`), and
  between two decades because a power of ten is in between (`round_mono`).
* A representation without trailing zeros is determined by its value, so equations between rounded
  numbers are shown on values (`round_congr`, `round_round`).
-/

namespace Terse.Decimal

/-! ## Whole numbers of units -/

/-- The whole number of units that a number of units is rounded to. -/
def wholeUnits (x : ℚ) : ℤ := if x < 0 then ⌈x⌉ else ⌊x + 1 / 2⌋

theorem wholeUnits_of_neg {x : ℚ} (h : x < 0) : wholeUnits x = ⌈x⌉ := if_pos h

theorem wholeUnits_of_nonneg {x : ℚ} (h : 0 ≤ x) : wholeUnits x = ⌊x + 1 / 2⌋ :=
  if_neg (not_lt.2 h)

@[simp] theorem wholeUnits_intCast (n : ℤ) : wholeUnits n = n := by
  rcases lt_or_ge (n : ℚ) 0 with h | h
  · rw [wholeUnits_of_neg h, Int.ceil_intCast]
  · rw [wholeUnits_of_nonneg h, Int.floor_eq_iff]
    constructor <;> linarith

theorem wholeUnits_mono {x y : ℚ} (h : x ≤ y) : wholeUnits x ≤ wholeUnits y := by
  rcases lt_or_ge y 0 with hy | hy
  · rw [wholeUnits_of_neg hy, wholeUnits_of_neg (h.trans_lt hy)]
    exact Int.ceil_le_ceil h
  rw [wholeUnits_of_nonneg hy]
  rcases lt_or_ge x 0 with hx | hx
  · rw [wholeUnits_of_neg hx]
    have hlow : ⌈x⌉ ≤ 0 := by
      rw [Int.ceil_le, Int.cast_zero]
      exact hx.le
    have hhigh : 0 ≤ ⌊y + 1 / 2⌋ := Int.floor_nonneg.2 (by linarith)
    omega
  · rw [wholeUnits_of_nonneg hx]
    exact Int.floor_le_floor (by linarith)

/-- A negative number of units is off by what is cut off. -/
theorem wholeUnits_sub_of_neg {x : ℚ} (h : x < 0) : (wholeUnits x : ℚ) - x = Int.fract |x| := by
  rw [wholeUnits_of_neg h, abs_of_neg h, Int.fract, Int.floor_neg]
  push_cast
  ring

theorem abs_wholeUnits_sub_le {x : ℚ} (h : 0 ≤ x) : |(wholeUnits x : ℚ) - x| ≤ 1 / 2 := by
  have hlow := Int.lt_floor_add_one (x + 1 / 2)
  have hhigh := Int.floor_le (x + 1 / 2)
  rw [wholeUnits_of_nonneg h, abs_le]
  constructor <;> linarith

/-- Whole numbers of units are off by less than a unit. -/
theorem abs_wholeUnits_sub_lt (x : ℚ) : |(wholeUnits x : ℚ) - x| < 1 := by
  rcases lt_or_ge x 0 with h | h
  · rw [wholeUnits_sub_of_neg h, abs_of_nonneg (Int.fract_nonneg _)]
    exact Int.fract_lt_one _
  · exact (abs_wholeUnits_sub_le h).trans_lt (by norm_num)

theorem abs_wholeUnits_sub_le_iff {x : ℚ} (h : x ≠ 0) :
    |(wholeUnits x : ℚ) - x| ≤ 1 / 2 ↔ 0 < x ∨ Int.fract |x| ≤ 1 / 2 := by
  rcases lt_or_gt_of_ne h with hneg | hpos
  · rw [wholeUnits_sub_of_neg hneg, abs_of_nonneg (Int.fract_nonneg _),
      or_iff_right (not_lt.2 hneg.le)]
  · exact iff_of_true (abs_wholeUnits_sub_le hpos.le) (.inl hpos)

/-- The next whole number is that above if half a unit or more is left. -/
theorem floor_add_half_eq_iff (x : ℚ) : ⌊x + 1 / 2⌋ = ⌊x⌋ ↔ Int.fract x < 1 / 2 := by
  have hsum := Int.floor_add_fract x
  have hnonneg := Int.fract_nonneg x
  rw [Int.floor_eq_iff]
  constructor
  · rintro ⟨-, hhigh⟩
    linarith
  · intro hfract
    constructor <;> linarith

theorem wholeUnits_neg_iff {x : ℚ} (h : x ≠ 0) :
    wholeUnits (-x) = -wholeUnits x ↔ Int.fract |x| < 1 / 2 := by
  rcases lt_or_gt_of_ne h with hneg | hpos
  · have hpos : 0 < -x := neg_pos.2 hneg
    rw [wholeUnits_of_neg hneg, wholeUnits_of_nonneg hpos.le, abs_of_neg hneg, ← Int.floor_neg]
    exact floor_add_half_eq_iff (-x)
  · have hneg : -x < 0 := neg_lt_zero.2 hpos
    rw [wholeUnits_of_neg hneg, wholeUnits_of_nonneg hpos.le, abs_of_pos hpos, Int.ceil_neg,
      neg_inj, eq_comm]
    exact floor_add_half_eq_iff x

/-! ## The value of a rounded number -/

/-- The digits that are kept of a coefficient are a whole number of units. -/
theorem kept_eq_wholeUnits (c : ℤ) {unit : ℤ} (hunit : 0 < unit) :
    kept c unit = wholeUnits ((c : ℚ) / unit) := by
  have hunit' : (0 : ℚ) < unit := by exact_mod_cast hunit
  have hsum := Int.tdiv_mul_add_tmod c unit
  have hlow := Int.lt_tmod_of_pos c hunit
  have hhigh := Int.tmod_lt_of_pos c hunit
  -- A negative remainder never makes a carry, so a negative number is cut off.
  rcases lt_or_ge c 0 with hneg | hnonneg
  · have hrest : 0 ≤ (-c).tmod unit := Int.tmod_nonneg unit (by omega)
    rw [Int.neg_tmod] at hrest
    have hkept : kept c unit = c.tdiv unit := by
      rw [kept, if_neg (by omega), add_zero]
    rw [wholeUnits_of_neg (div_neg_of_neg_of_pos (by exact_mod_cast hneg) hunit'), hkept, eq_comm,
      Int.ceil_eq_iff, lt_div_iff₀ hunit', div_le_iff₀ hunit']
    constructor
    · have hstrict : (c.tdiv unit - 1) * unit < c := by linarith
      exact_mod_cast hstrict
    · have hle : c ≤ c.tdiv unit * unit := by linarith
      exact_mod_cast hle
  · have hrest : 0 ≤ c.tmod unit := Int.tmod_nonneg unit hnonneg
    -- Doubled, so that half a unit is an integer.
    have hbounds : 2 * (kept c unit * unit) ≤ 2 * c + unit ∧
        2 * c + unit < 2 * ((kept c unit + 1) * unit) := by
      rw [kept]
      split
      · constructor <;> linarith
      · constructor <;> linarith
    have hlow' : 2 * ((kept c unit : ℚ) * unit) ≤ 2 * c + unit := by exact_mod_cast hbounds.1
    have hhigh' : 2 * (c : ℚ) + unit < 2 * ((kept c unit + 1) * unit) := by
      exact_mod_cast hbounds.2
    have hhalf : (c : ℚ) / unit + 1 / 2 = (2 * c + unit) / (2 * unit) := by
      field_simp
    rw [wholeUnits_of_nonneg (div_nonneg (by exact_mod_cast hnonneg) hunit'.le), eq_comm,
      Int.floor_eq_iff, hhalf, le_div_iff₀ (by linarith), div_lt_iff₀ (by linarith)]
    constructor <;> linarith

/-- The unit of the last of some leading digits. -/
def unitOf (digits : ℕ) (d : Decimal) : ℚ := 10 ^ (d.magnitude - digits)

theorem unitOf_pos (digits : ℕ) (d : Decimal) : 0 < unitOf digits d := ten_zpow_pos _

theorem magnitude_of_ne {d : Decimal} (h : d.toRat ≠ 0) : d.magnitude = d.digitCount - d.scale := by
  rw [magnitude, if_neg]
  exact mt d.isZero_iff.1 h

/-- Keeping digits takes a value to a whole number of units of the last one. -/
theorem toRat_keepDigits_eq {digits : ℕ} {d : Decimal} (h : d.toRat ≠ 0) :
    (d.keepDigits digits).toRat = wholeUnits (d.toRat / unitOf digits d) * unitOf digits d := by
  by_cases hcut : digits < d.digitCount
  · have hexponent : d.magnitude - digits = ((d.digitCount - digits : ℕ) : ℤ) + -d.scale := by
      rw [magnitude_of_ne h]
      omega
    have hunit : unitOf digits d = (10 ^ (d.digitCount - digits) : ℤ) * 10 ^ (-d.scale) := by
      rw [unitOf, hexponent, zpow_add₀ (by norm_num), zpow_natCast]
      push_cast
      rfl
    have hunits : d.toRat / unitOf digits d =
        (d.coefficient : ℚ) / (10 ^ (d.digitCount - digits) : ℤ) := by
      rw [hunit, toRat, mul_div_mul_right _ _ (ten_zpow_pos _).ne']
    rw [toRat_keepDigits hcut, kept_eq_wholeUnits _ (by positivity), hunits, hunit]
    push_cast
    ring
  · -- The number is a whole number of units: its digits and some zeros behind them.
    have hexponent : -d.scale = ((digits - d.digitCount : ℕ) : ℤ) + (d.magnitude - digits) := by
      rw [magnitude_of_ne h]
      omega
    have hunits : d.toRat / unitOf digits d =
        ((d.coefficient * 10 ^ (digits - d.digitCount) : ℤ) : ℚ) := by
      rw [div_eq_iff (unitOf_pos digits d).ne', toRat, unitOf, hexponent, zpow_add₀ (by norm_num),
        zpow_natCast]
      push_cast
      ring
    rw [keepDigits, if_neg hcut, hunits, wholeUnits_intCast, ← hunits,
      div_mul_cancel₀ _ (unitOf_pos digits d).ne']

@[simp] theorem round_zero {d : Decimal} (h : d.toRat = 0) (precision : ℕ) :
    d.round precision = zero := by
  rw [round, if_pos (d.isZero_iff.2 h)]

/-- Rounding takes a value to a whole number of units of the last digit that is kept. -/
theorem toRat_round {d : Decimal} (h : d.toRat ≠ 0) (precision : ℕ) :
    (d.round precision).toRat =
      wholeUnits (d.toRat / unitOf (max precision 1) d) * unitOf (max precision 1) d := by
  rw [round, if_neg (mt d.isZero_iff.1 h), toRat_normalize, toRat_keepDigits_eq h]

theorem reduced_round (d : Decimal) (precision : ℕ) : (d.round precision).Reduced := by
  by_cases h : d.toRat = 0
  · rw [round_zero h]
    exact .inl rfl
  · rw [round, if_neg (mt d.isZero_iff.1 h)]
    exact reduced_normalize _

/-- Rounding depends on the value only. -/
theorem round_congr {a b : Decimal} (h : a.toRat = b.toRat) (precision : ℕ) :
    a.round precision = b.round precision := by
  by_cases hzero : a.toRat = 0
  · rw [round_zero hzero, round_zero (h ▸ hzero)]
  · apply (reduced_round a precision).eq_of_toRat_eq (reduced_round b precision)
    rw [toRat_round hzero, toRat_round (h ▸ hzero), unitOf, unitOf, magnitude_congr h, h]

/-- The error of rounding, in units of the last digit that is kept. -/
theorem round_sub_eq {d : Decimal} (h : d.toRat ≠ 0) (precision : ℕ) :
    (d.round precision).toRat - d.toRat =
      (wholeUnits (d.toRat / unitOf (max precision 1) d) - d.toRat / unitOf (max precision 1) d) *
        unitOf (max precision 1) d := by
  have hunits := div_mul_cancel₀ d.toRat (unitOf_pos (max precision 1) d).ne'
  rw [toRat_round h, sub_mul, hunits]

theorem abs_round_sub_lt {d : Decimal} (h : d.toRat ≠ 0) (precision : ℕ) :
    |(d.round precision).toRat - d.toRat| < unitOf (max precision 1) d := by
  have hunit := unitOf_pos (max precision 1) d
  rw [round_sub_eq h, abs_mul, abs_of_pos hunit]
  calc _ < 1 * unitOf (max precision 1) d :=
        mul_lt_mul_of_pos_right (abs_wholeUnits_sub_lt _) hunit
    _ = unitOf (max precision 1) d := one_mul _

/-! ## Decades -/

section Decades

variable {d : Decimal}

/-- A power of ten that is not below the unit is a whole number of units. -/
theorem zpow_div_unitOf (d : Decimal) (digits n : ℕ) :
    (10 : ℚ) ^ (d.magnitude - digits + n) / unitOf digits d = ((10 ^ n : ℤ) : ℚ) := by
  rw [unitOf, zpow_add₀ (by norm_num), zpow_natCast, mul_div_cancel_left₀ _ (ten_zpow_pos _).ne']
  push_cast
  rfl

/-- A value above such a power of ten, with a factor, is rounded to one above it. -/
theorem le_toRat_round (h : d.toRat ≠ 0) (precision n : ℕ) (s : ℤ)
    (hle : s * 10 ^ (d.magnitude - (max precision 1 : ℕ) + n) ≤ d.toRat) :
    s * 10 ^ (d.magnitude - (max precision 1 : ℕ) + n) ≤ (d.round precision).toRat := by
  have hunit := unitOf_pos (max precision 1) d
  have hunits : ((s * 10 ^ n : ℤ) : ℚ) ≤ d.toRat / unitOf (max precision 1) d := by
    rw [le_div_iff₀ hunit, Int.cast_mul, ← zpow_div_unitOf, mul_assoc, div_mul_cancel₀ _ hunit.ne']
    exact hle
  have hwhole := wholeUnits_mono hunits
  rw [wholeUnits_intCast] at hwhole
  rw [toRat_round h, ← div_le_iff₀ hunit, mul_div_assoc, zpow_div_unitOf]
  exact_mod_cast hwhole

/-- A value below such a power of ten, with a factor, is rounded to one below it. -/
theorem toRat_round_le (h : d.toRat ≠ 0) (precision n : ℕ) (s : ℤ)
    (hle : d.toRat ≤ s * 10 ^ (d.magnitude - (max precision 1 : ℕ) + n)) :
    (d.round precision).toRat ≤ s * 10 ^ (d.magnitude - (max precision 1 : ℕ) + n) := by
  have hunit := unitOf_pos (max precision 1) d
  have hunits : d.toRat / unitOf (max precision 1) d ≤ ((s * 10 ^ n : ℤ) : ℚ) := by
    rw [div_le_iff₀ hunit, Int.cast_mul, ← zpow_div_unitOf, mul_assoc, div_mul_cancel₀ _ hunit.ne']
    exact hle
  have hwhole := wholeUnits_mono hunits
  rw [wholeUnits_intCast] at hwhole
  rw [toRat_round h, ← le_div_iff₀ hunit, mul_div_assoc, zpow_div_unitOf]
  exact_mod_cast hwhole

/-- The exponents at the ends of a decade, counted from the unit on. -/
theorem decade_exponents (d : Decimal) (precision : ℕ) :
    d.magnitude - (max precision 1 : ℕ) + (max precision 1 : ℕ) = d.magnitude ∧
      d.magnitude - (max precision 1 : ℕ) + (max precision 1 - 1 : ℕ) = d.magnitude - 1 := by
  omega

/-- A positive value stays in its decade, or becomes the upper end of it. -/
theorem round_of_pos (h : 0 < d.toRat) (precision : ℕ) :
    10 ^ (d.magnitude - 1) ≤ (d.round precision).toRat ∧
      (d.round precision).toRat ≤ 10 ^ d.magnitude := by
  obtain ⟨hlow, hhigh⟩ := magnitude_spec h.ne'
  rw [abs_of_pos h] at hlow hhigh
  obtain ⟨hupper, hlower⟩ := decade_exponents d precision
  constructor
  · have hround := le_toRat_round h.ne' precision (max precision 1 - 1) 1
    rw [hlower, Int.cast_one, one_mul] at hround
    exact hround hlow
  · have hround := toRat_round_le h.ne' precision (max precision 1) 1
    rw [hupper, Int.cast_one, one_mul] at hround
    exact hround hhigh.le

/-- A negative value stays in its decade. -/
theorem round_of_neg (h : d.toRat < 0) (precision : ℕ) :
    -10 ^ d.magnitude ≤ (d.round precision).toRat ∧
      (d.round precision).toRat ≤ -10 ^ (d.magnitude - 1) := by
  obtain ⟨hlow, hhigh⟩ := magnitude_spec h.ne
  rw [abs_of_neg h] at hlow hhigh
  obtain ⟨hupper, hlower⟩ := decade_exponents d precision
  constructor
  · have hround := le_toRat_round h.ne precision (max precision 1) (-1)
    rw [hupper, Int.cast_neg, Int.cast_one, neg_one_mul] at hround
    exact hround (by linarith)
  · have hround := toRat_round_le h.ne precision (max precision 1 - 1) (-1)
    rw [hlower, Int.cast_neg, Int.cast_one, neg_one_mul] at hround
    exact hround (by linarith)

theorem round_nonneg (h : 0 ≤ d.toRat) (precision : ℕ) : 0 ≤ (d.round precision).toRat := by
  rcases h.eq_or_lt with hzero | hpos
  · rw [round_zero hzero.symm, toRat_zero]
  · exact (ten_zpow_pos _).le.trans (round_of_pos hpos precision).1

theorem round_nonpos (h : d.toRat ≤ 0) (precision : ℕ) : (d.round precision).toRat ≤ 0 := by
  rcases h.eq_or_lt with hzero | hneg
  · rw [round_zero hzero, toRat_zero]
  · have hpos := ten_zpow_pos (d.magnitude - 1)
    linarith [(round_of_neg hneg precision).2]

theorem zpow_le_abs_round (h : d.toRat ≠ 0) (precision : ℕ) :
    10 ^ (d.magnitude - 1) ≤ |(d.round precision).toRat| := by
  rcases lt_or_gt_of_ne h with hneg | hpos
  · rw [abs_of_nonpos (round_nonpos hneg.le precision)]
    linarith [(round_of_neg hneg precision).2]
  · rw [abs_of_nonneg (round_nonneg hpos.le precision)]
    exact (round_of_pos hpos precision).1

theorem abs_round_le_zpow (h : d.toRat ≠ 0) (precision : ℕ) :
    |(d.round precision).toRat| ≤ 10 ^ d.magnitude := by
  rcases lt_or_gt_of_ne h with hneg | hpos
  · rw [abs_of_nonpos (round_nonpos hneg.le precision)]
    linarith [(round_of_neg hneg precision).1]
  · rw [abs_of_nonneg (round_nonneg hpos.le precision)]
    exact (round_of_pos hpos precision).2

theorem toRat_round_ne (h : d.toRat ≠ 0) (precision : ℕ) : (d.round precision).toRat ≠ 0 :=
  abs_pos.1 ((ten_zpow_pos _).trans_le (zpow_le_abs_round h precision))

/-- The magnitude stays as it is, or is one more after a carry out of the leading digit. -/
theorem magnitude_round (h : d.toRat ≠ 0) (precision : ℕ) :
    d.magnitude ≤ (d.round precision).magnitude ∧
      (d.round precision).magnitude ≤ d.magnitude + 1 := by
  obtain ⟨hlow, hhigh⟩ := magnitude_spec (toRat_round_ne h precision)
  have hbelow := (zpow_lt_zpow_iff_right₀ (by norm_num)).1
    ((zpow_le_abs_round h precision).trans_lt hhigh)
  have habove := (zpow_le_zpow_iff_right₀ (by norm_num)).1
    (hlow.trans (abs_round_le_zpow h precision))
  omega

end Decades

/-! ## Order -/

section Order

variable {a b : Decimal}

theorem magnitude_le_of_abs_le (ha : a.toRat ≠ 0) (hb : b.toRat ≠ 0) (h : |a.toRat| ≤ |b.toRat|) :
    a.magnitude ≤ b.magnitude := by
  by_contra hlt
  exact absurd (abs_lt_of_magnitude_lt hb ha (not_le.1 hlt)) (not_lt.2 h)

/-- In one decade numbers are rounded to the same unit. -/
theorem round_mono_of_magnitude_eq (ha : a.toRat ≠ 0) (hb : b.toRat ≠ 0)
    (hmagnitude : a.magnitude = b.magnitude) (h : a.toRat ≤ b.toRat) (precision : ℕ) :
    (a.round precision).toRat ≤ (b.round precision).toRat := by
  have hunit : unitOf (max precision 1) a = unitOf (max precision 1) b := by
    rw [unitOf, unitOf, hmagnitude]
  have hpos := unitOf_pos (max precision 1) b
  rw [toRat_round ha, toRat_round hb, hunit]
  apply mul_le_mul_of_nonneg_right _ hpos.le
  exact_mod_cast wholeUnits_mono (div_le_div_of_nonneg_right h hpos.le)

/-- Rounding keeps order: numbers of different decades are separated by a power of ten, which both
of them are rounded to at most. -/
theorem round_mono (h : a.toRat ≤ b.toRat) (precision : ℕ) :
    (a.round precision).toRat ≤ (b.round precision).toRat := by
  -- Between different signs there is zero, which neither number is rounded across.
  rcases le_or_gt a.toRat 0 with ha | ha
  · rcases le_or_gt 0 b.toRat with hb | hb
    · exact (round_nonpos ha precision).trans (round_nonneg hb precision)
    -- Both numbers are negative.
    have ha : a.toRat < 0 := h.trans_lt hb
    have hle : b.magnitude ≤ a.magnitude := by
      apply magnitude_le_of_abs_le hb.ne ha.ne
      rw [abs_of_neg ha, abs_of_neg hb]
      linarith
    rcases hle.eq_or_lt with heq | hlt
    · exact round_mono_of_magnitude_eq ha.ne hb.ne heq.symm h precision
    · have hdecades : (10 : ℚ) ^ b.magnitude ≤ 10 ^ (a.magnitude - 1) :=
        zpow_le_zpow_right₀ (by norm_num) (by omega)
      calc (a.round precision).toRat ≤ -10 ^ (a.magnitude - 1) := (round_of_neg ha precision).2
        _ ≤ -10 ^ b.magnitude := neg_le_neg hdecades
        _ ≤ (b.round precision).toRat := (round_of_neg hb precision).1
  · have hb : 0 < b.toRat := ha.trans_le h
    have hle : a.magnitude ≤ b.magnitude := by
      apply magnitude_le_of_abs_le ha.ne' hb.ne'
      rw [abs_of_pos ha, abs_of_pos hb]
      exact h
    rcases hle.eq_or_lt with heq | hlt
    · exact round_mono_of_magnitude_eq ha.ne' hb.ne' heq h precision
    · calc (a.round precision).toRat ≤ 10 ^ a.magnitude := (round_of_pos ha precision).2
        _ ≤ 10 ^ (b.magnitude - 1) := zpow_le_zpow_right₀ (by norm_num) (by omega)
        _ ≤ (b.round precision).toRat := (round_of_pos hb precision).1

end Order

/-! ## Significant digits -/

theorem abs_wholeUnits_le {x : ℚ} {n : ℤ} (h : |x| ≤ n) : |wholeUnits x| ≤ n := by
  obtain ⟨hlow, hhigh⟩ := abs_le.1 h
  have hlow := wholeUnits_mono (x := ((-n : ℤ) : ℚ)) (y := x) (by push_cast; exact hlow)
  have hhigh := wholeUnits_mono hhigh
  rw [wholeUnits_intCast] at hlow hhigh
  exact abs_le.2 ⟨hlow, hhigh⟩

theorem FitsDigits.mono {digits digits' : ℕ} {x : ℚ} (h : FitsDigits digits x)
    (hle : digits ≤ digits') : FitsDigits digits' x := by
  obtain ⟨c, e, hc, hx⟩ := h
  exact ⟨c, e, hc.trans_le (pow_le_pow_right₀ (by norm_num) hle), hx⟩

/-- A power of ten has one digit. -/
theorem fits_of_abs_eq {digits : ℕ} {c : ℤ} (hc : |c| = 10 ^ digits) (e : ℤ) :
    FitsDigits 1 (c * 10 ^ e) := by
  have hsize : (c : ℚ) = c.sign * 10 ^ digits := by
    have hsign : c = c.sign * 10 ^ digits := by
      rw [← hc, Int.abs_eq_natAbs, Int.sign_mul_natAbs]
    exact_mod_cast hsign
  refine ⟨c.sign, digits + e, ?_, ?_⟩
  · rcases Int.sign_trichotomy c with h | h | h <;> rw [h] <;> decide
  · rw [zpow_add₀ (by norm_num), zpow_natCast, ← mul_assoc, ← hsize]

/-- A whole number of units has few digits, or is a power of ten. -/
theorem fits_of_abs_le {digits : ℕ} (hdigits : 0 < digits) {c : ℤ} (hc : |c| ≤ 10 ^ digits)
    (e : ℤ) : FitsDigits digits (c * 10 ^ e) := by
  rcases hc.lt_or_eq with hlt | heq
  · exact ⟨c, e, hlt, rfl⟩
  · exact (fits_of_abs_eq heq e).mono hdigits

/-- Rounding leaves no more significant digits than it is to keep. -/
theorem fits_round (d : Decimal) (precision : ℕ) :
    FitsDigits (max precision 1) (d.round precision).toRat := by
  by_cases h : d.toRat = 0
  · rw [round_zero h, toRat_zero]
    exact ⟨0, 0, by positivity, by norm_num⟩
  · have hunit := unitOf_pos (max precision 1) d
    have hunits : |d.toRat / unitOf (max precision 1) d| ≤ ((10 ^ max precision 1 : ℤ) : ℚ) := by
      have hhigh := (magnitude_spec h).2.le
      rw [abs_div, abs_of_pos hunit, ← zpow_div_unitOf d (max precision 1),
        (decade_exponents d precision).1]
      exact div_le_div_of_nonneg_right hhigh hunit.le
    rw [toRat_round h, unitOf]
    exact fits_of_abs_le (by omega) (abs_wholeUnits_le hunits) _

/-- A representation without trailing zeros has the significant digits of its value. -/
theorem digitCount_le_of_fits {digits : ℕ} (hdigits : 0 < digits) {d : Decimal} (h : d.Reduced)
    (hfits : FitsDigits digits d.toRat) : d.digitCount ≤ digits := by
  rcases h with rfl | hdvd
  · exact hdigits
  · have hne : d.coefficient.natAbs ≠ 0 := by
      intro hzero
      rw [Int.natAbs_eq_zero] at hzero
      exact hdvd (hzero ▸ dvd_zero _)
    have hlong := Digits.pow_decimalLength_le hne
    have hshort : d.coefficient.natAbs < 10 ^ digits := by
      have habs := abs_lt_of_fits hdvd hfits
      rw [Int.abs_eq_natAbs] at habs
      exact_mod_cast habs
    have hlength := (Nat.pow_lt_pow_iff_right (by norm_num)).1 (hlong.trans_lt hshort)
    unfold digitCount
    omega

theorem digitCount_round_le (d : Decimal) (precision : ℕ) :
    (d.round precision).digitCount ≤ max precision 1 :=
  digitCount_le_of_fits (by omega) (reduced_round d precision) (fits_round d precision)

/-- A value with few significant digits is rounded to itself. -/
theorem toRat_round_of_fits {d : Decimal} {precision : ℕ}
    (h : FitsDigits (max precision 1) d.toRat) : (d.round precision).toRat = d.toRat := by
  by_cases hzero : d.toRat = 0
  · rw [round_zero hzero, toRat_zero, hzero]
  · rw [round, if_neg (mt d.isZero_iff.1 hzero), toRat_normalize, keepDigits_of_fits h]

theorem round_round (d : Decimal) (precision : ℕ) :
    (d.round precision).round precision = d.round precision := by
  apply (reduced_round _ precision).eq_of_toRat_eq (reduced_round d precision)
  exact toRat_round_of_fits (fits_round d precision)

/-! ## Scales that are words -/

/-- The scales that a number has while it is rounded are words: that of the last digit kept, and
that of the result, which has no trailing zeros.  A number with few digits has its last digit kept
among the zeros behind them. -/
structure Roundable (precision : ℕ) (d : Decimal) : Prop where
  kept : d.toRat ≠ 0 → Word.holdsSigned ((max precision 1 : ℕ) - d.magnitude) = true
  result : Word.holdsSigned (d.round precision).scale = true

theorem holdsSigned_iff {n : ℤ} :
    Word.holdsSigned n = true ↔ -Word.greatestSigned - 1 ≤ n ∧ n ≤ Word.greatestSigned := by
  rw [Word.holdsSigned, decide_eq_true_eq]

/-- The last digit of the result does not stand behind the last digit kept. -/
theorem scale_round_le {d : Decimal} (h : d.toRat ≠ 0) (precision : ℕ) :
    (d.round precision).scale ≤ (max precision 1 : ℕ) - (d.round precision).magnitude := by
  have hcount := digitCount_round_le d precision
  have hmagnitude := magnitude_of_ne (toRat_round_ne h precision)
  omega

/-- What rounding gives can be rounded once more. -/
theorem Roundable.round {d : Decimal} {precision : ℕ} (h : d.Roundable precision) :
    (d.round precision).Roundable precision where
  kept := by
    intro hne
    have hvalue : d.toRat ≠ 0 := by
      intro hzero
      rw [round_zero hzero, toRat_zero] at hne
      exact hne rfl
    -- After a carry the last digit kept stands one place further left, but not left of the result.
    have hmagnitude := (magnitude_round hvalue precision).1
    have hscale := scale_round_le hvalue precision
    have hkept := holdsSigned_iff.1 (h.kept hvalue)
    have hresult := holdsSigned_iff.1 h.result
    rw [holdsSigned_iff]
    omega
  result := by
    rw [round_round]
    exact h.result

/-- Numbers within the exponent range can be rounded, unless the precision is as large as words
are. -/
theorem roundable_of_inRange {d : Decimal} {precision : ℕ} (h : d.inRange = true)
    (hprecision : max precision 1 + maxExponent.natAbs ≤ Word.greatestSigned) :
    d.Roundable precision := by
  have hrange : d.magnitude.natAbs ≤ maxExponent.natAbs := of_decide_eq_true h
  have hsmall : maxExponent.natAbs < Word.greatestSigned := by decide
  constructor
  · intro _
    rw [holdsSigned_iff]
    omega
  · by_cases hzero : d.toRat = 0
    · rw [round_zero hzero]
      decide
    · have hscale := scale_round_le hzero precision
      have hmagnitude := magnitude_round hzero precision
      have hplaces := magnitude_of_ne (toRat_round_ne hzero precision)
      rw [holdsSigned_iff]
      omega

/-! ## Main results -/

/-- Rounding is a projection that keeps order.  It depends on the value only, gives a representation
without trailing zeros that has no more digits than are to be kept, and leaves values with so few
significant digits as they are, such as those that it gives, which can be rounded in turn. -/
theorem round_projection {u v : Decimal} {precision : ℕ} (hu : u.Roundable precision)
    (hv : v.Roundable precision) :
    (u.toRat = v.toRat → u.round precision = v.round precision) ∧
      (v.round precision).digitCount ≤ max precision 1 ∧ (v.round precision).Reduced ∧
      ((u.round precision).Roundable precision ∧ (v.round precision).Roundable precision) ∧
      (v.round precision).round precision = v.round precision ∧
      (FitsDigits (max precision 1) v.toRat → (v.round precision).toRat = v.toRat) ∧
      (u.toRat ≤ v.toRat → (u.round precision).toRat ≤ (v.round precision).toRat) :=
  ⟨fun h => round_congr h precision, digitCount_round_le v precision, reduced_round v precision,
    ⟨hu.round, hv.round⟩, round_round v precision, toRat_round_of_fits,
    fun h => round_mono h precision⟩

/-- With three digits `-99.96` is cut, and `99.96` is carried to `100`. -/
theorem round_projection_carry :
    (⟨-9996, 2⟩ : Decimal).Roundable 3 ∧ (⟨9996, 2⟩ : Decimal).Roundable 3 ∧
      (⟨-9996, 2⟩ : Decimal).toRat ≤ (⟨9996, 2⟩ : Decimal).toRat ∧
      (⟨-9996, 2⟩ : Decimal).round 3 = ⟨-999, 1⟩ ∧ (⟨9996, 2⟩ : Decimal).round 3 = ⟨1, -2⟩ ∧
      (⟨-999, 1⟩ : Decimal).toRat ≤ (⟨1, -2⟩ : Decimal).toRat ∧
      (⟨1, -2⟩ : Decimal).round 3 = ⟨1, -2⟩ := by
  have hu : (⟨-9996, 2⟩ : Decimal).Roundable 3 := roundable_of_inRange (by decide) (by decide)
  have hv : (⟨9996, 2⟩ : Decimal).Roundable 3 := roundable_of_inRange (by decide) (by decide)
  have hle : (⟨-9996, 2⟩ : Decimal).toRat ≤ (⟨9996, 2⟩ : Decimal).toRat := by norm_num [toRat]
  have hcut : (⟨-9996, 2⟩ : Decimal).round 3 = ⟨-999, 1⟩ := by decide
  have hcarried : (⟨9996, 2⟩ : Decimal).round 3 = ⟨1, -2⟩ := by decide
  obtain ⟨-, -, -, -, hagain, -, hmono⟩ := round_projection hu hv
  rw [hcut, hcarried] at hmono
  rw [hcarried] at hagain
  exact ⟨hu, hv, hle, hcut, hcarried, hmono hle, hagain⟩

/-- Without its trailing zero, `10 * 10 ^ 2 ^ 63` would have a scale that is not a word. -/
example : ¬ (⟨10, -Word.greatestSigned - 1⟩ : Decimal).Roundable 1 := by
  intro h
  exact absurd h.result (by decide)

/-! ## Rounding to nearest -/

@[simp] theorem toRat_neg (d : Decimal) : (-d).toRat = -d.toRat := by
  show ((-d.coefficient : ℤ) : ℚ) * 10 ^ (-d.scale) = _
  rw [Int.cast_neg, neg_mul, toRat]

theorem Reduced.neg {d : Decimal} (h : d.Reduced) : (-d).Reduced := by
  rcases h with rfl | hdvd
  · exact .inl rfl
  · right
    intro hneg
    exact hdvd (Int.dvd_neg.1 hneg)

/-- A number lies in one decade only. -/
theorem decade_unique {x : ℚ} {m n : ℤ} (hlow : 10 ^ (m - 1) ≤ x) (hhigh : x < 10 ^ m)
    (hlow' : 10 ^ (n - 1) ≤ x) (hhigh' : x < 10 ^ n) : m = n := by
  have hle : m - 1 < n := (zpow_lt_zpow_iff_right₀ (by norm_num)).1 (hlow.trans_lt hhigh')
  have hge : n - 1 < m := (zpow_lt_zpow_iff_right₀ (by norm_num)).1 (hlow'.trans_lt hhigh)
  omega

/-- The magnitude is determined by the powers of ten around the value. -/
theorem magnitude_eq_of_bounds {d : Decimal} {m : ℤ} (hlow : 10 ^ (m - 1) ≤ |d.toRat|)
    (hhigh : |d.toRat| < 10 ^ m) : d.magnitude = m := by
  have hne : d.toRat ≠ 0 := abs_pos.1 ((ten_zpow_pos _).trans_le hlow)
  obtain ⟨hlow', hhigh'⟩ := magnitude_spec hne
  exact decade_unique hlow' hhigh' hlow hhigh

/-- The magnitude of a whole number of units of some length. -/
theorem magnitude_of_units {d : Decimal} {digits : ℕ} (hdigits : 0 < digits) {k e : ℤ}
    (hvalue : d.toRat = k * 10 ^ e) (hlow : 10 ^ (digits - 1) ≤ |k|) (hhigh : |k| < 10 ^ digits) :
    d.magnitude = digits + e := by
  have hpos := ten_zpow_pos e
  have hten : (10 : ℚ) ≠ 0 := by norm_num
  have hlow : (10 : ℚ) ^ (digits - 1) ≤ |(k : ℚ)| := by exact_mod_cast hlow
  have hhigh : |(k : ℚ)| < 10 ^ digits := by exact_mod_cast hhigh
  have habs : |d.toRat| = |(k : ℚ)| * 10 ^ e := by rw [hvalue, abs_mul, abs_of_pos hpos]
  have hexponent : (digits : ℤ) + e - 1 = ((digits - 1 : ℕ) : ℤ) + e := by omega
  apply magnitude_eq_of_bounds
  · rw [habs, hexponent, zpow_add₀ hten, zpow_natCast]
    exact mul_le_mul_of_nonneg_right hlow hpos.le
  · rw [habs, zpow_add₀ hten, zpow_natCast]
    exact mul_lt_mul_of_pos_right hhigh hpos

theorem magnitude_neg {d : Decimal} (h : d.toRat ≠ 0) : (-d).magnitude = d.magnitude := by
  obtain ⟨hlow, hhigh⟩ := magnitude_spec h
  apply magnitude_eq_of_bounds <;> rwa [toRat_neg, abs_neg]

/-- Rounding commutes with negation if less than half a unit is cut off. -/
theorem round_neg_iff {d : Decimal} (h : d.toRat ≠ 0) (precision : ℕ) :
    (-d).round precision = -d.round precision ↔
      Int.fract (|d.toRat| / unitOf (max precision 1) d) < 1 / 2 := by
  have hneg : (-d).toRat ≠ 0 := by rwa [toRat_neg, neg_ne_zero]
  have hunit := unitOf_pos (max precision 1) d
  have hunits : d.toRat / unitOf (max precision 1) d ≠ 0 := div_ne_zero h hunit.ne'
  -- Both sides have no trailing zeros, so it is enough to compare their values.
  have hvalues : (-d).round precision = -d.round precision ↔
      ((-d).round precision).toRat = (-d.round precision).toRat := by
    constructor
    · exact congrArg toRat
    · exact (reduced_round _ precision).eq_of_toRat_eq (reduced_round d precision).neg
  have hsame : unitOf (max precision 1) (-d) = unitOf (max precision 1) d := by
    rw [unitOf, unitOf, magnitude_neg h]
  rw [hvalues, toRat_neg, toRat_round h, toRat_round hneg, hsame, toRat_neg, neg_div, ← neg_mul,
    mul_left_inj' hunit.ne']
  have hwhole := wholeUnits_neg_iff hunits
  rw [abs_div, abs_of_pos hunit] at hwhole
  rw [← hwhole]
  exact_mod_cast Iff.rfl

/-- Rounding is off by less than a unit of the last digit that is kept.  It is off by half a unit at
most exactly if the number is positive or no more than half a unit is cut off, and it commutes with
negation exactly if less than half a unit is cut off. -/
theorem round_nearest_iff {v : Decimal} {precision : ℕ} {m : ℤ} (hprecision : 1 ≤ precision)
    (hlow : 10 ^ (m - 1) ≤ |v.toRat|) (hhigh : |v.toRat| < 10 ^ m) :
    |(v.round precision).toRat - v.toRat| < 10 ^ (m - precision) ∧
      (|(v.round precision).toRat - v.toRat| ≤ 1 / 2 * 10 ^ (m - precision) ↔
        0 < v.toRat ∨ Int.fract (|v.toRat| / 10 ^ (m - precision)) ≤ 1 / 2) ∧
      ((-v).round precision = -v.round precision ↔
        Int.fract (|v.toRat| / 10 ^ (m - precision)) < 1 / 2) := by
  have hne : v.toRat ≠ 0 := abs_pos.1 ((ten_zpow_pos _).trans_le hlow)
  have hunit : unitOf (max precision 1) v = 10 ^ (m - precision) := by
    rw [unitOf, magnitude_eq_of_bounds hlow hhigh, max_eq_left hprecision]
  have hpos : (0 : ℚ) < 10 ^ (m - precision) := ten_zpow_pos _
  refine ⟨hunit ▸ abs_round_sub_lt hne precision, ?_, hunit ▸ round_neg_iff hne precision⟩
  have herror := round_sub_eq hne precision
  have hwhole := abs_wholeUnits_sub_le_iff (div_ne_zero hne hpos.ne')
  rw [abs_div, abs_of_pos hpos, div_pos_iff_of_pos_right hpos] at hwhole
  rw [hunit] at herror
  rw [herror, abs_mul, abs_of_pos hpos, mul_le_mul_iff_of_pos_right hpos]
  exact hwhole

/-- `-14.41` is rounded to the nearest number with three digits, as `14.41` is. -/
theorem round_nearest_tenth :
    (10 : ℚ) ^ ((2 : ℤ) - 1) ≤ |(⟨-1441, 2⟩ : Decimal).toRat| ∧
      |(⟨-1441, 2⟩ : Decimal).toRat| < 10 ^ (2 : ℤ) ∧ (⟨-1441, 2⟩ : Decimal).round 3 = ⟨-144, 1⟩ ∧
      |(⟨-144, 1⟩ : Decimal).toRat - (⟨-1441, 2⟩ : Decimal).toRat| ≤
        1 / 2 * 10 ^ ((2 : ℤ) - (3 : ℕ)) ∧
      (-⟨-1441, 2⟩ : Decimal).round 3 = -⟨-144, 1⟩ := by
  have habs : |(⟨-1441, 2⟩ : Decimal).toRat| = 1441 / 100 := by norm_num [toRat, abs_of_neg]
  have hlow : (10 : ℚ) ^ ((2 : ℤ) - 1) ≤ |(⟨-1441, 2⟩ : Decimal).toRat| := by
    rw [habs]
    norm_num
  have hhigh : |(⟨-1441, 2⟩ : Decimal).toRat| < 10 ^ (2 : ℤ) := by
    rw [habs]
    norm_num
  have hfract : Int.fract (|(⟨-1441, 2⟩ : Decimal).toRat| / 10 ^ ((2 : ℤ) - (3 : ℕ))) = 1 / 10 := by
    rw [habs, Int.fract_eq_iff]
    exact ⟨by norm_num, by norm_num, 144, by norm_num⟩
  have hround : (⟨-1441, 2⟩ : Decimal).round 3 = ⟨-144, 1⟩ := by decide
  obtain ⟨-, hnearest, hneg⟩ := round_nearest_iff (by norm_num : 1 ≤ 3) hlow hhigh
  rw [hround, hfract] at hnearest hneg
  exact ⟨hlow, hhigh, hround, hnearest.2 (.inr (by norm_num)), hneg.2 (by norm_num)⟩

/-- `-19` is rounded to `-10` and not to `-20`, though `19` is rounded to `20`. -/
theorem round_toward_zero :
    (10 : ℚ) ^ ((2 : ℤ) - 1) ≤ |(ofInt (-19)).toRat| ∧ |(ofInt (-19)).toRat| < 10 ^ (2 : ℤ) ∧
      ¬ |((ofInt (-19)).round 1).toRat - (ofInt (-19)).toRat| ≤ 1 / 2 * 10 ^ ((2 : ℤ) - (1 : ℕ)) ∧
      (-ofInt (-19)).round 1 ≠ -(ofInt (-19)).round 1 := by
  have hround : (ofInt (-19)).round 1 = ⟨-1, -1⟩ := by decide
  rw [hround, toRat_ofInt]
  refine ⟨by norm_num, by norm_num, ?_, by decide⟩
  norm_num [toRat, abs_of_pos]

end Terse.Decimal
