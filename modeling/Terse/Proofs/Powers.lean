import Mathlib.Algebra.Order.Ring.Abs
import Mathlib.Data.Sign.Basic
import Terse.Proofs.Digits
import Terse.Proofs.Rounding

/-!
# Powers by repeated squaring

The loop keeps a result and a factor.  For each binary digit of the exponent, the least significant
one first, it multiplies the result by the factor if the digit is one, and squares the factor if
digits are left.  Every product is cut to a number of digits, so it has one relative error more than
its operands have together.

Counting errors: if the factor has one error less than the power of the base that it stands for,
then so has its square, and a result multiplied by it gets as many errors as the power has factors.

```text
                stands for         relative errors
factor          y ^ 2 ^ i          2 ^ i - 1
its square      y ^ 2 ^ (i + 1)    2 * (2 ^ i - 1) + 1 = 2 ^ (i + 1) - 1
result          x                  k
their product   x * y ^ 2 ^ i      k + (2 ^ i - 1) + 1 = k + 2 ^ i
```

## Strategy

Each property of the loop is a case of one induction, `squaring_induction`.  The loop goes over the
binary digits; the induction is on the exponent, which is halved.

* `within_squaring` counts the errors.
* `squaring_of_fits` says that nothing is lost where the powers on the way have few digits, and
  `squaring_exact` that they have if the last one has.
* `leaves_squaring` says which factor has left the exponent range if the loop ends early.
* `sign_squaring` is about the sign of the product, which is that of the power unless all digits are
  cut off.

A negative exponent inverts the power of its size, so its sign comes down to that of a quotient.
The size of the least word is not a word, and is taken to be one less.
-/

namespace Terse.Decimal

/-! ## Relative errors -/

/-- `y` is `x` up to `count` relative errors that are at most `e`. -/
def Within (e : ℚ) (count : ℕ) (x y : ℚ) : Prop :=
  ∃ f, (1 - e) ^ count ≤ f ∧ f ≤ (1 + e) ^ count ∧ y = x * f

namespace Within

variable {e x x' y y' z : ℚ} {k l : ℕ}

theorem refl (e x : ℚ) : Within e 0 x x :=
  ⟨1, by simp, by simp, (mul_one x).symm⟩

/-- One error of a value. -/
theorem of_abs_sub_le (he : 0 ≤ e) (h : |y - x| ≤ e * |x|) : Within e 1 x y := by
  rw [Within, pow_one, pow_one]
  rcases eq_or_ne x 0 with rfl | hx
  · rw [abs_zero, mul_zero, sub_zero, abs_nonpos_iff] at h
    exact ⟨1, by linarith, by linarith, by rw [h, zero_mul]⟩
  · have hratio : |y / x - 1| ≤ e := by
      rw [div_sub_one hx, abs_div]
      exact (div_le_iff₀ (abs_pos.2 hx)).2 h
    obtain ⟨hlow, hhigh⟩ := abs_le.1 hratio
    exact ⟨y / x, by linarith, by linarith, (mul_div_cancel₀ y hx).symm⟩

/-- The errors of the factors are errors of the product. -/
theorem mul (he : 0 ≤ e) (he' : e < 1) (h : Within e k x y) (h' : Within e l x' y') :
    Within e (k + l) (x * x') (y * y') := by
  obtain ⟨f, hlow, hhigh, rfl⟩ := h
  obtain ⟨f', hlow', hhigh', rfl⟩ := h'
  have hbase : 0 ≤ 1 - e := by linarith
  have hf : 0 ≤ f := (pow_nonneg hbase k).trans hlow
  have hf' : 0 ≤ f' := (pow_nonneg hbase l).trans hlow'
  refine ⟨f * f', ?_, ?_, by ring⟩
  · rw [pow_add]
    exact mul_le_mul hlow hlow' (pow_nonneg hbase l) hf
  · rw [pow_add]
    exact mul_le_mul hhigh hhigh' hf' (pow_nonneg (by linarith) k)

/-- The errors of two steps add up. -/
theorem trans (he : 0 ≤ e) (he' : e < 1) (h : Within e k x y) (h' : Within e l y z) :
    Within e (k + l) x z := by
  obtain ⟨f, hlow, hhigh, rfl⟩ := h
  obtain ⟨f', hlow', hhigh', rfl⟩ := h'
  have hone : Within e (k + l) (1 * 1) (1 * f * (1 * f')) :=
    mul he he' ⟨f, hlow, hhigh, rfl⟩ ⟨f', hlow', hhigh', rfl⟩
  obtain ⟨g, hlow, hhigh, hg⟩ := hone
  refine ⟨g, hlow, hhigh, ?_⟩
  rw [one_mul, one_mul, one_mul, one_mul] at hg
  rw [← hg]
  ring

theorem mono (he : 0 ≤ e) (he' : e < 1) (h : Within e k x y) (hkl : k ≤ l) : Within e l x y := by
  obtain ⟨f, hlow, hhigh, rfl⟩ := h
  refine ⟨f, ?_, ?_, rfl⟩
  · exact (pow_le_pow_of_le_one (by linarith) (by linarith) hkl).trans hlow
  · exact hhigh.trans (pow_le_pow_right₀ (by linarith) hkl)

theorem abs_le (h : Within e k x y) (he' : e < 1) :
    |x| * (1 - e) ^ k ≤ |y| ∧ |y| ≤ |x| * (1 + e) ^ k := by
  obtain ⟨f, hlow, hhigh, rfl⟩ := h
  have hf : 0 ≤ f := (pow_nonneg (by linarith) k).trans hlow
  rw [abs_mul, abs_of_nonneg hf]
  exact ⟨mul_le_mul_of_nonneg_left hlow (abs_nonneg x),
    mul_le_mul_of_nonneg_left hhigh (abs_nonneg x)⟩

/-- Errors below one do not change the sign. -/
theorem sign_eq (h : Within e k x y) (he' : e < 1) : SignType.sign y = SignType.sign x := by
  obtain ⟨f, hlow, -, rfl⟩ := h
  have hf : 0 < f := (pow_pos (by linarith) k).trans_le hlow
  rw [sign_mul, sign_pos hf, mul_one]

end Within

/-! ## The loop -/

/-- The factor behind the one that is squared. -/
def squared (digits : ℕ) (factor : Decimal) : Decimal := (factor * factor).keepDigits digits

/-- The result behind a binary digit of the exponent. -/
def multiplied (digits bit : ℕ) (result factor : Decimal) : Decimal :=
  if bit = 1 then (result * factor).keepDigits digits else result

/-- The loop, as steps on an exponent that is halved. -/
theorem squaring_digits {digits n : ℕ} (hn : 0 < n) (result factor : Decimal) :
    squaring digits (Nat.digits 2 n) result factor =
      if n / 2 = 0 then .product (multiplied digits (n % 2) result factor)
      else if maxExponent < (squared digits factor).magnitude then .aboveRange
      else if (squared digits factor).magnitude < -maxExponent then .belowRange
      else squaring digits (Nat.digits 2 (n / 2)) (multiplied digits (n % 2) result factor)
        (squared digits factor) := by
  have hempty : (Nat.digits 2 (n / 2)).isEmpty = true ↔ n / 2 = 0 := by
    rw [List.isEmpty_iff, Nat.digits_eq_nil_iff_eq_zero]
  rw [Nat.digits_def' (by norm_num) hn]
  simp only [squaring, hempty]
  rfl

/-- What holds at the end of the loop holds of all of it, if each step leads it back. -/
theorem squaring_induction {digits : ℕ} {motive : ℕ → Decimal → Decimal → Squaring → Prop}
    (zero : ∀ result factor, motive 0 result factor (.product result))
    (last : ∀ result factor, motive 1 result factor (.product (multiplied digits 1 result factor)))
    (above : ∀ n result factor, 2 ≤ n → maxExponent < (squared digits factor).magnitude →
      motive n result factor .aboveRange)
    (below : ∀ n result factor, 2 ≤ n → (squared digits factor).magnitude < -maxExponent →
      motive n result factor .belowRange)
    (more : ∀ n result factor outcome, 2 ≤ n →
      motive (n / 2) (multiplied digits (n % 2) result factor) (squared digits factor) outcome →
      motive n result factor outcome)
    (n : ℕ) (result factor : Decimal) :
    motive n result factor (squaring digits (Nat.digits 2 n) result factor) := by
  induction n using Nat.strong_induction_on generalizing result factor with
  | _ n ih =>
    rcases Nat.eq_zero_or_pos n with rfl | hn
    · exact zero result factor
    rw [squaring_digits hn]
    by_cases hone : n = 1
    · subst hone
      exact last result factor
    have htwo : 2 ≤ n := by omega
    rw [if_neg (by omega)]
    split
    · exact above n result factor htwo ‹_›
    split
    · exact below n result factor htwo ‹_›
    · exact more n result factor _ htwo (ih (n / 2) (by omega) _ _)

section Steps

variable {digits i j : ℕ} {x y : ℚ} {result factor : Decimal}

theorem within_keepDigits (hdigits : 1 < digits) {d : Decimal}
    (h : Within (roundoff digits) i x d.toRat) :
    Within (roundoff digits) (i + 1) x (d.keepDigits digits).toRat :=
  h.trans (roundoff_pos digits).le (roundoff_lt_one hdigits)
    (.of_abs_sub_le (roundoff_pos digits).le (abs_keepDigits_sub_le (by omega) d))

theorem within_product (hdigits : 1 < digits) (hresult : Within (roundoff digits) i x result.toRat)
    (hfactor : Within (roundoff digits) j y factor.toRat) :
    Within (roundoff digits) (i + j + 1) (x * y) ((result * factor).keepDigits digits).toRat := by
  apply within_keepDigits hdigits
  rw [toRat_mul]
  exact hresult.mul (roundoff_pos digits).le (roundoff_lt_one hdigits) hfactor

theorem within_multiplied (hdigits : 1 < digits) {bit : ℕ} (hbit : bit < 2)
    (hresult : Within (roundoff digits) i x result.toRat)
    (hfactor : Within (roundoff digits) j y factor.toRat) :
    Within (roundoff digits) (i + (j + 1) * bit) (x * y ^ bit)
      (multiplied digits bit result factor).toRat := by
  unfold multiplied
  split
  · rename_i hone
    rw [hone, mul_one, pow_one, ← add_assoc]
    exact within_product hdigits hresult hfactor
  · rename_i hone
    obtain rfl : bit = 0 := by omega
    rw [mul_zero, add_zero, pow_zero, mul_one]
    exact hresult

end Steps

/-- The product has as many errors as factors. -/
theorem within_squaring {digits : ℕ} (hdigits : 1 < digits) {n i j : ℕ} {x y : ℚ}
    {result factor r : Decimal} (hrun : squaring digits (Nat.digits 2 n) result factor = .product r)
    (hresult : Within (roundoff digits) i x result.toRat)
    (hfactor : Within (roundoff digits) j y factor.toRat) :
    Within (roundoff digits) (i + (j + 1) * n) (x * y ^ n) r.toRat := by
  refine squaring_induction (motive := fun n result factor outcome => ∀ r i j x y,
    outcome = .product r → Within (roundoff digits) i x result.toRat →
      Within (roundoff digits) j y factor.toRat →
        Within (roundoff digits) (i + (j + 1) * n) (x * y ^ n) r.toRat)
    ?zero ?last ?above ?below ?more n result factor r i j x y hrun hresult hfactor
  case zero =>
    intro result factor r i j x y heq hresult _
    obtain rfl := Squaring.product.inj heq
    simpa using hresult
  case last =>
    intro result factor r i j x y heq hresult hfactor
    obtain rfl := Squaring.product.inj heq
    exact within_multiplied hdigits (by norm_num) hresult hfactor
  case above => exact fun _ _ _ _ _ _ _ _ _ _ => nofun
  case below => exact fun _ _ _ _ _ _ _ _ _ _ => nofun
  case more =>
    intro n result factor outcome _ ih r i j x y heq hresult hfactor
    have hstep := ih r _ _ _ _ heq
      (within_multiplied hdigits (Nat.mod_lt n (by norm_num)) hresult hfactor)
      (within_product hdigits hfactor hfactor)
    -- The exponent is its last binary digit and twice the rest, and so are the errors counted.
    have hcount : i + (j + 1) * (n % 2) + (j + j + 1 + 1) * (n / 2) = i + (j + 1) * n := by
      have hn := Nat.div_add_mod n 2
      calc i + (j + 1) * (n % 2) + (j + j + 1 + 1) * (n / 2)
          = i + (j + 1) * (2 * (n / 2) + n % 2) := by ring
        _ = i + (j + 1) * n := by rw [hn]
    have hpower : x * y ^ (n % 2) * (y * y) ^ (n / 2) = x * y ^ n := by
      rw [← pow_two, ← pow_mul, mul_assoc, ← pow_add, add_comm, Nat.div_add_mod]
    rwa [hcount, hpower] at hstep

/-- From one and the base on, the product is the power with one error for each factor. -/
theorem within_power {digits : ℕ} (hdigits : 1 < digits) {n : ℕ} {base r : Decimal}
    (hrun : squaring digits (Nat.digits 2 n) one base = .product r) :
    Within (roundoff digits) n (base.toRat ^ n) r.toRat := by
  have hone : Within (roundoff digits) 0 1 one.toRat := toRat_one ▸ .refl _ _
  have hwithin := within_squaring hdigits hrun hone (.refl _ base.toRat)
  rwa [zero_add, zero_add, one_mul, one_mul] at hwithin

theorem keepDigits_mul {digits i j : ℕ} {b : ℚ} {a c : Decimal} (ha : a.toRat = b ^ i)
    (hc : c.toRat = b ^ j) (hfits : FitsDigits digits (b ^ (i + j))) :
    ((a * c).keepDigits digits).toRat = b ^ (i + j) := by
  have hvalue : (a * c).toRat = b ^ (i + j) := by rw [toRat_mul, ha, hc, pow_add]
  rw [keepDigits_of_fits (hvalue ▸ hfits), hvalue]

/-- If the powers on the way have few significant digits, the product is exact. -/
theorem squaring_of_fits {digits n i w : ℕ} {b : ℚ} {result factor r : Decimal}
    (hrun : squaring digits (Nat.digits 2 n) result factor = .product r)
    (hresult : result.toRat = b ^ i) (hfactor : factor.toRat = b ^ w)
    (hfits : ∀ k ≤ i + w * n, FitsDigits digits (b ^ k)) : r.toRat = b ^ (i + w * n) := by
  refine squaring_induction (motive := fun n result factor outcome => ∀ r i w,
    outcome = .product r → result.toRat = b ^ i → factor.toRat = b ^ w →
      (∀ k ≤ i + w * n, FitsDigits digits (b ^ k)) → r.toRat = b ^ (i + w * n))
    ?zero ?last ?above ?below ?more n result factor r i w hrun hresult hfactor hfits
  case zero =>
    intro result factor r i w heq hresult _ _
    obtain rfl := Squaring.product.inj heq
    rw [hresult, mul_zero, add_zero]
  case last =>
    intro result factor r i w heq hresult hfactor hfits
    obtain rfl := Squaring.product.inj heq
    rw [mul_one] at hfits ⊢
    exact keepDigits_mul hresult hfactor (hfits _ le_rfl)
  case above => exact fun _ _ _ _ _ _ _ _ => nofun
  case below => exact fun _ _ _ _ _ _ _ _ => nofun
  case more =>
    intro n result factor outcome hn ih r i w heq hresult hfactor hfits
    have hcount : i + w * (n % 2) + (w + w) * (n / 2) = i + w * n := by
      calc i + w * (n % 2) + (w + w) * (n / 2) = i + w * (2 * (n / 2) + n % 2) := by ring
        _ = i + w * n := by rw [Nat.div_add_mod]
    -- The square is the power of an exponent within bounds because digits are left.
    have htwice : w * 2 ≤ w * n := Nat.mul_le_mul_left w hn
    have hsquare : w + w ≤ i + w * n := by omega
    have hmultiplied : (multiplied digits (n % 2) result factor).toRat = b ^ (i + w * (n % 2)) := by
      unfold multiplied
      split
      · rename_i hone
        rw [hone, mul_one]
        exact keepDigits_mul hresult hfactor (hfits _ (by omega))
      · rename_i hone
        have hzero : n % 2 = 0 := by omega
        rw [hzero, mul_zero, add_zero, hresult]
    rw [← hcount] at hfits ⊢
    have hsquared := keepDigits_mul hfactor hfactor (hfits (w + w) (hcount ▸ hsquare))
    exact ih r _ _ heq hmultiplied hsquared hfits

/-- A power with few significant digits is exact: the powers before it have no more. -/
theorem squaring_exact {digits n : ℕ} (hdigits : 0 < digits) {base r : Decimal}
    (hrun : squaring digits (Nat.digits 2 n) one base = .product r)
    (hfits : FitsDigits digits (base.toRat ^ n)) : r.toRat = base.toRat ^ n := by
  have hone : one.toRat = base.toRat ^ 0 := by rw [toRat_one, pow_zero]
  have hexact := squaring_of_fits (w := 1) hrun hone (pow_one _).symm
    fun k hk => hfits.pow_of_le hdigits (by omega)
  rwa [zero_add, one_mul] at hexact

/-- The factor behind `k` squarings has one error less than the power it stands for. -/
theorem within_iterate_squared {digits : ℕ} (hdigits : 1 < digits) (factor : Decimal) (k : ℕ) :
    Within (roundoff digits) (2 ^ k - 1) (factor.toRat ^ 2 ^ k)
      ((squared digits)^[k] factor).toRat := by
  induction k with
  | zero =>
      rw [pow_zero, Nat.sub_self, pow_one]
      exact .refl _ _
  | succ k ih =>
      have hcount : 2 ^ (k + 1) - 1 = 2 ^ k - 1 + (2 ^ k - 1) + 1 := by
        have hpos : 1 ≤ 2 ^ k := Nat.one_le_two_pow
        rw [pow_succ]
        omega
      rw [Function.iterate_succ_apply', hcount, pow_succ 2 k, pow_mul, pow_two]
      exact within_product hdigits ih ih

/-- A factor behind some squarings, no more than the exponent has digits, is outside the exponent
range if the loop ends early. -/
def Squaring.Leaves (digits n : ℕ) (factor : Decimal) : Squaring → Prop
  | .product _ => True
  | .aboveRange => ∃ k, 2 ^ k ≤ n ∧ maxExponent < ((squared digits)^[k] factor).magnitude
  | .belowRange => ∃ k, 2 ^ k ≤ n ∧ ((squared digits)^[k] factor).magnitude < -maxExponent

theorem leaves_squaring (digits n : ℕ) (result factor : Decimal) :
    (squaring digits (Nat.digits 2 n) result factor).Leaves digits n factor := by
  refine squaring_induction
    (motive := fun n _ factor outcome => outcome.Leaves digits n factor)
    ?zero ?last ?above ?below ?more n result factor
  case zero => exact fun _ _ => trivial
  case last => exact fun _ _ => trivial
  case above => exact fun _ _ _ hn hrange => ⟨1, hn, hrange⟩
  case below => exact fun _ _ _ hn hrange => ⟨1, hn, hrange⟩
  case more =>
    intro n result factor outcome _ ih
    have hdouble : ∀ k, 2 ^ k ≤ n / 2 → 2 ^ (k + 1) ≤ n := by
      intro k hk
      rw [pow_succ]
      omega
    cases outcome with
    | product r => trivial
    | aboveRange =>
        obtain ⟨k, hk, hrange⟩ := ih
        exact ⟨k + 1, hdouble k hk, hrange⟩
    | belowRange =>
        obtain ⟨k, hk, hrange⟩ := ih
        exact ⟨k + 1, hdouble k hk, hrange⟩

/-! ## Powers with whole exponents -/

theorem power_of_toRat {base exponent : Decimal} {n : ℤ} (h : exponent.toRat = n)
    (hn : Word.holdsSigned n = true) (precision : ℕ) :
    power base exponent precision = wholePower base n precision := by
  rw [power, word?_of_toRat h hn]

/-- Without a sign, the exponent is its own size and nothing is inverted. -/
theorem power_of_natural {base exponent : Decimal} {n : ℕ} (h : exponent.toRat = n)
    (hn : n ≤ Word.greatestSigned) (precision : ℕ) :
    power base exponent precision =
      match squaring (workingDigits precision) (Nat.digits 2 n) one base with
      | .product r => .ok r
      | .aboveRange => .error .tooLarge
      | .belowRange => .ok zero := by
  have hword : Word.holdsSigned n = true := by
    rw [Word.holdsSigned, decide_eq_true_iff]
    omega
  have hsize : min (n : ℤ).natAbs Word.greatestSigned = n := by
    rw [Int.natAbs_natCast]
    omega
  have hnonneg : ¬ (n : ℤ) < 0 := by omega
  have hpower : power base exponent precision = wholePower base n precision :=
    power_of_toRat (by exact_mod_cast h) hword precision
  simp only [wholePower, hsize, if_neg hnonneg, Digits.reverse_ofNat le_rfl] at hpower
  exact hpower

/-- The guard digits are added without loss if the sum is a word. -/
theorem workingDigits_eq {precision : ℕ} (h : precision + guardDigits < Word.count) :
    workingDigits precision = precision + guardDigits :=
  Nat.mod_eq_of_lt h

theorem one_lt_digits (precision : ℕ) : 1 < precision + guardDigits := by
  unfold guardDigits
  omega

/-- The largest relative error of one step. -/
theorem roundoff_guard (precision : ℕ) :
    roundoff (precision + guardDigits) = 10 ^ (-((precision : ℤ) + 4)) := by
  have hexponent : 1 - ((precision + guardDigits : ℕ) : ℤ) = -((precision : ℤ) + 4) := by
    unfold guardDigits
    omega
  rw [roundoff, hexponent]

/-- A power with an exponent that is a natural number and a word, where the precision and the guard
digits together are a word.  If the loop runs to its end, its product is the power up to one
relative error for each factor, has its sign, and is exact if the power has no more digits than are
kept.  Otherwise a factor, which stands for the base raised to a power of two that is not above the
exponent, has left the exponent range. -/
theorem power_accurate {base exponent : Decimal} {n precision : ℕ} (hexponent : exponent.toRat = n)
    (hn : n ≤ Word.greatestSigned) (hprecision : precision + guardDigits < Word.count) :
    let e : ℚ := 10 ^ (-((precision : ℤ) + 4))
    match squaring (workingDigits precision) (Digits.ofNat 2 n).reverse one base with
    | .product r =>
        power base exponent precision = .ok r ∧
        |base.toRat ^ n| * (1 - e) ^ n ≤ |r.toRat| ∧ |r.toRat| ≤ |base.toRat ^ n| * (1 + e) ^ n ∧
        SignType.sign r.toRat = SignType.sign (base.toRat ^ n) ∧
        (FitsDigits (precision + 5) (base.toRat ^ n) → r.toRat = base.toRat ^ n)
    | .aboveRange =>
        power base exponent precision = .error .tooLarge ∧
        ∃ k factor, 2 ^ k ≤ n ∧ factor = (squared (precision + 5))^[k] base ∧
          Within e (2 ^ k) (base.toRat ^ 2 ^ k) factor.toRat ∧ maxExponent < factor.magnitude
    | .belowRange =>
        power base exponent precision = .ok zero ∧
        ∃ k factor, 2 ^ k ≤ n ∧ factor = (squared (precision + 5))^[k] base ∧
          Within e (2 ^ k) (base.toRat ^ 2 ^ k) factor.toRat ∧ factor.magnitude < -maxExponent := by
  intro e
  have hdigits := one_lt_digits precision
  have he : roundoff (precision + guardDigits) = e := roundoff_guard precision
  have hlt : e < 1 := he ▸ roundoff_lt_one hdigits
  have hfactor : ∀ k, Within e (2 ^ k) (base.toRat ^ 2 ^ k)
      ((squared (precision + 5))^[k] base).toRat := by
    intro k
    have hk := within_iterate_squared hdigits base k
    rw [he] at hk
    exact hk.mono (he ▸ (roundoff_pos _).le) hlt (Nat.sub_le _ _)
  have hleaves := leaves_squaring (precision + guardDigits) n one base
  rw [power_of_natural hexponent hn, Digits.reverse_ofNat le_rfl, workingDigits_eq hprecision]
  cases hrun : squaring (precision + guardDigits) (Nat.digits 2 n) one base with
  | product r =>
      have hwithin := within_power hdigits hrun
      rw [he] at hwithin
      obtain ⟨hlow, hhigh⟩ := hwithin.abs_le hlt
      exact ⟨rfl, hlow, hhigh, hwithin.sign_eq hlt, squaring_exact (by omega) hrun⟩
  | aboveRange =>
      rw [hrun] at hleaves
      obtain ⟨k, hk, hrange⟩ := hleaves
      exact ⟨rfl, k, _, hk, rfl, hfactor k, hrange⟩
  | belowRange =>
      rw [hrun] at hleaves
      obtain ⟨k, hk, hrange⟩ := hleaves
      exact ⟨rfl, k, _, hk, rfl, hfactor k, hrange⟩

/-- `(-1.5) ^ 5.0` is exact with seven digits, and the square of `10 ^ 60000` leaves the range. -/
theorem power_accurate_samples :
    ((⟨50, 1⟩ : Decimal).toRat = (5 : ℕ) ∧ 5 ≤ Word.greatestSigned ∧
      2 + guardDigits < Word.count ∧ FitsDigits (2 + 5) ((⟨-15, 1⟩ : Decimal).toRat ^ 5) ∧
      power ⟨-15, 1⟩ ⟨50, 1⟩ 2 = .ok ⟨-759375, 5⟩ ∧
      (⟨-759375, 5⟩ : Decimal).toRat = (⟨-15, 1⟩ : Decimal).toRat ^ 5) ∧
    (⟨2, 0⟩ : Decimal).toRat = (2 : ℕ) ∧
      power ⟨1, -60000⟩ ⟨2, 0⟩ 2 = .error .tooLarge := by
  have hfive : (⟨50, 1⟩ : Decimal).toRat = (5 : ℕ) := by norm_num [toRat]
  have htwo : (⟨2, 0⟩ : Decimal).toRat = (2 : ℕ) := by norm_num [toRat]
  have hfits : FitsDigits (2 + 5) ((⟨-15, 1⟩ : Decimal).toRat ^ 5) :=
    ⟨-759375, -5, by norm_num, by norm_num [toRat]⟩
  have hword : 2 + guardDigits < Word.count := by decide
  have hproduct : squaring (workingDigits 2) (Digits.ofNat 2 5).reverse one ⟨-15, 1⟩ =
      .product ⟨-759375, 5⟩ := by decide
  have habove : squaring (workingDigits 2) (Digits.ofNat 2 2).reverse one ⟨1, -60000⟩ =
      .aboveRange := by decide
  have hexact := @power_accurate ⟨-15, 1⟩ ⟨50, 1⟩ 5 2 hfive (by decide) hword
  have hleft := @power_accurate ⟨1, -60000⟩ ⟨2, 0⟩ 2 2 htwo (by decide) hword
  simp only [hproduct] at hexact
  simp only [habove] at hleft
  obtain ⟨hpower, -, -, -, hvalue⟩ := hexact
  exact ⟨⟨hfive, by decide, hword, hfits, hpower, hvalue hfits⟩, htwo, hleft.1⟩

/-- With the greatest precision the sum starts again at zero, so that four digits are kept. -/
example : workingDigits Word.greatest = 4 ∧
    power (ofInt 12345) (ofInt 1) Word.greatest = .ok ⟨1235, -1⟩ := by decide

/-! ## The sign of a quotient -/

/-- The dividend is not below the divisor behind the leading shift. -/
theorem le_mul_leadingShift {n m : ℕ} (hn : n ≠ 0) : m ≤ n * 10 ^ leadingShift n m := by
  simp only [leadingShift]
  split
  · assumption
  · have hpos := Digits.decimalLength_pos n
    calc m ≤ 10 ^ Digits.decimalLength m := (Digits.lt_pow_decimalLength m).le
      _ ≤ 10 ^ (Digits.decimalLength n - 1 +
          (Digits.decimalLength m - Digits.decimalLength n + 1)) :=
        Nat.pow_le_pow_right (by norm_num) (by omega)
      _ = 10 ^ (Digits.decimalLength n - 1) *
          10 ^ (Digits.decimalLength m - Digits.decimalLength n + 1) := pow_add _ _ _
      _ ≤ n * 10 ^ (Digits.decimalLength m - Digits.decimalLength n + 1) :=
        Nat.mul_le_mul_right _ (Digits.pow_decimalLength_le hn)

/-- The dividend with zeros behind it has a quotient that is not zero. -/
theorem shifted_div_pos {n m : ℕ} (hn : n ≠ 0) (hm : 0 < m) (extra : ℕ) :
    0 < n * Digits.weight 10 (leadingShift n m + extra) / m := by
  apply Nat.div_pos _ hm
  calc m ≤ n * 10 ^ leadingShift n m := le_mul_leadingShift hn
    _ ≤ n * 10 ^ (leadingShift n m + extra) :=
      Nat.mul_le_mul_left n (Nat.pow_le_pow_right (by norm_num) (Nat.le_add_right _ _))

theorem mul_eq_left_of_pos {s size : ℤ} (h : 0 < size) : s * size.sign = s := by
  rw [Int.sign_eq_one_of_pos h, mul_one]

/-- A quotient has the sign that the signs of its operands give. -/
theorem sign_quotient {a b : Decimal} (hb : b.coefficient ≠ 0) :
    (a.quotient b).coefficient.sign = a.coefficient.sign * b.coefficient.sign := by
  -- A dividend that is zero and a divisor that is one are cases of their own.
  unfold quotient
  split
  · rename_i hzero
    rw [a.toRat_eq_zero_iff.1 (a.isZero_iff.1 hzero), Int.sign_zero, zero_mul]
    rfl
  rename_i hzero
  split
  · rename_i hone
    have hvalue : b.toRat = 1 := ((b.equal_iff one).1 hone).trans toRat_one
    have hpos : 0 < b.coefficient := b.toRat_pos_iff.1 (hvalue ▸ one_pos)
    rw [Int.sign_eq_one_of_pos hpos, mul_one]
  · have hn : a.coefficient.natAbs ≠ 0 :=
      Int.natAbs_ne_zero.2 fun h => hzero (a.isZero_iff.2 (a.toRat_eq_zero_iff.2 h))
    have hm : 0 < b.coefficient.natAbs := Int.natAbs_pos.2 hb
    rw [Int.sign_mul, Int.sign_mul, Int.sign_sign, Int.sign_sign]
    apply mul_eq_left_of_pos
    exact_mod_cast Nat.add_pos_left (shifted_div_pos hn hm _) _

/-! ## The sign of a power -/

/-- The least word with a sign. -/
def leastWord : ℤ := -0x8000000000000000

/-- The size of an exponent is odd where the exponent is, and at the least word, whose size is not a
word. -/
theorem odd_size_iff {n : ℤ} (hn : Word.holdsSigned n = true) :
    Odd (min n.natAbs Word.greatestSigned) ↔ Odd n ∨ n = leastWord := by
  rw [Word.holdsSigned, decide_eq_true_iff] at hn
  by_cases hleast : n = leastWord
  · subst hleast
    exact iff_of_true (by decide) (.inr rfl)
  · have hsize : min n.natAbs Word.greatestSigned = n.natAbs := by
      unfold Word.greatestSigned leastWord at *
      omega
    rw [hsize, Int.natAbs_odd, or_iff_left hleast]

/-- What is kept of a coefficient, even if no digit is, has its sign or is zero. -/
theorem sign_kept {c unit : ℤ} (hunit : 0 < unit) (h : kept c unit ≠ 0) :
    (kept c unit).sign = c.sign := by
  rcases lt_trichotomy c 0 with hneg | rfl | hpos
  · -- A negative number has no carry, and is cut toward zero.
    have hrest : 0 ≤ (-c).tmod unit := Int.tmod_nonneg unit (by omega)
    have hcut : 0 ≤ (-c).tdiv unit := Int.tdiv_nonneg (by omega) hunit.le
    rw [Int.neg_tmod] at hrest
    rw [Int.neg_tdiv] at hcut
    have hkept : kept c unit = c.tdiv unit := by rw [kept, if_neg (by omega), add_zero]
    rw [Int.sign_eq_neg_one_of_neg hneg, Int.sign_eq_neg_one_of_neg (by omega)]
  · rw [kept, Int.zero_tdiv, Int.zero_tmod, if_neg (by omega)] at h
    exact absurd rfl h
  · have hcut : 0 ≤ c.tdiv unit := Int.tdiv_nonneg hpos.le hunit.le
    have hkept : 0 ≤ kept c unit := by
      rw [kept]
      split <;> omega
    rw [Int.sign_eq_one_of_pos hpos, Int.sign_eq_one_of_pos (by omega)]

theorem sign_keepDigits {digits : ℕ} {d : Decimal} (h : (d.keepDigits digits).coefficient ≠ 0) :
    (d.keepDigits digits).coefficient.sign = d.coefficient.sign := by
  by_cases hcut : digits < d.digitCount
  · rw [keepDigits_of_lt hcut] at h ⊢
    exact sign_kept (by positivity) h
  · rw [keepDigits, if_neg hcut]

theorem sign_product {digits : ℕ} {a b : Decimal}
    (h : ((a * b).keepDigits digits).coefficient ≠ 0) :
    ((a * b).keepDigits digits).coefficient.sign = a.coefficient.sign * b.coefficient.sign :=
  (sign_keepDigits h).trans (Int.sign_mul _ _)

/-- A product of the loop that is not zero has the sign of the power, however few digits are
kept. -/
theorem sign_squaring {digits n : ℕ} {result factor r : Decimal}
    (hrun : squaring digits (Nat.digits 2 n) result factor = .product r) (hr : r.coefficient ≠ 0) :
    r.coefficient.sign = result.coefficient.sign * factor.coefficient.sign ^ n := by
  refine squaring_induction (motive := fun n result factor outcome => ∀ r,
    outcome = .product r → r.coefficient ≠ 0 →
      r.coefficient.sign = result.coefficient.sign * factor.coefficient.sign ^ n)
    ?zero ?last ?above ?below ?more n result factor r hrun hr
  case zero =>
    intro result factor r heq _
    obtain rfl := Squaring.product.inj heq
    rw [pow_zero, mul_one]
  case last =>
    intro result factor r heq hr
    obtain rfl := Squaring.product.inj heq
    rw [pow_one]
    exact sign_product hr
  case above => exact fun _ _ _ _ _ _ => nofun
  case below => exact fun _ _ _ _ _ _ => nofun
  case more =>
    intro n result factor outcome hn ih r heq hr
    have hsign := ih r heq hr
    -- As the product is not zero, neither are the result and the square that it is made of.
    have hne : (multiplied digits (n % 2) result factor).coefficient.sign *
        (squared digits factor).coefficient.sign ^ (n / 2) ≠ 0 := by
      rw [← hsign]
      exact mt Int.sign_eq_zero_iff_zero.1 hr
    have hsquared : (squared digits factor).coefficient ≠ 0 := by
      intro hzero
      rw [hzero, Int.sign_zero, zero_pow (by omega), mul_zero] at hne
      exact hne rfl
    have hmultiplied : (multiplied digits (n % 2) result factor).coefficient.sign =
        result.coefficient.sign * factor.coefficient.sign ^ (n % 2) := by
      have hkept : (multiplied digits (n % 2) result factor).coefficient ≠ 0 := by
        intro hzero
        rw [hzero, Int.sign_zero, zero_mul] at hne
        exact hne rfl
      rcases Nat.mod_two_eq_zero_or_one n with hbit | hbit
      · rw [hbit, pow_zero, mul_one]
        rfl
      · rw [hbit] at hkept ⊢
        rw [pow_one]
        exact sign_product hkept
    calc r.coefficient.sign
        = result.coefficient.sign * factor.coefficient.sign ^ (n % 2) *
            (factor.coefficient.sign * factor.coefficient.sign) ^ (n / 2) := by
          rw [hsign, hmultiplied, squared, sign_product hsquared]
      _ = result.coefficient.sign * factor.coefficient.sign ^ n := by
          rw [← pow_two, ← pow_mul, mul_assoc, ← pow_add, add_comm, Nat.div_add_mod]

theorem pow_neg_iff_odd {b : ℤ} {n : ℕ} : b ^ n < 0 ↔ b < 0 ∧ Odd n := by
  rcases n.even_or_odd with heven | hodd
  · have hnonneg : ¬ b ^ n < 0 := not_lt.2 (heven.pow_nonneg b)
    exact iff_of_false hnonneg fun h => Nat.not_odd_iff_even.2 heven h.2
  · rw [hodd.pow_neg_iff, and_iff_left hodd]

theorem squaring_neg_iff {digits n : ℕ} {base r : Decimal}
    (hrun : squaring digits (Nat.digits 2 n) one base = .product r) (hr : r.toRat ≠ 0) :
    r.toRat < 0 ↔ base.toRat < 0 ∧ Odd n := by
  have hsign := sign_squaring hrun (mt r.toRat_eq_zero_iff.2 hr)
  have hone : one.coefficient.sign = 1 := rfl
  rw [hone, one_mul] at hsign
  rw [toRat_neg_iff, toRat_neg_iff, ← Int.sign_neg_iff, hsign, pow_neg_iff_odd, Int.sign_neg_iff]

/-- What is inverted is not zero, and the inverse has its sign. -/
theorem divide_one_neg_iff {a r : Decimal} (h : divide one a = .ok r) :
    a.toRat ≠ 0 ∧ (r.toRat < 0 ↔ a.toRat < 0) := by
  unfold divide at h
  split at h
  · cases h
  · rename_i hzero
    obtain rfl := Except.ok.inj h
    have hvalue : a.toRat ≠ 0 := mt a.isZero_iff.2 hzero
    refine ⟨hvalue, neg_iff_of_sign_eq ?_⟩
    rw [sign_quotient (mt a.toRat_eq_zero_iff.2 hvalue)]
    exact one_mul _

/-- A power that is not zero is negative exactly if the base is negative and the exponent is odd or
the least word: the size of the least word counts as one less, which is odd. -/
theorem power_neg_iff {base exponent r : Decimal} {n : ℤ} {precision : ℕ}
    (hexponent : exponent.toRat = n) (hn : Word.holdsSigned n = true)
    (hpower : power base exponent precision = .ok r) (hr : r.toRat ≠ 0) :
    r.toRat < 0 ↔ base.toRat < 0 ∧ (Odd n ∨ n = leastWord) := by
  rw [power_of_toRat hexponent hn, wholePower, Digits.reverse_ofNat le_rfl] at hpower
  rw [← odd_size_iff hn]
  -- A power outside the exponent range is zero or an error, also if it is inverted.
  split at hpower
  · rename_i result hrun
    split at hpower
    · obtain ⟨hresult, hinverse⟩ := divide_one_neg_iff hpower
      rw [hinverse, squaring_neg_iff hrun hresult]
    · obtain rfl := Except.ok.inj hpower
      exact squaring_neg_iff hrun hr
  · split at hpower
    · obtain rfl := Except.ok.inj hpower
      exact absurd toRat_zero hr
    · cases hpower
  · split at hpower
    · cases hpower
    · obtain rfl := Except.ok.inj hpower
      exact absurd toRat_zero hr

/-- `(-2) ^ (-3)` is negative. -/
theorem power_neg_eighth :
    (ofInt (-3)).toRat = ((-3 : ℤ) : ℚ) ∧ Word.holdsSigned (-3) = true ∧
      power (ofInt (-2)) (ofInt (-3)) 25 = .ok ⟨-125 * 10 ^ 97, 100⟩ ∧
      ((⟨-125 * 10 ^ 97, 100⟩ : Decimal).toRat < 0 ↔
        (ofInt (-2)).toRat < 0 ∧ (Odd (-3 : ℤ) ∨ -3 = leastWord)) := by
  have hpower : power (ofInt (-2)) (ofInt (-3)) 25 = .ok ⟨-125 * 10 ^ 97, 100⟩ := by rfl
  have hvalue : (⟨-125 * 10 ^ 97, 100⟩ : Decimal).toRat ≠ 0 := by norm_num [toRat]
  exact ⟨toRat_ofInt _, by decide, hpower, power_neg_iff (toRat_ofInt _) (by decide) hpower hvalue⟩

set_option maxRecDepth 4000 in
/-- The least word is even, but `-1` raised to it is negative. -/
theorem power_least_word :
    Word.holdsSigned leastWord = true ∧
      power (ofInt (-1)) (ofInt leastWord) 25 = .ok ⟨-10 ^ 99, 99⟩ ∧
      (⟨-10 ^ 99, 99⟩ : Decimal).toRat = -1 ∧
      ¬ ((⟨-10 ^ 99, 99⟩ : Decimal).toRat < 0 ↔ (ofInt (-1)).toRat < 0 ∧ Odd leastWord) := by
  have hvalue : (⟨-10 ^ 99, 99⟩ : Decimal).toRat = -1 := by norm_num [toRat]
  have heven : ¬ Odd leastWord := by decide
  refine ⟨by decide, by rfl, hvalue, ?_⟩
  intro hiff
  have hnegative : (⟨-10 ^ 99, 99⟩ : Decimal).toRat < 0 := by
    rw [hvalue]
    norm_num
  exact heven (hiff.1 hnegative).2

end Terse.Decimal
