import Mathlib.Data.Nat.Choose.Factorization
import Terse.Proofs.Calls
import Terse.Proofs.Ranges

/-!
# The function `fact`

This builtin function is the program `*\1=>`: a fold with `*` of the range from one to the argument.
Each product is rounded, so what counts is not the number of digits of the factorial but that of
every factorial on the way: `1249!` has one significant digit more than `1250!`.  Where they all
have few digits, the function gives the factorial, or the error for a number beyond the range of
exponents.

* `fits_factor` says that the factors then have few digits too, so the range is exact.  A factorial
  has too many twos, and too few fives, to have so many trailing zeros.
* `computes_round` and `computes_factorial` are about one product and about all of them.
* `invoke_product` and `invoke_beyond` evaluate a call, where the range of the factors is within the
  range of exponents and where it is not.

## Strategy

A number with few significant digits is a small coefficient times a power of ten
(`fits_natCast_iff`).  Rounding leaves such a number as it is, so the range and the products are
exact.  `Computes` says of a result that it is a natural number or, if this is too large, the error.
It is shown of one product, and then of all of them by induction on the number of factors that are
left; an error at one factor is an error of the whole fold, as the factorials only grow.

The examples at the end show that the conditions are needed.  For `1250!` the digits of two
factorials are compared by evaluation, the others by the zeros that they share with a smaller one
(`fits_factorial_between`).
-/

namespace Terse

open Eval (outcome final)
open scoped Nat

namespace Decimal

/-! ## The significant digits of factorials -/

/-- The significant digits of a natural number are those in front of its trailing zeros. -/
theorem fits_natCast_iff {digits m : ℕ} :
    FitsDigits digits (m : ℚ) ↔ ∃ c zeros, c < 10 ^ digits ∧ m = c * 10 ^ zeros := by
  constructor
  · rintro ⟨c, e, hc, hvalue⟩
    have hsize : c.natAbs < 10 ^ digits := by
      rw [Int.abs_eq_natAbs] at hc
      exact_mod_cast hc
    have hunit : (0 : ℚ) < 10 ^ e := zpow_pos (by norm_num) e
    have habs : (m : ℚ) = c.natAbs * 10 ^ e := by
      rw [← Nat.abs_cast m, hvalue, abs_mul, abs_of_pos hunit, Nat.cast_natAbs, Int.cast_abs]
    rcases le_or_gt 0 e with he | he
    · obtain ⟨zeros, rfl⟩ := Int.eq_ofNat_of_zero_le he
      exact ⟨c.natAbs, zeros, hsize, by exact_mod_cast habs⟩
    · -- the number itself is no larger than the coefficient
      have hle : m ≤ c.natAbs := by
        have hsmall : (10 : ℚ) ^ e ≤ 1 := zpow_le_one_of_nonpos₀ (by norm_num) he.le
        have hproduct := mul_le_of_le_one_right (Nat.cast_nonneg c.natAbs) hsmall
        exact_mod_cast habs.trans_le hproduct
      exact ⟨m, 0, hle.trans_lt hsize, by simp⟩
  · rintro ⟨c, zeros, hc, rfl⟩
    refine ⟨c, zeros, ?_, by push_cast; rw [zpow_natCast]⟩
    rw [Nat.abs_cast]
    exact_mod_cast hc

theorem fits_of_lt {digits m : ℕ} (h : m < 10 ^ digits) : FitsDigits digits (m : ℚ) :=
  fits_natCast_iff.2 ⟨m, 0, h, by simp⟩

theorem fits_factorial_of_le {digits n e k : ℕ} (hn : n < 10 ^ e) (hdigits : e * n < digits)
    (hk : k ≤ n) : FitsDigits digits (k ! : ℚ) := by
  refine fits_of_lt ?_
  calc
    k ! ≤ n ! := Nat.factorial_le hk
    _ ≤ n ^ n := Nat.factorial_le_pow n
    _ ≤ (10 ^ e) ^ n := Nat.pow_le_pow_left hn.le n
    _ = 10 ^ (e * n) := (pow_mul _ _ _).symm
    _ < 10 ^ digits := Nat.pow_lt_pow_right (by norm_num) hdigits

theorem ten_pow_le_factorial (e : ℕ) : 10 ^ e ≤ (9 + e)! := calc
  10 ^ e ≤ 9 ! * (9 + 1) ^ e := Nat.le_mul_of_pos_left _ (Nat.factorial_pos 9)
  _ ≤ (9 + e)! := Nat.factorial_mul_pow_le_factorial

/-- Between two factorials, those trailing zeros that the first of them has do not count. -/
theorem fits_factorial_between (zeros : ℕ) {digits a b k : ℕ} (hzeros : 10 ^ zeros ∣ a !)
    (hb : b ! < 10 ^ (digits + zeros)) (hak : a ≤ k) (hkb : k ≤ b) :
    FitsDigits digits (k ! : ℚ) := by
  obtain ⟨c, hc⟩ := hzeros.trans (Nat.factorial_dvd_factorial hak)
  have hsize := (Nat.factorial_le hkb).trans_lt hb
  rw [hc, pow_add, mul_comm (10 ^ digits)] at hsize
  exact fits_natCast_iff.2
    ⟨c, zeros, lt_of_mul_lt_mul_left hsize (Nat.zero_le _), hc.trans (mul_comm _ _)⟩

theorem two_pow_dvd_factorial (n : ℕ) : 2 ^ (7 * n) ∣ (8 * n)! := by
  induction n with
  | zero => exact one_dvd _
  | succ n ih =>
      have hblock : 2 ^ 7 ∣ 8 ! := by decide
      rw [Nat.mul_succ, Nat.mul_succ, pow_add]
      exact (mul_dvd_mul ih hblock).trans (Nat.factorial_mul_factorial_dvd_factorial_add _ _)

theorem le_of_five_pow_dvd_factorial {n k : ℕ} (h : 5 ^ k ∣ (8 * n)!) : k ≤ 2 * n := by
  have hfives :=
    (Nat.prime_five.pow_dvd_iff_le_factorization (Nat.factorial_ne_zero (8 * n))).1 h
  have hbound := Nat.factorization_factorial_le_div_pred Nat.prime_five (8 * n)
  omega

theorem not_fits_factorial (digits : ℕ) : ¬ FitsDigits digits ((8 * digits)! : ℚ) := by
  rw [fits_natCast_iff]
  rintro ⟨c, zeros, hc, hvalue⟩
  have hzeros : zeros ≤ 2 * digits := by
    refine le_of_five_pow_dvd_factorial (hvalue ▸ Dvd.dvd.mul_left ?_ c)
    exact pow_dvd_pow_of_dvd (by norm_num) zeros
  -- the zeros use up some of the twos, and the others remain in the coefficient
  have htwos : 2 ^ (7 * digits - zeros) ∣ c := by
    have hdvd := two_pow_dvd_factorial digits
    rw [hvalue, show 10 = 5 * 2 from rfl, mul_pow, ← mul_assoc,
      ← Nat.sub_add_cancel (show zeros ≤ 7 * digits by omega), pow_add] at hdvd
    refine Nat.Coprime.dvd_of_dvd_mul_right ?_ (Nat.dvd_of_mul_dvd_mul_right (by positivity) hdvd)
    exact Nat.Coprime.pow _ _ (by decide)
  have hpos : 0 < c := by
    refine Nat.pos_of_ne_zero fun hzero => Nat.factorial_ne_zero (8 * digits) ?_
    rw [hvalue, hzero, zero_mul]
  have hten : 10 ^ digits ≤ 2 ^ (7 * digits - zeros) := calc
    10 ^ digits ≤ (2 ^ 5) ^ digits := Nat.pow_le_pow_left (by norm_num) digits
    _ = 2 ^ (5 * digits) := (pow_mul 2 5 digits).symm
    _ ≤ 2 ^ (7 * digits - zeros) := Nat.pow_le_pow_right (by norm_num) (by omega)
  exact absurd hc (not_lt.2 (hten.trans (Nat.le_of_dvd hpos htwos)))

/-- Where all factorials up to some number have few significant digits, so have the numbers. -/
theorem fits_factor {digits n k : ℕ} (h : ∀ j ≤ n, FitsDigits digits (j ! : ℚ)) (hk : k ≤ n) :
    FitsDigits digits (k : ℚ) := by
  refine fits_of_lt (lt_of_not_ge fun hlong => not_fits_factorial digits (h _ ?_))
  -- A factor that is too long is larger than the number whose factorial does not fit.
  have hpower : 10 * digits ≤ 10 ^ digits := Nat.mul_le_pow (by decide) digits
  omega

/-! ## The range of exponents -/

theorem ten_zpow_maxExponent : (10 : ℚ) ^ maxExponent = (10 ^ maxExponent.toNat : ℕ) := by
  rw [Nat.cast_pow, ← zpow_natCast]
  rfl

theorem natCast_lt_of_lt {n e : ℕ} (h : n < 10 ^ e) (he : (e : ℤ) ≤ maxExponent) :
    (n : ℚ) < 10 ^ maxExponent := by
  have hpower : (n : ℚ) < 10 ^ (e : ℤ) := by
    rw [zpow_natCast]
    exact_mod_cast h
  exact hpower.trans_le (zpow_le_zpow_right₀ (by norm_num) he)

theorem inRange_of_lt {d : Decimal} {n : ℕ} (h : d.toRat = n) (hlt : (n : ℚ) < 10 ^ maxExponent) :
    d.inRange = true := by
  have hten : (1 : ℚ) < 10 := by norm_num
  rcases Nat.eq_zero_or_pos n with rfl | hpos
  · have hzero : d.magnitude = 0 := by
      rw [magnitude, if_pos (d.isZero_iff.2 (by simpa using h))]
    rw [inRange, hzero]
    rfl
  · have hone : (1 : ℚ) ≤ n := by exact_mod_cast hpos
    have hspec := magnitude_spec (d := d) (by rw [h]; exact_mod_cast hpos.ne')
    rw [h, Nat.abs_cast] at hspec
    have hmin : 0 < d.magnitude := by
      rw [← zpow_lt_zpow_iff_right₀ hten, zpow_zero]
      exact hone.trans_lt hspec.2
    have hmax : d.magnitude - 1 < maxExponent := by
      rw [← zpow_lt_zpow_iff_right₀ hten]
      exact hspec.1.trans_lt hlt
    rw [inRange, decide_eq_true_iff]
    omega

theorem bounded_of_le {d : Decimal} (h : 10 ^ maxExponent ≤ d.toRat) :
    d.bounded = .error .tooLarge := by
  have hpos : (0 : ℚ) < d.toRat := (zpow_pos (by norm_num) _).trans_le h
  have hlarge : maxExponent < d.magnitude := by
    rw [← zpow_lt_zpow_iff_right₀ (show (1 : ℚ) < 10 by norm_num)]
    exact (h.trans (le_abs_self _)).trans_lt (magnitude_spec hpos.ne').2
  rw [bounded, if_pos hlarge]

/-- A result of arithmetic is a natural number, or too large if the number is. -/
structure Computes (result : Except Fault Decimal) (n : ℕ) : Prop where
  exact_of_lt : (n : ℚ) < 10 ^ maxExponent → ∃ d, result = .ok d ∧ d.toRat = n
  error_of_le : 10 ^ maxExponent ≤ (n : ℚ) → result = .error .tooLarge

/-- A natural number is rounded to itself if it has few significant digits. -/
theorem toRat_round_natural {precision n : ℕ} {d : Decimal} (h : d.toRat = n)
    (hfits : FitsDigits precision (n : ℚ)) : (d.round precision).toRat = n := by
  rw [toRat_round_of_fits, h]
  rw [h]
  exact hfits.mono (le_max_left _ _)

theorem computes_round {precision n : ℕ} {d : Decimal} (h : d.toRat = n)
    (hfits : FitsDigits precision (n : ℚ)) : Computes (d.round precision).bounded n := by
  have hround := toRat_round_natural h hfits
  exact ⟨fun hlt => ⟨_, bounded_of_inRange (inRange_of_lt hround hlt), hround⟩,
    fun hle => bounded_of_le (hround ▸ hle)⟩

end Decimal

/-! ## What the source is read as -/

namespace Builtin

/-- The range `1=>`, from one to the argument. -/
def upToArgument : Node := .binary .closedRange (.numeral "1" ⟨1, 3⟩) (argument 4) .none ⟨1, 4⟩

/-- What `*\1=>` is read as. -/
def factorialBody : Node :=
  lone (.leading .fold upToArgument
    (.fold none (some (BinaryOp.multiply.combinator ⟨1, 1⟩ ⟨1, 2⟩))) ⟨1, 2⟩) 1 1

theorem function?_factorial {input : Value} {scope : Scope}
    (hscope : startScope input = .ok scope) :
    scope.function? "fact" = some ⟨[implicitName], factorialBody⟩ :=
  @function?_of_startScope input scope hscope ⟨"fact", ["_"], .source "*\\1=>"⟩ (by simp [all])
    factorialBody rfl

end Builtin

namespace Eval

open Builtin Decimal

variable {settings : Settings} {M N : Machine} {d : Nat} {position : Position} {x : Decimal}

/-! ## The factors -/

theorem nested_one (settings : Settings) (N : Machine) :
    nested (d + 1) (.numeral "1" position) settings N = .ok (.number .one) N := by
  have hround : Decimal.one.round settings.precision = .one := by
    refine (reduced_round _ _).eq_of_toRat_eq (.inr (by decide)) (toRat_round_of_fits ?_)
    have hfits : FitsDigits 1 Decimal.one.toRat := ⟨1, 0, by norm_num, by simp⟩
    exact hfits.mono (le_max_right _ _)
  show number .one position settings N = _
  rw [number_of_inRange (by rw [hround]; rfl), hround]

theorem nested_upToArgument (settings : Settings) (h : Holds N (.number x)) :
    nested (d + 2) upToArgument settings N = range .one x true ⟨1, 4⟩ settings N := by
  rw [upToArgument, nested_strict rfl (nested_one settings N) (nested_argument h 4)]
  simp only [applyBinary, toNumber_number, pure_bind]
  rfl

theorem nested_factorialBody_error {halt : Halt} {N' : Machine}
    (hrange : nested (d + 2) upToArgument settings N = .error halt N') :
    nested (d + 4) factorialBody settings N = .error halt N' := by
  rw [factorialBody, nested_lone]
  exact bind_error hrange

/-- Natural numbers with few significant digits are elements of a range as they are. -/
theorem toRat_element {precision k i : ℕ} {start : Decimal} (hstart : start.toRat = k)
    (hfits : FitsDigits precision ((k + i : ℕ) : ℚ)) :
    ((start + .ofInt i).round precision).toRat = (k + i : ℕ) :=
  toRat_round_natural (by simp [hstart]) hfits

theorem one_natural : Decimal.one.toRat = (1 : ℕ) := by simp

theorem toRat_rangeNumbers {precision k m : ℕ} {start : Decimal} (hstart : start.toRat = k)
    (hfits : ∀ j < k + m, FitsDigits precision (j : ℚ)) :
    (rangeNumbers precision start m).map toRat = (List.range' k m).map Nat.cast := by
  rw [rangeNumbers, List.range'_eq_map_range, List.map_map, List.map_map]
  refine List.map_congr_left fun i hi => toRat_element hstart (hfits _ ?_)
  exact Nat.add_lt_add_left (List.mem_range.1 hi) k

section

variable {n : ℕ} (hx : x.toRat = n) (hfits : ∀ k ≤ n, FitsDigits settings.precision (k : ℚ))
include hx

theorem rangeCount_natural : rangeCount true Decimal.one.toRat x.toRat = n := by
  have hfloor : ⌊(n : ℚ) - 1⌋ = n - 1 := by
    rw [Int.floor_sub_one, Int.floor_natCast]
  simp [rangeCount, hx, hfloor]

include hfits

theorem range_natural (position : Position) (N : Machine) (hn : (n : ℚ) < 10 ^ maxExponent) :
    range .one x true position settings N =
      .ok (.array ((rangeNumbers settings.precision .one n).map .number)) N := by
  have hcount := rangeCount_natural hx
  have hloop : rangeFrom x true position (stepsBeyond .one x) .one [] settings N =
      .ok ((rangeNumbers settings.precision .one n).map .number) N := by
    refine rangeFrom_eq [] (hcount ▸ rangeCount_le_stepsBeyond true .one x)
      (hcount ▸ precedes_iff true Decimal.one.toRat x.toRat) fun i hi => ?_
    have hle : 1 + i ≤ n := by omega
    refine inRange_of_lt (toRat_element one_natural (hfits _ hle)) (lt_of_le_of_lt ?_ hn)
    exact_mod_cast hle
  rw [range, bind_ok hloop]
  rfl

theorem range_beyond (position : Position) (N : Machine) (hn : 10 ^ maxExponent ≤ (n : ℚ)) :
    range .one x true position settings N =
      .error (.fault (.arithmetic .tooLarge position)) N := by
  -- the element that fails is the least number beyond the range of exponents
  obtain ⟨m, hm⟩ : ∃ m : ℕ, (10 : ℚ) ^ maxExponent = (1 + m : ℕ) := by
    refine ⟨10 ^ maxExponent.toNat - 1, ?_⟩
    rw [Nat.add_sub_cancel' (Nat.one_le_pow _ _ (by norm_num)), ten_zpow_maxExponent]
  rw [hm, Nat.cast_le] at hn
  have hcount := rangeCount_natural hx
  have hloop : rangeFrom x true position (stepsBeyond .one x) .one [] settings N =
      .error (.fault (.arithmetic .tooLarge position)) N := by
    refine rangeFrom_error (n := m) []
      (Nat.lt_of_lt_of_le (by omega) (rangeCount_le_stepsBeyond true .one x))
      (fun i hi => (precedes_iff true _ _ i).2 (by omega)) (fun i hi => ?_) (bounded_of_le ?_)
    · refine inRange_of_lt (toRat_element one_natural (hfits _ (by omega))) (hm ▸ ?_)
      exact_mod_cast Nat.add_lt_add_left hi 1
    · exact (hm.trans (toRat_element one_natural (hfits _ hn)).symm).le
  rw [range, bind_error hloop]

end

/-! ## The product -/

theorem toRat_mul_factorial {k : ℕ} {a b : Decimal} (ha : a.toRat = k !)
    (hb : b.toRat = (k + 1 : ℕ)) : (a * b).toRat = (k + 1)! := by
  rw [toRat_mul, ha, hb, Nat.factorial_succ, Nat.cast_mul, mul_comm]

/-- Each product is the next factorial, as long as these have few significant digits. -/
theorem computes_factorial {precision m : ℕ} :
    ∀ {k : ℕ} {first : Decimal} {rest : List Decimal}, first.toRat = k ! →
      rest.map toRat = (List.range' (k + 1) m).map Nat.cast →
      (∀ j ≤ k + m, FitsDigits precision (j ! : ℚ)) → (k ! : ℚ) < 10 ^ maxExponent →
      Computes (roundedFold precision (· * ·) first rest) (k + m)! := by
  -- by the number of factors left; what was multiplied so far is a factorial within the range
  induction m with
  | zero =>
      intro k first rest hfirst hrest _ hsize
      obtain rfl : rest = [] := by simpa using hrest
      exact ⟨fun _ => ⟨first, rfl, hfirst⟩, fun hle => absurd hsize (not_lt.2 hle)⟩
  | succ m ih =>
      intro k first rest hfirst hrest hfits hsize
      rw [List.range'_succ, List.map_cons, List.map_eq_cons_iff] at hrest
      obtain ⟨next, rest, rfl, hnext, hrest⟩ := hrest
      have hstep : Computes ((first * next).round precision).bounded (k + 1)! :=
        computes_round (toRat_mul_factorial hfirst hnext) (hfits _ (by omega))
      have hindex : k + (m + 1) = k + 1 + m := by omega
      rw [roundedFold, List.foldlM_cons, hindex]
      -- Within the range the fold goes on with this product; beyond it, all later factorials are
      -- too.
      rcases lt_or_ge ((k + 1)! : ℚ) (10 ^ maxExponent) with hlt | hge
      · obtain ⟨product, hproduct, hvalue⟩ := hstep.exact_of_lt hlt
        rw [hproduct]
        exact ih hvalue hrest (hindex ▸ hfits) hlt
      · rw [hstep.error_of_le hge]
        refine ⟨fun hlt => absurd (hge.trans ?_) (not_le.2 hlt), fun _ => rfl⟩
        exact_mod_cast Nat.factorial_le (Nat.le_add_right (k + 1) m)

/-- The product of the numbers from one to `m + 1`, rounded at each step. -/
def roundedProduct (precision m : Nat) : Except Fault Decimal :=
  roundedFold precision (· * ·) (Decimal.one.round precision)
    (rangeNumbers precision (.one + .one) m)

theorem computes_product {precision m : ℕ}
    (hfits : ∀ j ≤ m + 1, FitsDigits precision (j ! : ℚ)) :
    Computes (roundedProduct precision m) (m + 1)! := by
  rw [Nat.add_comm] at hfits ⊢
  have hfirst := toRat_round_natural one_natural (fits_factor hfits (Nat.le_add_right 1 m))
  refine computes_factorial hfirst ?_ hfits (natCast_lt_of_lt (e := 1) (by decide) (by decide))
  exact toRat_rangeNumbers (by norm_num) fun j hj => fits_factor hfits (by omega)

/-! ## Calls -/

section

variable {name : String}
  (hfunction : M.scope.function? name = some ⟨[implicitName], factorialBody⟩)
include hfunction

/-- A call multiplies the factors, if these are within the range of exponents. -/
theorem invoke_product {m : ℕ} (hx : x.toRat = (m + 1 : ℕ))
    (hfits : ∀ k ≤ m + 1, FitsDigits settings.precision (k : ℚ))
    (hsize : ((m + 1 : ℕ) : ℚ) < 10 ^ maxExponent) (position : Position) :
    let call := invoke (nested (d + 4)) name [.number x] position
    outcome call settings M = ((roundedProduct settings.precision m).map Value.number).mapError
        (.fault <| .arithmetic · ⟨1, 1⟩) ∧
      SameBindings M.scope (final call settings M).scope := by
  intro call
  have hrange := range_natural hx hfits ⟨1, 4⟩
    { M with scope := M.scope.set implicitName (.number x) } hsize
  rw [rangeNumbers_succ, ← nested_upToArgument settings (holds_argument M (.number x))] at hrange
  have hop : .multiply ∈ [BinaryOp.power, .multiply, .divide, .modulo, .add, .subtract] := by simp
  obtain ⟨scope, hscope, -, hbody⟩ :=
    nested_numberFold (d := d) hop (fun _ _ => rfl) ⟨1, 1⟩ ⟨1, 2⟩ hrange
  rw [← nested_lone _ 1 1, ← factorialBody, rescope_ofArithmetic] at hbody
  exact invoke_arithmetic hfunction position hscope hbody

/-- A call ends with an error where the factors are not within the range of exponents. -/
theorem invoke_beyond {n : ℕ} (hx : x.toRat = n)
    (hfits : ∀ k ≤ n, FitsDigits settings.precision (k : ℚ))
    (hsize : 10 ^ maxExponent ≤ (n : ℚ)) (position : Position) :
    let call := invoke (nested (d + 4)) name [.number x] position
    outcome call settings M = .error (.fault (.arithmetic .tooLarge ⟨1, 4⟩)) ∧
      SameBindings M.scope (final call settings M).scope := by
  intro call
  have hrange := range_beyond hx hfits ⟨1, 4⟩
    { M with scope := M.scope.set implicitName (.number x) } hsize
  rw [← nested_upToArgument (d := d) settings (holds_argument M (.number x))] at hrange
  have hbody : nested (d + 4) factorialBody settings
      { M with scope := M.scope.set implicitName (.number x) } =
        ofArithmetic (.error .tooLarge) ⟨1, 4⟩ settings
          { M with scope := M.scope.set implicitName (.number x) } :=
    nested_factorialBody_error hrange
  exact invoke_arithmetic hfunction position (.refl _) hbody

/-- A call gives the factorial, where this and those in front of it have few significant digits. -/
theorem invoke_factorial {n : ℕ} (hx : x.toRat = n) (hn : n ≠ 0)
    (hfits : ∀ k ≤ n, FitsDigits settings.precision (k ! : ℚ)) (position : Position) :
    let call := invoke (nested (d + 4)) name [.number x] position
    ((n ! : ℚ) < 10 ^ maxExponent →
        ∃ m, outcome call settings M = .ok (.number m) ∧ m.toRat = n !) ∧
      (10 ^ maxExponent ≤ (n ! : ℚ) →
        ∃ place, outcome call settings M = .error (.fault (.arithmetic .tooLarge place))) ∧
      SameBindings M.scope (final call settings M).scope := by
  intro call
  have hfactors (k : ℕ) (hk : k ≤ n) : FitsDigits settings.precision (k : ℚ) := fits_factor hfits hk
  -- If the argument itself is beyond the range, the range of the factors fails in front of the
  -- fold.
  rcases lt_or_ge (n : ℚ) (10 ^ maxExponent) with hlt | hge
  · obtain ⟨m, rfl⟩ := Nat.exists_eq_succ_of_ne_zero hn
    obtain ⟨houtcome, hsame⟩ := invoke_product (d := d) hfunction hx hfactors hlt position
    have hproduct := computes_product hfits
    refine ⟨fun hsize => ?_, fun hsize => ?_, hsame⟩
    · obtain ⟨result, hresult, hvalue⟩ := hproduct.exact_of_lt hsize
      rw [hresult] at houtcome
      exact ⟨result, houtcome, hvalue⟩
    · rw [hproduct.error_of_le hsize] at houtcome
      exact ⟨_, houtcome⟩
  · obtain ⟨houtcome, hsame⟩ := invoke_beyond (d := d) hfunction hx hfactors hge position
    refine ⟨fun hsize => absurd (hge.trans ?_) (not_le.2 hsize), fun _ => ⟨_, houtcome⟩, hsame⟩
    exact_mod_cast n.self_le_factorial

end

/-! ## Where the products are rounded -/

theorem roundedProduct_succ (precision m : Nat) :
    roundedProduct precision (m + 1) =
      (roundedProduct precision m).bind fun product =>
        ((product * (Decimal.one + .one + .ofInt m).round precision).round precision).bounded := by
  rw [roundedProduct, rangeNumbers, List.range_succ, List.map_append, roundedFold,
    List.foldlM_append]
  refine congrArg _ (funext fun product => ?_)
  simp

/-- What the products with `1249` and with `1250` come to, and how long the factorials are. -/
theorem around_1250 :
    let product := (Decimal.ofInt (1249 ! : ℕ)).round 3019
    let result := (product * .ofInt 1250).round 3019
    (product.inRange = true ∧ result.inRange = true ∧
        result.equal (.ofInt (1250 ! : ℕ)) = false) ∧
      1059 ! < 10 ^ 3019 ∧ (10 ^ 263 ∣ 1060 ! ∧ 1234 ! < 10 ^ (3019 + 263)) ∧
      (10 ^ 306 ∣ 1235 ! ∧ 1248 ! < 10 ^ (3019 + 306)) ∧
      10 ^ 312 ∣ 1250 ! ∧ 1250 ! < 10 ^ (3019 + 312) := by
  decide +kernel

theorem fits_factor_1250 {k : ℕ} (hk : k ≤ 1250) : FitsDigits 3019 (k : ℚ) := by
  have hfour : FitsDigits 4 (k : ℚ) := fits_of_lt (by omega)
  exact hfour.mono (by decide)

theorem fits_factorial_1248 {k : ℕ} (hk : k ≤ 1248) : FitsDigits 3019 (k ! : ℚ) := by
  obtain ⟨-, hfirst, ⟨hsecond, hsecond'⟩, ⟨hthird, hthird'⟩, -⟩ := around_1250
  rcases Nat.lt_or_ge k 1060 with hsmall | hlarge
  · exact fits_of_lt ((Nat.factorial_le (Nat.le_of_lt_succ hsmall)).trans_lt hfirst)
  rcases Nat.lt_or_ge k 1235 with hsmall | hlast
  · exact fits_factorial_between 263 hsecond hsecond' hlarge (Nat.le_of_lt_succ hsmall)
  · exact fits_factorial_between 306 hthird hthird' hlast hk

/-- The product with `1249` has a digit too many, and with it the last digit that `1250!` has is
lost. -/
theorem exists_product_1250 : ∃ m, roundedProduct 3019 1249 = .ok m ∧ m.toRat ≠ 1250 ! := by
  obtain ⟨⟨hproduct, hresult, hequal⟩, -, -, ⟨-, hsize⟩, -⟩ := around_1250
  obtain ⟨r, hr, hvalue⟩ := (computes_product (m := 1247) fun _ => fits_factorial_1248).exact_of_lt
    (natCast_lt_of_lt hsize (by decide))
  have htwo : (Decimal.one + .one).toRat = (2 : ℕ) := by norm_num
  have hstep : (r * (Decimal.one + .one + .ofInt (1247 : ℕ)).round 3019).round 3019 =
      (Decimal.ofInt (1249 ! : ℕ)).round 3019 := by
    refine round_congr ?_ _
    have hnext := toRat_element htwo (i := 1247) (fits_factor_1250 (by decide))
    exact (toRat_mul_factorial hvalue hnext).trans (toRat_ofInt _).symm
  have hlast (a : Decimal) : (a * (Decimal.one + .one + .ofInt (1248 : ℕ)).round 3019).round 3019 =
      (a * .ofInt 1250).round 3019 := by
    refine round_congr ?_ _
    rw [toRat_mul, toRat_mul, toRat_element htwo (fits_factor_1250 (by decide)), toRat_ofInt]
    rfl
  refine ⟨((Decimal.ofInt (1249 ! : ℕ)).round 3019 * .ofInt 1250).round 3019, ?_, fun hvalue => ?_⟩
  · rw [roundedProduct_succ, roundedProduct_succ, hr]
    simp only [Except.bind, hstep, bounded_of_inRange hproduct, hlast, bounded_of_inRange hresult]
  · rw [Bool.eq_false_iff, ne_eq, equal_iff, toRat_ofInt] at hequal
    exact hequal (hvalue.trans (Int.cast_natCast _).symm)

/-- The range from one to zero has no elements, and a fold of none is the empty text. -/
theorem invoke_zero {name : String}
    (hfunction : M.scope.function? name = some ⟨[implicitName], Builtin.factorialBody⟩) :
    outcome (invoke (nested (d + 4)) name [.number .zero] position) settings M = .ok .empty := by
  have hfits (k : ℕ) (hk : k ≤ 0) : FitsDigits settings.precision (k : ℚ) :=
    fits_of_lt (hk.trans_lt (by positivity))
  have hzero : Decimal.zero.toRat = (0 : ℕ) := by simp
  have hrange := range_natural hzero hfits ⟨1, 4⟩
    { M with scope := M.scope.set implicitName (.number .zero) }
    (natCast_lt_of_lt (e := 0) (by decide) (by decide))
  refine (invoke_of_body hfunction position ?_).1
  have hbody := (nested_upToArgument (d := d) settings
    (holds_argument M (.number .zero))).trans hrange
  rw [Builtin.factorialBody, nested_lone]
  exact bind_ok hbody

end Eval

/-- Wherever a session has got to, as long as the builtin functions are what they were, `fact` of a
natural number from one on is its factorial, if no factorial up to it has more significant digits
than the precision.  It is the error for numbers that are too large if the factorial is beyond the
range of exponents.  What the caller has bound does not change.  Zero is left out: there are no
factors to multiply, and a fold of no elements is the empty text. -/
theorem factorial_of_natural (precision : Nat) (input : Value) (dictionary : Dictionary)
    (output : Output) :
    ∃ session, Session.start precision input dictionary output = .ok session ∧
      ∀ (M : Machine) (x : Decimal) (n : ℕ) (position : Position),
        (∀ name, M.scope.function? name = session.machine.scope.function? name) →
        x.toRat = n → n ≠ 0 → (∀ k ≤ n, Decimal.FitsDigits precision (k ! : ℚ)) →
        let call := Eval.invoke session.evaluator "fact" [.number x] position
        ((n ! : ℚ) < 10 ^ Decimal.maxExponent →
          ∃ m, outcome call session.settings M = .ok (.number m) ∧ m.toRat = n !) ∧
        (10 ^ Decimal.maxExponent ≤ (n ! : ℚ) →
          ∃ place, outcome call session.settings M =
            .error (.fault (.arithmetic .tooLarge place))) ∧
        SameBindings M.scope (final call session.settings M).scope := by
  obtain ⟨session, d, hstart, hrun, hprecision, hscope⟩ :=
    Session.exists_start precision input dictionary output
  refine ⟨session, hstart, fun M x n position hfunctions hx hn hfits => ?_⟩
  have hfunction := (hfunctions "fact").trans (Builtin.function?_factorial hscope)
  rw [hrun]
  exact Eval.invoke_factorial (d := d + 4) hfunction hx hn (hprecision ▸ hfits) position

/-- With twenty digits, the factorial of `25`: it has twenty-six, the last six of them zeros. -/
theorem factorial_twenty_five : (∀ k ≤ 25, Decimal.FitsDigits 20 (k ! : ℚ)) ∧ ∃ session,
    Session.start 20 .empty (Dictionary.ofText "") .unlimited = .ok session ∧
      ∃ m, outcome (Eval.invoke session.evaluator "fact" [.number (.ofInt 25)] .start)
          session.settings session.machine = .ok (.number m) ∧
        m.toRat = 15511210043330985984000000 := by
  have hfits (k : ℕ) (hk : k ≤ 25) : Decimal.FitsDigits 20 (k ! : ℚ) := by
    rcases Nat.lt_or_ge k 22 with hsmall | hlarge
    · exact Decimal.fits_factorial_between 0 (one_dvd 0 !) (by decide) (Nat.zero_le k)
        (Nat.le_of_lt_succ hsmall)
    rcases Nat.lt_or_ge k 25 with hsmall | hlast
    · exact Decimal.fits_factorial_between 4 (by decide) (by decide) hlarge
        (Nat.le_of_lt_succ hsmall)
    · exact Decimal.fits_factorial_between 6 (by decide) (by decide) hlast hk
  obtain ⟨session, hstart, hsession⟩ :=
    factorial_of_natural 20 .empty (Dictionary.ofText "") .unlimited
  have hvalue : 25 ! = 15511210043330985984000000 := by decide
  obtain ⟨hexact, -⟩ := hsession session.machine (.ofInt 25) 25 .start (fun _ => rfl) (by simp)
    (by decide) hfits
  rw [hvalue] at hexact
  refine ⟨hfits, session, hstart, ?_⟩
  exact_mod_cast hexact (Decimal.natCast_lt_of_lt (show _ < 10 ^ 26 by decide) (by decide))

/-- The factorial of zero is not one.  Nor is it enough that the factorial itself has few
significant digits, or that the precision is large: products are rounded on the way, and the range
of exponents is the same for every precision. -/
theorem factorial_inexact :
    (∃ session, Session.start 50 .empty (Dictionary.ofText "") .unlimited = .ok session ∧
      outcome (Eval.invoke session.evaluator "fact" [.number .zero] .start) session.settings
        session.machine = .ok .empty) ∧
    (Decimal.FitsDigits 3019 (1250 ! : ℚ) ∧ ∃ session,
      Session.start 3019 .empty (Dictionary.ofText "") .unlimited = .ok session ∧
        ∃ m, outcome (Eval.invoke session.evaluator "fact" [.number (.ofInt 1250)] .start)
          session.settings session.machine = .ok (.number m) ∧ m.toRat ≠ 1250 !) ∧
    (Decimal.FitsDigits 700000 (100009 ! : ℚ) ∧ ∃ session,
      Session.start 700000 .empty (Dictionary.ofText "") .unlimited = .ok session ∧
        ∃ place, outcome (Eval.invoke session.evaluator "fact" [.number (.ofInt 100009)] .start)
          session.settings session.machine = .error (.fault (.arithmetic .tooLarge place))) := by
  have hexpected : Decimal.FitsDigits 3019 (1250 ! : ℚ) := by
    obtain ⟨-, -, -, -, hzeros, hsize⟩ := Eval.around_1250
    exact Decimal.fits_factorial_between 312 hzeros hsize le_rfl le_rfl
  have hfits (k : ℕ) (hk : k ≤ 100009) : Decimal.FitsDigits 700000 (k ! : ℚ) :=
    Decimal.fits_factorial_of_le (show 100009 < 10 ^ 6 by decide) (by decide) hk
  refine ⟨?_, ⟨hexpected, ?_⟩, hfits _ le_rfl, ?_⟩
  · obtain ⟨session, d, hstart, hrun, -, hscope⟩ :=
      Session.exists_start 50 .empty (Dictionary.ofText "") .unlimited
    refine ⟨session, hstart, ?_⟩
    rw [hrun]
    exact Eval.invoke_zero (d := d + 4) (Builtin.function?_factorial hscope)
  · obtain ⟨session, d, hstart, hrun, hprecision, hscope⟩ :=
      Session.exists_start 3019 .empty (Dictionary.ofText "") .unlimited
    have hsize : ((1250 : ℕ) : ℚ) < 10 ^ Decimal.maxExponent :=
      Decimal.natCast_lt_of_lt (e := 4) (by decide) (by decide)
    obtain ⟨m, hproduct, hvalue⟩ := Eval.exists_product_1250
    obtain ⟨houtcome, -⟩ := Eval.invoke_product (d := d + 4) (m := 1249)
      (Builtin.function?_factorial hscope) (Decimal.toRat_ofInt 1250)
      (fun k hk => hprecision ▸ Eval.fits_factor_1250 hk) hsize .start
    rw [hprecision, hproduct] at houtcome
    refine ⟨session, hstart, m, ?_, hvalue⟩
    rw [hrun]
    exact houtcome
  · obtain ⟨session, d, hstart, hrun, hprecision, hscope⟩ :=
      Session.exists_start 700000 .empty (Dictionary.ofText "") .unlimited
    obtain ⟨-, hlarge, -⟩ := Eval.invoke_factorial (d := d + 4) (n := 100009)
      (Builtin.function?_factorial hscope) (Decimal.toRat_ofInt 100009) (by decide)
      (hprecision ▸ hfits) .start
    refine ⟨session, hstart, ?_⟩
    rw [hrun]
    refine hlarge ?_
    rw [Decimal.ten_zpow_maxExponent, Nat.cast_le]
    exact Decimal.ten_pow_le_factorial _

end Terse
