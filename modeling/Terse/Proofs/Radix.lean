import Terse.Evaluation.Trailing
import Terse.Proofs.Reread
import Terse.Proofs.Runs

/-!
# Whole numbers in a radix

A number is written in a radix if it is whole, whatever its scale (`isWhole_iff`): zeros behind the
point do not count, and zeros that a negative scale stands for are written out.  What is written is
an optional minus sign and digits that denote the distance from zero (`exists_toRadix`), with zeros
in front of them up to the width.  Reading gives the number back (`ofRadix_digits`), so that a
conversion to a radix and back is exact at every precision.

That digits are read as what they denote is the same as for numerals (`Terse.Proofs.Reread`), in
another radix.  A base conversion is a list of codes that are applied one after the other
(`applyTrailing_base`): the code that writes fails for a number that is not whole, and then the
codes behind it are not applied.
-/

namespace Terse

namespace Decimal

/-! ## Whole numbers -/

theorem toRat_of_isWhole {d : Decimal} (h : d.isWhole = true) : d.toRat = d.wholePart := by
  rw [isWhole, Bool.or_eq_true, decide_eq_true_iff, beq_iff_eq] at h
  by_cases hscale : d.scale ≤ 0
  · rw [wholePart, if_pos hscale, toRat_eq_coefficientAt hscale, neg_zero, zpow_zero, mul_one]
  · -- all digits behind the point are zeros, so cutting them off is exact
    have hdvd := Int.dvd_of_emod_eq_zero (h.resolve_left hscale)
    have hexponent : -d.scale = -(d.scale.toNat : ℤ) := by omega
    have hunit : ((Digits.weight 10 d.scale.toNat : ℕ) : ℚ) = 10 ^ d.scale.toNat := by
      rw [Digits.weight, Nat.pow_eq, Nat.cast_pow, Nat.cast_ofNat]
    have hne : (10 : ℚ) ^ d.scale.toNat ≠ 0 := by positivity
    rw [wholePart, if_neg hscale, toRat, hexponent, zpow_neg, zpow_natCast]
    conv_lhs => rw [← Int.tdiv_mul_cancel hdvd]
    rw [Int.cast_mul, Int.cast_natCast, hunit, mul_inv_cancel_right₀ hne]

/-- The numbers that are recognized as whole are those that have an integer as their value. -/
theorem isWhole_iff (d : Decimal) : d.isWhole = true ↔ ∃ n : ℤ, d.toRat = n :=
  ⟨fun h => ⟨d.wholePart, toRat_of_isWhole h⟩, fun ⟨_, h⟩ => isWhole_of_toRat h⟩

/-! ## Writing and reading -/

/-- The sign that is written in front of an integer. -/
def signOf (n : ℤ) : List Char := if n < 0 then ['-'] else []

/-- A whole number is written with a sign and digits, at least as many as the width asks for. -/
theorem exists_toRadix {radix : ℕ} (hlow : 2 ≤ radix) (width : ℕ) {d : Decimal} {n : ℤ}
    (h : d.toRat = n) :
    ∃ digits : List ℕ, digits ≠ [] ∧ (∀ digit ∈ digits, digit < radix) ∧ width ≤ digits.length ∧
      Digits.value radix digits = n.natAbs ∧
      d.toRadix radix width = .ok (String.ofList (signOf n ++ digits.map Digits.toChar)) := by
  obtain ⟨digits, hne, hdigits, hchars, hvalue⟩ := Digits.exists_chars hlow n.natAbs
  refine ⟨List.replicate (width - digits.length) 0 ++ digits, by simp [hne], fun digit hdigit => ?_,
    ?_, ?_, ?_⟩
  · rcases List.mem_append.1 hdigit with hzero | hdigit
    · rw [List.eq_of_mem_replicate hzero]
      omega
    · exact hdigits digit hdigit
  · rw [List.length_append, List.length_replicate]
    omega
  · rw [Digits.value_append, Digits.value_replicate_zero, Nat.zero_mul, Nat.zero_add, hvalue]
  · rw [toRadix, if_pos (isWhole_of_toRat h)]
    simp only [wholePart_of_toRat h, hchars, Digits.padLeft_toChar, signOf]

theorem toRadix_of_fraction {d : Decimal} (h : ∀ n : ℤ, d.toRat ≠ n) (radix width : ℕ) :
    d.toRadix radix width = .error (.notWritable d radix) := by
  rw [toRadix, if_neg (mt d.isWhole_iff.1 (not_exists.2 h))]

/-- A sign and digits are read as the integer that they denote; no blanks stand around them. -/
theorem ofRadix_digits {radix : ℕ} (hhigh : radix ≤ 36) {digits : List ℕ} (hne : digits ≠ [])
    (hdigits : ∀ digit ∈ digits, digit < radix) {n : ℤ}
    (hvalue : Digits.value radix digits = n.natAbs) :
    ofRadix (String.ofList (signOf n ++ digits.map Digits.toChar)) radix = .ok (ofInt n) := by
  have hblank : ∀ c ∈ signOf n ++ digits.map Digits.toChar, Text.isBlank c = false := by
    intro c hc
    rcases List.mem_append.1 hc with hsign | hdigit
    · unfold signOf at hsign
      split at hsign
      · rw [List.mem_singleton.1 hsign]
        rfl
      · cases hsign
    · obtain ⟨digit, hmem, rfl⟩ := List.mem_map.1 hdigit
      exact (Digits.toChar_ne_sign digit ((hdigits digit hmem).trans_le hhigh)).2.2
  have hread := readInt?_digits hhigh hne hdigits (decide (n < 0))
  -- The sign that is written is that of the number.
  have hinteger : (if n < 0 then -(n.natAbs : ℤ) else n.natAbs) = n := by
    split <;> omega
  simp only [decide_eq_true_eq, hvalue, hinteger] at hread
  rw [ofRadix, Text.trim_ofList hblank, String.toList_ofList, signOf, hread]

end Decimal

/-! ## Base conversion -/

namespace Eval

variable {run : Evaluator} {position : Position} {settings : Settings} {M M' : Machine}
  {width radix : ℕ} {v : Value} {d : Decimal}

theorem convertBy_format {text : String} (hnumber : toNumber run v position settings M = .ok d M')
    (htext : d.toRadix radix width = .ok text) :
    convertBy run width position v (.format radix) settings M = .ok (.text text) M' := by
  simp only [convertBy]
  rw [bind_ok hnumber, htext]
  rfl

theorem convertBy_format_error {cause : Decimal.Misfit}
    (hnumber : toNumber run v position settings M = .ok d M')
    (hcause : d.toRadix radix width = .error cause) :
    convertBy run width position v (.format radix) settings M =
      .error (.fault (.mismatch (.misfit cause) position)) M' := by
  simp only [convertBy]
  rw [bind_ok hnumber, hcause]
  rfl

theorem convertBy_parse {text : String} (htext : Decimal.ofRadix text radix = .ok d) :
    convertBy run width position (.text text) (.parse radix) settings M = .ok (.number d) M := by
  simp only [convertBy, toText_text, pure_bind, htext]
  rfl

/-- The codes of a base conversion are applied from left to right. -/
theorem applyTrailing_base (codes : List BaseCode) :
    applyTrailing run .base (.base width codes) v position =
      codes.foldlM (convertBy run width position) v := rfl

end Eval

/-- A whole number of any scale is written in a radix as a sign and at least as many digits as the
width asks for, and read back from there as the same number; a conversion to the radix and back
gives that number, whatever the precision.  A number that is not whole is not written. -/
theorem radix_lossless {radix : ℕ} (hlow : 2 ≤ radix) (hhigh : radix ≤ 36) (width : ℕ)
    (d : Decimal) :
    (∀ n : ℤ, d.toRat = n → ∃ digits : List Char,
      let text := String.ofList ((if n < 0 then ['-'] else []) ++ digits)
      width ≤ digits.length ∧
      (∀ c ∈ digits, ∃ digit < radix, c = Digits.toChar digit) ∧
      d.toRadix radix width = .ok text ∧
      Decimal.ofRadix text radix = .ok (.ofInt n) ∧ (Decimal.ofInt n).equal d = true ∧
      ∀ run settings M M' v position, Eval.toNumber run v position settings M = .ok d M' →
        Eval.applyTrailing run .base (.base width [.format radix, .parse radix]) v position settings
          M = .ok (.number (.ofInt n)) M') ∧
    ((∀ n : ℤ, d.toRat ≠ n) →
      d.toRadix radix width = .error (.notWritable d radix) ∧
      ∀ run settings M M' v position codes, Eval.toNumber run v position settings M = .ok d M' →
        Eval.applyTrailing run .base (.base width (.format radix :: codes)) v position settings
          M = .error (.fault (.mismatch (.misfit (.notWritable d radix)) position)) M') := by
  refine ⟨fun n hn => ?_, fun hfraction => ?_⟩
  · obtain ⟨digits, hne, hdigits, hwidth, hvalue, hwrite⟩ := Decimal.exists_toRadix hlow width hn
    have hread := Decimal.ofRadix_digits hhigh hne hdigits hvalue
    refine ⟨digits.map Digits.toChar, by rwa [List.length_map], fun c hc => ?_, hwrite, hread, ?_,
      fun run settings M M' v position hnumber => ?_⟩
    · obtain ⟨digit, hdigit, rfl⟩ := List.mem_map.1 hc
      exact ⟨digit, hdigits digit hdigit, rfl⟩
    · rw [Decimal.equal_iff, Decimal.toRat_ofInt, hn]
    · rw [Eval.applyTrailing_base, List.foldlM_cons,
        Eval.bind_ok (Eval.convertBy_format hnumber hwrite), List.foldlM_cons,
        Eval.bind_ok (Eval.convertBy_parse hread)]
      rfl
  · have hwrite := Decimal.toRadix_of_fraction hfraction radix width
    refine ⟨hwrite, fun run settings M M' v position codes hnumber => ?_⟩
    rw [Eval.applyTrailing_base, List.foldlM_cons,
      Eval.bind_error (Eval.convertBy_format_error hnumber hwrite)]

/-- `-255.00` is written as `-00ff` and read back, with arithmetic of one digit; `25.5` is not
written. -/
theorem radix_lossless_hexadecimal :
    (⟨-25500, 2⟩ : Decimal).toRadix 16 4 = .ok "-00ff" ∧
      Decimal.ofRadix "-00ff" 16 = .ok (.ofInt (-255)) ∧
      (∀ run M, Eval.applyTrailing run .base (.base 4 [.format 16, .parse 16])
        (.number ⟨-25500, 2⟩) .start ⟨1, .empty, Dictionary.ofText "", 8⟩ M =
          .ok (.number (.ofInt (-255))) M) ∧
      (⟨255, 1⟩ : Decimal).toRadix 16 4 = .error (.notWritable ⟨255, 1⟩ 16) := by
  have hwhole : (⟨-25500, 2⟩ : Decimal).toRat = (-255 : ℤ) := by
    norm_num [Decimal.toRat]
  have hfraction : ∀ n : ℤ, (⟨255, 1⟩ : Decimal).toRat ≠ n := by
    intro n hn
    have := Decimal.isWhole_of_toRat hn
    revert this
    decide
  have hwrite : (⟨-25500, 2⟩ : Decimal).toRadix 16 4 = .ok "-00ff" := by decide
  obtain ⟨digits, -, -, htext, hread, -, hconvert⟩ :=
    (radix_lossless (by decide : 2 ≤ 16) (by decide) 4 ⟨-25500, 2⟩).1 (-255) hwhole
  obtain ⟨hrefused, -⟩ :=
    (radix_lossless (by decide : 2 ≤ 16) (by decide) 4 ⟨255, 1⟩).2 hfraction
  rw [← Except.ok.inj (hwrite.symm.trans htext)] at hread
  exact ⟨hwrite, hread, fun run M => hconvert run _ M M _ _ rfl, hrefused⟩

end Terse
