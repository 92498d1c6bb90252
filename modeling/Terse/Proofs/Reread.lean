import Mathlib.Data.List.TakeWhile
import Terse.Evaluation.Coercion
import Terse.Proofs.Digits
import Terse.Proofs.Rational

/-!
# Numbers are read back from their text

`plain` writes a sign, digits and at most one point.  `positional?` reads such a text whatever the
number of digits behind the point, and `parseChars?` is that reading with a bound on the number
(`parseChars?_eq`).  Hence a text in positional notation denotes one value:

* Reading what is written for a number gives its value (`positional?_written`), so numbers with one
  text are equal.
* Equal numbers have one normal form, so they have one text.

A text in positional notation has no blanks around it and no exponent, so that every way to read a
number from a text, and every comparison of a number with a text, goes through `positional?`.

## Strategy

Writing and reading meet in a list of digits.  On one side, what is written for a number has the
characters of digits, around a point or without one (`pointed_digits`): zeros are put in front of
the digits of the coefficient where the point would stand in front of them, and behind the digits
where the scale is negative.  On the other side, the characters of digits are read as the number
that they denote (`positional?_digits`).  Zeros in front change no value, and each zero behind the
digits multiplies it by ten, which is what the scale says.
-/

namespace Terse

namespace Digits

theorem value_replicate_zero (radix count : Nat) : value radix (List.replicate count 0) = 0 := by
  induction count with
  | zero => rfl
  | succ count ih =>
      rw [List.replicate_succ]
      simpa [value] using ih

/-- The characters of a number are digits that denote it. -/
theorem exists_chars {radix : Nat} (hradix : 2 ≤ radix) (n : Nat) :
    ∃ digits, digits ≠ [] ∧ (∀ d ∈ digits, d < radix) ∧ chars radix n = digits.map toChar ∧
      value radix digits = n := by
  have hvalue := value_ofNat hradix n
  have hdigits := ofNat_lt hradix n
  unfold chars
  cases h : ofNat radix n with
  | nil =>
      have hzero : ∀ d ∈ [0], d < radix := List.forall_mem_singleton.2 (by omega)
      rw [h] at hvalue
      exact ⟨[0], List.cons_ne_nil _ _, hzero, rfl, (Nat.zero_mul radix).trans hvalue⟩
  | cons digit rest =>
      rw [h] at hvalue hdigits
      exact ⟨digit :: rest, List.cons_ne_nil _ _, hdigits, rfl, hvalue⟩

/-- Zeros in front of digits are digits too. -/
theorem padLeft_toChar (length : Nat) (digits : List Nat) :
    Decimal.padLeft length (digits.map toChar) =
      (List.replicate (length - digits.length) 0 ++ digits).map toChar := by
  rw [Decimal.padLeft, List.length_map, List.map_append, List.map_replicate]
  rfl

/-- No digit of any radix is a sign or a blank. -/
theorem toChar_ne_sign : ∀ d < 36, toChar d ≠ '-' ∧ toChar d ≠ '+' ∧
    Text.isBlank (toChar d) = false := by
  decide

/-- No digit is a sign, a point, a mark or a blank. -/
theorem toChar_ne : ∀ d < 10, toChar d ≠ '-' ∧ toChar d ≠ '+' ∧ toChar d ≠ '_' ∧
    toChar d ≠ '.' ∧ Decimal.isExponentMark (toChar d) = false ∧
    Text.isBlank (toChar d) = false := by
  decide

end Digits

namespace Text

theorem dropWhile_isBlank {cs : List Char} (h : ∀ c ∈ cs, isBlank c = false) :
    cs.dropWhile isBlank = cs := by
  cases cs with
  | nil => rfl
  | cons c cs => rw [List.dropWhile_cons_of_neg (by simp [h c List.mem_cons_self])]

/-- A text without blanks is not trimmed. -/
theorem trim_ofList {cs : List Char} (h : ∀ c ∈ cs, isBlank c = false) :
    trim (String.ofList cs) = String.ofList cs := by
  rw [trim, String.toList_ofList, trimChars, dropWhile_isBlank h, dropWhile_isBlank,
    List.reverse_reverse]
  exact fun c hc => h c (List.mem_reverse.1 hc)

end Text

namespace Decimal

/-! ## Positional notation -/

/-- Reads a number in positional notation, whatever the number of digits behind the point. -/
def positional? (cs : List Char) : Option Decimal :=
  let trail := (cs.dropWhile (· != '.')).drop 1
  (readInt? 10 (cs.takeWhile (· != '.') ++ trail)).map
    (⟨·, ((trail.filter (· != '_')).length : Int)⟩)

/-- Without an exponent a number is read by its positional notation, if its scale is a word. -/
theorem parseChars?_eq {cs : List Char} (h : ∀ c ∈ cs, isExponentMark c = false) :
    parseChars? cs = (positional? cs).filter (Word.holdsSigned ·.scale) := by
  have htake : cs.takeWhile (!isExponentMark ·) = cs :=
    List.takeWhile_eq_self_iff.2 fun c hc => by rw [h c hc, Bool.not_false]
  have hdrop : cs.dropWhile (!isExponentMark ·) = [] :=
    List.dropWhile_eq_nil_iff.2 fun c hc => by rw [h c hc, Bool.not_false]
  simp only [parseChars?, positional?, htake, hdrop, Option.bind_eq_bind, Option.bind_some,
    sub_zero]
  cases readInt? 10 (cs.takeWhile (· != '.') ++ (cs.dropWhile (· != '.')).drop 1) with
  | none => rfl
  | some coefficient => rw [Option.bind_some, Option.map_some, Option.filter_some]

theorem readInt?_of_ne {radix : Nat} {c : Char} {cs : List Char} (hminus : c ≠ '-')
    (hplus : c ≠ '+') :
    readInt? radix (c :: cs) = (readUnsigned? radix (c :: cs)).map Int.ofNat := by
  have hnat : readNat? radix (c :: cs) = readUnsigned? radix (c :: cs) := by
    unfold readNat?
    split
    · rename_i heq
      exact absurd (List.cons.inj heq).1 hplus
    · rfl
  unfold readInt?
  split
  · rename_i heq
    exact absurd (List.cons.inj heq).1 hminus
  · rw [hnat]

section

variable {radix : Nat} (hradix : radix ≤ 36) {digits : List Nat} (hne : digits ≠ [])
  (hdigits : ∀ d ∈ digits, d < radix)
include hradix hne hdigits

/-- Digits are read as the number that they denote. -/
theorem readUnsigned?_digits :
    readUnsigned? radix (digits.map Digits.toChar) = some (Digits.value radix digits) := by
  obtain ⟨digit, rest, rfl⟩ := List.exists_cons_of_ne_nil hne
  have hdigit := hdigits digit List.mem_cons_self
  obtain ⟨-, hmark⟩ := Digits.ofChar?_toChar digit (by omega)
  rw [readUnsigned?, if_neg (by simpa using hmark),
    Digits.readDigits?_toChar hradix hdigits, Option.map_some]

/-- A sign and digits are read as the integer that they denote. -/
theorem readInt?_digits (negative : Bool) :
    readInt? radix ((if negative then ['-'] else []) ++ digits.map Digits.toChar) =
      some (if negative then -(Digits.value radix digits : ℤ) else Digits.value radix digits) := by
  have hunsigned := readUnsigned?_digits hradix hne hdigits
  obtain ⟨digit, rest, rfl⟩ := List.exists_cons_of_ne_nil hne
  have hdigit := hdigits digit List.mem_cons_self
  obtain ⟨hminus, hplus, -⟩ := Digits.toChar_ne_sign digit (by omega)
  rw [List.map_cons] at hunsigned ⊢
  cases negative with
  | true =>
      rw [if_pos rfl, if_pos rfl, List.singleton_append, readInt?, hunsigned]
      rfl
  | false =>
      rw [if_neg Bool.false_ne_true, if_neg Bool.false_ne_true, List.nil_append,
        readInt?_of_ne hminus hplus, hunsigned]
      rfl

end

/-- Characters around a point are put together, with the number of those behind it as the scale. -/
theorem positional?_point {whole fraction : List Char} (hwhole : ∀ c ∈ whole, (c != '.') = true)
    (hfraction : ∀ c ∈ fraction, (c != '_') = true) :
    positional? (whole ++ ('.' :: fraction)) =
      (readInt? 10 (whole ++ fraction)).map (⟨·, fraction.length⟩) := by
  have htake : (whole ++ ('.' :: fraction)).takeWhile (· != '.') = whole := by
    rw [List.takeWhile_append_of_pos hwhole]
    simp
  have hdrop : ((whole ++ ('.' :: fraction)).dropWhile (· != '.')).drop 1 = fraction := by
    rw [List.dropWhile_append_of_pos hwhole]
    rfl
  simp only [positional?, htake, hdrop, List.filter_eq_self.2 hfraction]

/-- Without a point the scale is zero. -/
theorem positional?_whole {whole : List Char} (hwhole : ∀ c ∈ whole, (c != '.') = true) :
    positional? whole = (readInt? 10 whole).map (⟨·, 0⟩) := by
  have htake : whole.takeWhile (· != '.') = whole := List.takeWhile_eq_self_iff.2 hwhole
  have hdrop : whole.dropWhile (· != '.') = [] := List.dropWhile_eq_nil_iff.2 hwhole
  simp only [positional?, htake, hdrop, List.drop_nil, List.append_nil]
  rfl

/-- Digits around a point, or digits alone, are read with the digits behind the point as the
scale. -/
theorem positional?_digits (negative : Bool) {whole fraction : List Nat}
    (hne : whole ++ fraction ≠ []) (hwhole : ∀ d ∈ whole, d < 10)
    (hfraction : ∀ d ∈ fraction, d < 10) {point : List Char}
    (hpoint : point = ['.'] ∨ point = [] ∧ fraction = []) :
    positional? ((if negative then ['-'] else []) ++ (whole.map Digits.toChar ++
        (point ++ fraction.map Digits.toChar))) =
      some ⟨if negative then -(Digits.value 10 (whole ++ fraction) : ℤ)
        else Digits.value 10 (whole ++ fraction), fraction.length⟩ := by
  have hdigits : ∀ d ∈ whole ++ fraction, d < 10 :=
    fun d hd => (List.mem_append.1 hd).elim (hwhole d) (hfraction d)
  have hread := readInt?_digits (by decide) hne hdigits negative
  rw [List.map_append, ← List.append_assoc] at hread
  have hlead : ∀ c ∈ (if negative then ['-'] else []) ++ whole.map Digits.toChar,
      (c != '.') = true := by
    intro c hc
    rw [bne_iff_ne]
    rcases List.mem_append.1 hc with hc | hc
    · cases negative <;> simp_all
    · obtain ⟨d, hd, rfl⟩ := List.mem_map.1 hc
      exact (Digits.toChar_ne d (hwhole d hd)).2.2.2.1
  have htrail : ∀ c ∈ fraction.map Digits.toChar, (c != '_') = true := by
    intro c hc
    obtain ⟨d, hd, rfl⟩ := List.mem_map.1 hc
    exact bne_iff_ne.2 (Digits.toChar_ne d (hfraction d hd)).2.2.1
  rw [← List.append_assoc]
  rcases hpoint with rfl | ⟨rfl, rfl⟩
  · rw [List.singleton_append, positional?_point hlead htrail, hread, Option.map_some,
      List.length_map]
  · simp only [List.map_nil, List.append_nil] at hread ⊢
    rw [positional?_whole hlead, hread, Option.map_some]
    rfl

/-- What is written for a number: digits, or digits around a point, that denote its coefficient with
the zeros that its scale asks for. -/
theorem pointed_digits {digits : List Nat} (hne : digits ≠ []) (hdigits : ∀ d ∈ digits, d < 10)
    (places : ℤ) :
    ∃ whole fraction point, pointed (digits.map Digits.toChar) places =
        whole.map Digits.toChar ++ (point ++ fraction.map Digits.toChar) ∧
      whole ≠ [] ∧ (∀ d ∈ whole, d < 10) ∧ (∀ d ∈ fraction, d < 10) ∧
      (point = ['.'] ∨ point = [] ∧ fraction = []) ∧ fraction.length = places.toNat ∧
      Digits.value 10 (whole ++ fraction) = Digits.value 10 digits * 10 ^ (-places).toNat := by
  -- Zeros are added behind the digits or in front of them, depending on the sign of the scale.
  have hpadded : ∀ count, ∀ d ∈ List.replicate count 0 ++ digits, d < 10 := by
    intro count d hd
    rcases List.mem_append.1 hd with hd | hd
    · rw [List.eq_of_mem_replicate hd]
      decide
    · exact hdigits d hd
  unfold pointed
  split
  · rename_i hplaces
    refine ⟨digits ++ List.replicate (-places).toNat 0, [], [], ?_, by simp [hne], ?_, by simp,
      .inr ⟨rfl, rfl⟩, by rw [List.length_nil]; omega, ?_⟩
    · simp only [List.map_append, List.map_replicate, List.map_nil, List.append_nil]
      rfl
    · intro d hd
      exact hpadded (-places).toNat d (by simpa [or_comm] using hd)
    · rw [List.append_nil, Digits.value_append, Digits.value_replicate_zero, List.length_replicate,
        Nat.add_zero]
  · rename_i hplaces
    -- With the zeros in front there is a digit in front of the point.
    set full := List.replicate (places.toNat + 1 - digits.length) 0 ++ digits with hfull
    have hpad : padLeft (places.toNat + 1) (digits.map Digits.toChar) = full.map Digits.toChar :=
      Digits.padLeft_toChar _ digits
    have hlength : places.toNat + 1 ≤ full.length := by
      rw [hfull, List.length_append, List.length_replicate]
      omega
    have hvalue : Digits.value 10 full = Digits.value 10 digits := by
      rw [hfull, Digits.value_append, Digits.value_replicate_zero, Nat.zero_mul, Nat.zero_add]
    have hmem := hpadded (places.toNat + 1 - digits.length)
    refine ⟨full.take (full.length - places.toNat), full.drop (full.length - places.toNat), ['.'],
      ?_, ?_, fun d hd => hmem d (List.mem_of_mem_take hd),
      fun d hd => hmem d (List.mem_of_mem_drop hd), .inl rfl, ?_, ?_⟩
    · simp only [hpad, List.length_map, List.map_take, List.map_drop, List.singleton_append]
    · rw [ne_eq, List.take_eq_nil_iff, not_or, ← List.length_eq_zero_iff]
      omega
    · rw [List.length_drop]
      omega
    · rw [List.take_append_drop, hvalue]
      have : (-places).toNat = 0 := by omega
      rw [this, pow_zero, Nat.mul_one]

/-- A number is read back from its positional notation, with the digits behind the point as its
scale. -/
theorem positional?_written (d : Decimal) :
    ∃ m, positional? (d.signChars ++ pointed d.digitChars d.scale) = some m ∧
      m.toRat = d.toRat ∧ m.scale = d.scale.toNat := by
  obtain ⟨digits, hne, hdigits, hchars, hvalue⟩ :=
    Digits.exists_chars (by decide : 2 ≤ 10) d.coefficient.natAbs
  obtain ⟨whole, fraction, point, hpointed, hne', hwhole, hfraction, hpoint, hlength, hvalue'⟩ :=
    pointed_digits hne hdigits d.scale
  have hread := positional?_digits d.isNegative (by simp [hne']) hwhole hfraction hpoint
  rw [hvalue', hvalue, hlength] at hread
  rw [signChars, digitChars, hchars, hpointed]
  refine ⟨_, hread, ?_, rfl⟩
  -- The sign is written apart from the digits, and the zeros behind them are a negative scale.
  have hcoefficient : (if d.isNegative then
      -((d.coefficient.natAbs * 10 ^ (-d.scale).toNat : ℕ) : ℤ)
        else ((d.coefficient.natAbs * 10 ^ (-d.scale).toNat : ℕ) : ℤ)) =
      d.coefficient * 10 ^ (-d.scale).toNat := by
    unfold isNegative
    push_cast
    split
    · rename_i hneg
      rw [abs_of_neg (of_decide_eq_true hneg)]
      ring
    · rename_i hneg
      rw [abs_of_nonneg (by simpa using hneg)]
  have hscale : -d.scale = ((-d.scale).toNat : ℤ) + -(d.scale.toNat : ℤ) := by omega
  rw [hcoefficient, toRat, toRat]
  conv_rhs => rw [hscale, zpow_add₀ (by norm_num), zpow_natCast]
  push_cast
  ring

theorem mem_written (d : Decimal) {c : Char} (h : c ∈ d.signChars ++ pointed d.digitChars d.scale) :
    c = '-' ∨ c = '.' ∨ ∃ digit < 10, c = Digits.toChar digit := by
  obtain ⟨digits, hne, hdigits, hchars, -⟩ :=
    Digits.exists_chars (by decide : 2 ≤ 10) d.coefficient.natAbs
  obtain ⟨whole, fraction, point, hpointed, -, hwhole, hfraction, hpoint, -, -⟩ :=
    pointed_digits hne hdigits d.scale
  rw [signChars, digitChars, hchars, hpointed] at h
  simp only [List.mem_append, List.mem_map] at h
  rcases h with h | ⟨digit, hdigit, rfl⟩ | h | ⟨digit, hdigit, rfl⟩
  · left
    split at h
    · exact List.mem_singleton.1 h
    · cases h
  · exact .inr (.inr ⟨digit, hwhole digit hdigit, rfl⟩)
  · right
    left
    rcases hpoint with rfl | ⟨rfl, -⟩
    · exact List.mem_singleton.1 h
    · cases h
  · exact .inr (.inr ⟨digit, hfraction digit hdigit, rfl⟩)

/-- What is written has neither an exponent nor blanks. -/
theorem plain_of_mem_written (d : Decimal) {c : Char}
    (h : c ∈ d.signChars ++ pointed d.digitChars d.scale) :
    isExponentMark c = false ∧ Text.isBlank c = false := by
  rcases d.mem_written h with rfl | rfl | ⟨digit, hdigit, rfl⟩
  · decide
  · decide
  · exact (Digits.toChar_ne digit hdigit).2.2.2.2

/-! ## Texts of numbers -/

/-- Normalizing does not write more digits behind the point. -/
theorem scale_normalize_le (d : Decimal) : d.normalize.scale ≤ max d.scale 0 := by
  by_cases h : d.coefficient = 0
  · rw [normalize, if_pos (d.isZero_iff.2 (d.toRat_eq_zero_iff.2 h))]
    exact le_max_right _ _
  · obtain ⟨zeros, -, hscale, -⟩ := normalize_spec h
    omega

/-- A number of which the digits behind the point can be counted is read back from its text. -/
theorem parse?_plain {d : Decimal} (hscale : d.scale ≤ Word.greatestSigned) :
    ∃ m, parse? d.plain = some m ∧ m.toRat = d.toRat := by
  obtain ⟨m, hread, hvalue, hm⟩ := d.normalize.positional?_written
  have hword : Word.holdsSigned m.scale = true := by
    have hle := d.scale_normalize_le
    rw [Word.holdsSigned, decide_eq_true_iff]
    unfold Word.greatestSigned at *
    omega
  refine ⟨m, ?_, hvalue.trans d.toRat_normalize⟩
  rw [parse?, plain, String.toList_ofList,
    parseChars?_eq fun c hc => (d.normalize.plain_of_mem_written hc).1, hread, Option.filter_some,
    if_pos hword]

theorem trim_plain (d : Decimal) : Text.trim d.plain = d.plain :=
  Text.trim_ofList fun _ hc => (d.normalize.plain_of_mem_written hc).2

/-- A number in the exponent range is read back from its text. -/
theorem ofText?_plain {d : Decimal} (hrange : d.inRange = true)
    (hscale : d.scale ≤ Word.greatestSigned) :
    ∃ m, ofText? d.plain = some m ∧ m.toRat = d.toRat := by
  obtain ⟨m, hparse, hvalue⟩ := parse?_plain hscale
  have hne : d.plain ≠ "" := by
    intro hempty
    rw [hempty] at hparse
    cases hparse
  refine ⟨m, ?_, hvalue⟩
  rw [ofText?, trim_plain]
  simp only [if_neg hne, hparse, Option.some_or, Option.filter_some,
    inRange_congr hvalue, hrange, if_true]

/-- Numbers have one text exactly if they have one value. -/
theorem plain_eq_iff (a b : Decimal) : a.plain = b.plain ↔ a.toRat = b.toRat := by
  constructor
  · intro h
    obtain ⟨m, hread, hvalue, -⟩ := a.normalize.positional?_written
    obtain ⟨m', hread', hvalue', -⟩ := b.normalize.positional?_written
    have hchars : a.normalize.signChars ++ pointed a.normalize.digitChars a.normalize.scale =
        b.normalize.signChars ++ pointed b.normalize.digitChars b.normalize.scale :=
      String.ofList_injective h
    rw [hchars, hread'] at hread
    obtain rfl := Option.some.inj hread
    rw [← a.toRat_normalize, ← b.toRat_normalize, ← hvalue, ← hvalue']
  · intro h
    unfold plain
    rw [(normalize_eq_iff a b).2 h]

end Decimal

/-! ## Texts where numbers are needed -/

namespace Eval

variable (run : Evaluator)

theorem toText_text (text : String) : toText run (.text text) = pure text := by
  funext settings
  show textWithin run settings.depth (.text text) settings = _
  cases settings.depth <;> rfl

theorem toText_number (d : Decimal) : toText run (.number d) = pure d.plain := by
  funext settings
  show textWithin run settings.depth (.number d) settings = _
  cases settings.depth <;> rfl

theorem toNumber_text {text : String} {d : Decimal} (h : Decimal.ofText? text = some d)
    (position : Position) : toNumber run (.text text) position = pure d := by
  funext settings
  show numberWithin run position settings.depth (.text text) settings = _
  cases settings.depth <;> simp only [numberWithin, h]

end Eval

/-- A number in the exponent range, whose scale is a word as all scales are, is not changed on its
way through its text: the text is a number of the same value, is loosely equal to the number in
either order, and gives the value where a number is needed.  Two numbers have one text exactly if
they have one value. -/
theorem number_text_lossless :
    (∀ d : Decimal, d.inRange = true → d.scale ≤ Word.greatestSigned →
      ∃ m : Decimal, m.toRat = d.toRat ∧ (Value.text d.plain).asNumber? = some m ∧
        (Value.number d).looseEq (.text d.plain) = true ∧
        (Value.text d.plain).looseEq (.number d) = true ∧
        ∀ run position, Eval.toText run (.number d) = pure d.plain ∧
          Eval.toNumber run (.text d.plain) position = pure m) ∧
    ∀ a b : Decimal, a.plain = b.plain ↔ a.toRat = b.toRat := by
  refine ⟨?_, Decimal.plain_eq_iff⟩
  intro d hrange hscale
  obtain ⟨m, hread, hvalue⟩ := Decimal.ofText?_plain hrange hscale
  have hequal : m.equal d = true := (m.equal_iff d).2 hvalue
  refine ⟨m, hvalue, hread, ?_, ?_, ?_⟩
  · rw [Value.looseEq, hread, Option.any_some, hequal]
  · rw [Value.looseEq, hread, Option.any_some, hequal]
  · exact fun run position => ⟨Eval.toText_number run d, Eval.toNumber_text run hread position⟩

/-- `-0.012500` is written without its last zeros, and equal to what is written. -/
theorem number_text_fraction :
    (⟨-12500, 6⟩ : Decimal).inRange = true ∧ (6 : ℤ) ≤ Word.greatestSigned ∧
      (⟨-12500, 6⟩ : Decimal).plain = "-0.0125" ∧
      (Value.number ⟨-12500, 6⟩).looseEq (.text "-0.0125") = true ∧
      (Value.text "-0.0125").looseEq (.number ⟨-12500, 6⟩) = true := by
  have hrange : (⟨-12500, 6⟩ : Decimal).inRange = true := by decide
  have hplain : (⟨-12500, 6⟩ : Decimal).plain = "-0.0125" := by decide
  obtain ⟨m, -, -, hleft, hright, -⟩ :=
    number_text_lossless.1 ⟨-12500, 6⟩ hrange (by decide)
  rw [hplain] at hleft hright
  exact ⟨hrange, by decide, hplain, hleft, hright⟩

end Terse
