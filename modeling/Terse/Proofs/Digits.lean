import Mathlib.Data.Nat.Digits.Lemmas
import Mathlib.Tactic.Ring
import Terse.Decimal.Written

/-!
# Digits are read back

Writing a natural number in a radix and reading the digits gives the number again.  The digits are
written by halving their number: `padded` gives the last `2 ^ level` of them, which denote the
number modulo the power of the radix with that exponent.  They are the digits of `Nat.digits`.

* `value_padded` is by induction on the level.  The two halves are digits of the quotient and the
  remainder by the same power, and `value_append` puts them together.
* `levelFrom` looks for a level that suffices, up to one that does (`lt_levelFrom`).
* Zeros in front are dropped, which changes no value.  What is left has no zero in front, and so it
  is what `Nat.digits` gives, in the other direction (`reverse_ofNat`).
* A character stands for one digit in all radixes up to 36, so characters are read as the digits
  they were written for (`readUnsigned?_chars`).
-/

namespace Terse.Digits

variable {radix : Nat}

theorem value_append (radix : Nat) (first second : List Nat) :
    value radix (first ++ second) = value radix first * radix ^ second.length +
      value radix second := by
  -- Generalized to the value of the digits in front.
  have hfold : ∀ n, second.foldl (fun n digit => n * radix + digit) n =
      n * radix ^ second.length + value radix second := by
    induction second with
    | nil => simp [value]
    | cons digit rest ih =>
        intro n
        have hfirst := ih digit
        simp only [List.foldl_cons, List.length_cons, value, Nat.zero_mul, Nat.zero_add] at *
        rw [ih, hfirst]
        ring
  rw [value, List.foldl_append, hfold]
  rfl

theorem length_padded (radix level n : Nat) : (padded radix level n).length = 2 ^ level := by
  induction level generalizing n with
  | zero => rfl
  | succ level ih =>
      simp only [padded, List.length_append, ih]
      ring

/-- The last digits of a number denote it modulo a power of the radix. -/
theorem value_padded (radix level n : Nat) :
    value radix (padded radix level n) = n % radix ^ 2 ^ level := by
  induction level generalizing n with
  | zero => simp [padded, value]
  | succ level ih =>
      have hweight : weight radix (weight 2 level) = radix ^ 2 ^ level := rfl
      have hsquare : radix ^ 2 ^ (level + 1) = radix ^ 2 ^ level * radix ^ 2 ^ level := by
        rw [pow_succ, pow_mul, pow_two]
      simp only [padded, value_append, length_padded, ih, hweight]
      rw [Nat.mod_mod, hsquare, Nat.mod_mul, Nat.mul_comm]
      exact Nat.add_comm _ _

theorem padded_lt (hradix : 0 < radix) (level n : Nat) : ∀ d ∈ padded radix level n, d < radix := by
  induction level generalizing n with
  | zero =>
      intro d hd
      rw [List.mem_singleton.1 hd]
      exact Nat.mod_lt n hradix
  | succ level ih =>
      intro d hd
      rcases List.mem_append.1 hd with hd | hd
      · exact ih _ d hd
      · exact ih _ d hd

/-- The level that is found suffices, if one of those that are tried does. -/
theorem lt_levelFrom {n tries level : Nat} (h : n < radix ^ 2 ^ (level + tries)) :
    n < radix ^ 2 ^ levelFrom radix n tries level := by
  induction tries generalizing level with
  | zero => exact h
  | succ tries ih =>
      unfold levelFrom
      split
      · assumption
      · refine ih ?_
        rwa [Nat.add_assoc, Nat.add_comm 1 tries]

theorem value_dropWhile (radix : Nat) (digits : List Nat) :
    value radix (digits.dropWhile (· == 0)) = value radix digits := by
  induction digits with
  | nil => rfl
  | cons digit rest ih =>
      rw [List.dropWhile_cons]
      split
      · rename_i hzero
        rw [ih, eq_of_beq hzero]
        simp [value]
      · rfl

/-- The digits of a number denote it. -/
theorem value_ofNat (hradix : 2 ≤ radix) (n : Nat) : value radix (ofNat radix n) = n := by
  have hlevel : n < radix ^ 2 ^ (0 + (n.log2 + 1)) := by
    calc n < 2 ^ (n.log2 + 1) := Nat.lt_log2_self
      _ ≤ radix ^ (n.log2 + 1) := Nat.pow_le_pow_left hradix _
      _ ≤ radix ^ 2 ^ (0 + (n.log2 + 1)) := by
        rw [Nat.zero_add]
        exact Nat.pow_le_pow_right (by omega) (Nat.le_of_lt Nat.lt_two_pow_self)
  rw [ofNat, value_dropWhile, value_padded, Nat.mod_eq_of_lt (lt_levelFrom hlevel)]

theorem ofNat_lt (hradix : 2 ≤ radix) (n : Nat) : ∀ d ∈ ofNat radix n, d < radix :=
  fun d hd => padded_lt (by omega) _ _ d ((List.dropWhile_sublist _).subset hd)

/-! ## Digits in a radix are unique -/

theorem value_eq_ofDigits (radix : Nat) (digits : List Nat) :
    value radix digits = Nat.ofDigits radix digits.reverse := by
  induction digits using List.reverseRecOn with
  | nil => rfl
  | append_singleton digits digit ih =>
      rw [value_append, ih, List.reverse_append, List.reverse_singleton, List.singleton_append,
        Nat.ofDigits_cons]
      simp only [List.length_singleton, pow_one, value, List.foldl_cons, List.foldl_nil]
      ring

/-- The digits of a number, the least significant one first, are those of `Nat.digits`. -/
theorem reverse_ofNat (hradix : 2 ≤ radix) (n : Nat) :
    (ofNat radix n).reverse = Nat.digits radix n := by
  have hdigits : ∀ d ∈ (ofNat radix n).reverse, d < radix :=
    fun d hd => ofNat_lt hradix n d (List.mem_reverse.1 hd)
  have hlast : ∀ h : (ofNat radix n).reverse ≠ [], (ofNat radix n).reverse.getLast h ≠ 0 := by
    intro h
    rw [List.getLast_reverse]
    have hhead : ((ofNat radix n).head (List.reverse_ne_nil_iff.1 h) == 0) = false :=
      List.head_dropWhile_not (· == 0) (List.reverse_ne_nil_iff.1 h)
    exact ne_of_beq_false hhead
  -- Digits below the radix that do not end in a zero are determined by their value.
  have hunique := Nat.digits_ofDigits radix hradix _ hdigits hlast
  rw [← hunique, ← value_eq_ofDigits, value_ofNat hradix]

/-! ## Characters -/

theorem ofChar?_toChar : ∀ d < 36, ofChar? (toChar d) = some d ∧ toChar d ≠ '_' := by
  decide

theorem isDigit_toChar : ∀ d < 10, (toChar d).isDigit = true := by
  decide

theorem readDigits?_toChar (hradix : radix ≤ 36) {digits : List Nat}
    (hdigits : ∀ d ∈ digits, d < radix) :
    Decimal.readDigits? radix (digits.map toChar) = some digits := by
  induction digits with
  | nil => rfl
  | cons digit rest ih =>
      obtain ⟨hdigit, hrest⟩ := List.forall_mem_cons.1 hdigits
      obtain ⟨hchar, hmark⟩ := ofChar?_toChar digit (Nat.lt_of_lt_of_le hdigit hradix)
      simp [Decimal.readDigits?, hmark, hchar, hdigit, ih hrest]

/-- The characters of a number are read as the number. -/
theorem readUnsigned?_chars (hradix : 2 ≤ radix) (hradix' : radix ≤ 36) (n : Nat) :
    Decimal.readUnsigned? radix (chars radix n) = some n := by
  have hvalue := value_ofNat hradix n
  have hdigits := ofNat_lt hradix n
  unfold chars
  cases h : ofNat radix n with
  | nil =>
      rw [h] at hvalue
      have hzero : (0 : Nat) < radix := by omega
      rw [← hvalue]
      simp [Decimal.readUnsigned?, Decimal.readDigits?, ofChar?, value, hzero]
  | cons digit rest =>
      rw [h] at hvalue hdigits
      have hread := readDigits?_toChar hradix' hdigits
      obtain ⟨-, hmark⟩ := ofChar?_toChar digit (by have := hdigits digit List.mem_cons_self; omega)
      simp only [List.map_cons] at hread ⊢
      simp [Decimal.readUnsigned?, hread, hvalue, hmark]

theorem isDigit_chars (n : Nat) : ∀ c ∈ chars 10 n, c.isDigit = true := by
  unfold chars
  split
  · exact List.forall_mem_singleton.2 rfl
  · intro c hc
    obtain ⟨d, hd, rfl⟩ := List.mem_map.1 hc
    exact isDigit_toChar d (ofNat_lt (by decide) n d hd)

theorem readPlainDigits?_chars (n : Nat) : Decimal.readPlainDigits? (chars 10 n) = some n := by
  have hread := readUnsigned?_chars (by decide : 2 ≤ 10) (by decide) n
  have hne : chars 10 n ≠ [] := by
    intro hnil
    rw [hnil] at hread
    cases hread
  rw [Decimal.readPlainDigits?, if_neg, hread]
  simpa [hne] using isDigit_chars n

end Terse.Digits
