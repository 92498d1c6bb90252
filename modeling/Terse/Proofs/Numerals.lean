import Mathlib.Tactic.FieldSimp
import Terse.Evaluation.Node
import Terse.Proofs.Coverage
import Terse.Proofs.Reread

/-!
# Numerals and the numbers they spell

A `Numeral` is a number as a program spells it: a sign, a mantissa of digits with an optional
fraction, and an optional exponent, or a sign and a bare exponent.  Its fields carry what makes it
well-formed, so that every numeral has a `value`.

Three readers meet here.  The numeral rule takes exactly the characters of a numeral off the front
of a text (`exists_numeral`), `numeral?` reads these characters as the value (`numeral?_text`,
`parseChars?_usual`), and `ofText?`, which first tries the usual spelling of numbers, either fails
in that attempt or finds the same number (`parseChars?_chars`).

## Strategy

Programs write `_` for a minus sign, and may leave the mantissa out in front of an exponent.
`numeral?` rewrites this into the usual spelling and hands it to the reader of numbers.  So `usual`
is the spelling to compare with:

* `spell_unsignedChars`: rewriting the characters of a numeral gives its usual spelling;
* `parseChars?_usual`: the usual spelling is read as the number that is spelled, with all its digits
  and without rounding, provided that the scale is a word;
* a text that is a numeral and has `_` in it, or no mantissa, is no number in the usual spelling,
  and without these it is spelled in the usual way already.

That the numeral rule takes numerals follows the rule from the inside to the outside: digits,
mantissa, exponent, sign.  Each lemma says what the characters are that a part of the rule takes, if
it takes any.
-/

namespace Terse

/-! ## Digits -/

/-- Decimal digits, the most significant first, as characters. -/
def figureChars (figures : List (Fin 10)) : List Char :=
  figures.map fun d : Fin 10 => Digits.toChar d

/-- The number that decimal digits denote. -/
def figureValue (figures : List (Fin 10)) : Nat := Digits.value 10 (figures.map Fin.val)

theorem figureChars_eq (figures : List (Fin 10)) :
    figureChars figures = (figures.map Fin.val).map Digits.toChar := by
  rw [List.map_map]
  rfl

theorem val_lt_ten (figures : List (Fin 10)) : ∀ d ∈ figures.map Fin.val, d < 10 := by
  intro d hd
  obtain ⟨figure, -, rfl⟩ := List.mem_map.1 hd
  exact figure.isLt

theorem figureValue_append (first second : List (Fin 10)) :
    figureValue (first ++ second) =
      figureValue first * 10 ^ second.length + figureValue second := by
  rw [figureValue, List.map_append, Digits.value_append, List.length_map]
  rfl

theorem isDigit_of_mem_figureChars {figures : List (Fin 10)} {c : Char}
    (h : c ∈ figureChars figures) : c.isDigit = true := by
  obtain ⟨figure, -, rfl⟩ := List.mem_map.1 h
  exact Digits.isDigit_toChar figure figure.isLt

/-- A digit is none of the other characters of a numeral, and no blank. -/
theorem ne_of_mem_figureChars {figures : List (Fin 10)} {c : Char} (h : c ∈ figureChars figures) :
    c ≠ '-' ∧ c ≠ '+' ∧ c ≠ '_' ∧ c ≠ '.' ∧ Decimal.isExponentMark c = false ∧
      Text.isBlank c = false := by
  obtain ⟨figure, -, rfl⟩ := List.mem_map.1 h
  exact Digits.toChar_ne figure figure.isLt

theorem exists_toChar {c : Char} (h : c.isDigit = true) : ∃ d : Fin 10, c = Digits.toChar d := by
  have hdigits : ∀ n < 58, 48 ≤ n → ∃ d : Fin 10, Char.ofNat n = Digits.toChar d := by decide
  have hbounds : 48 ≤ c.toNat ∧ c.toNat ≤ 57 := by
    simpa [Char.isDigit, UInt32.le_iff_toNat_le] using h
  obtain ⟨d, hd⟩ := hdigits c.toNat (by omega) hbounds.1
  exact ⟨d, by rw [← hd, Char.ofNat_toNat]⟩

/-- Characters that are digits are those of some figures. -/
theorem exists_figures {cs : List Char} (h : ∀ c ∈ cs, c.isDigit = true) :
    ∃ figures, cs = figureChars figures := by
  induction cs with
  | nil => exact ⟨[], rfl⟩
  | cons c cs ih =>
      obtain ⟨hc, hcs⟩ := List.forall_mem_cons.1 h
      obtain ⟨d, rfl⟩ := exists_toChar hc
      obtain ⟨figures, rfl⟩ := ih hcs
      exact ⟨d :: figures, rfl⟩

/-! ## Numerals -/

/-- The digits of a numeral in front of its point and behind it; without digits behind it the point
is not written. -/
structure Mantissa where
  whole : List (Fin 10)
  fraction : List (Fin 10)
  written : whole ++ fraction ≠ []

/-- The exponent of a numeral. -/
structure Exponent where
  negative : Bool
  figures : List (Fin 10)
  written : figures ≠ []

/-- A numeral as a program spells it. -/
inductive Numeral where
  | full (negative : Bool) (mantissa : Mantissa) (exponent : Option Exponent)
  | bare (negative : Bool) (figures : List (Fin 10)) (written : figures ≠ [])

namespace Mantissa

def chars (m : Mantissa) : List Char :=
  figureChars m.whole ++ ((if m.fraction = [] then [] else ['.']) ++ figureChars m.fraction)

def value (m : Mantissa) : ℚ :=
  figureValue m.whole + figureValue m.fraction / 10 ^ m.fraction.length

/-- The mantissa of a bare exponent. -/
def one : Mantissa := ⟨[1], [], List.cons_ne_nil _ _⟩

end Mantissa

/-- A number with or without a minus sign. -/
def signed {α : Type} [Neg α] (negative : Bool) (size : α) : α := if negative then -size else size

namespace Exponent

def chars (e : Exponent) : List Char :=
  'e' :: ((if e.negative then ['_'] else []) ++ figureChars e.figures)

def value (e : Exponent) : ℤ := signed e.negative (figureValue e.figures : ℤ)

end Exponent

namespace Numeral

def negative : Numeral → Bool
  | full negative _ _ | bare negative _ _ => negative

/-- The characters behind the sign. -/
def unsignedChars : Numeral → List Char
  | full _ mantissa exponent => mantissa.chars ++ exponent.elim [] Exponent.chars
  | bare _ figures _ => 'e' :: figureChars figures

/-- The characters of a numeral. -/
def chars (n : Numeral) : List Char := (if n.negative then ['_'] else []) ++ n.unsignedChars

/-- The text of a numeral. -/
def text (n : Numeral) : String := String.ofList n.chars

def mantissa : Numeral → Mantissa
  | full _ mantissa _ => mantissa
  | bare _ _ _ => .one

def exponent : Numeral → Option Exponent
  | full _ _ exponent => exponent
  | bare _ figures written => some ⟨false, figures, written⟩

/-- The power of ten by which the mantissa is multiplied. -/
def power (n : Numeral) : ℤ := n.exponent.elim 0 Exponent.value

/-- The number that is spelled. -/
def value (n : Numeral) : ℚ := signed n.negative (n.mantissa.value * 10 ^ n.power)

/-- The number of digits behind the point once the exponent is worked off. -/
def scale (n : Numeral) : ℤ := n.mantissa.fraction.length - n.power

/-- The number that is spelled, with all its digits. -/
def decimal (n : Numeral) : Decimal :=
  ⟨signed n.negative (figureValue (n.mantissa.whole ++ n.mantissa.fraction) : ℤ), n.scale⟩

theorem toRat_decimal (n : Numeral) : n.decimal.toRat = n.value := by
  -- The digits behind the point are worth as much as all digits together, with the point moved.
  have hvalue : n.mantissa.value =
      figureValue (n.mantissa.whole ++ n.mantissa.fraction) *
        (10 : ℚ) ^ (-(n.mantissa.fraction.length : ℤ)) := by
    rw [figureValue_append, Mantissa.value, zpow_neg, zpow_natCast]
    push_cast
    field_simp
  have hscale : -n.scale = -(n.mantissa.fraction.length : ℤ) + n.power := by
    unfold scale
    omega
  rw [Decimal.toRat, value, hvalue, decimal, hscale, zpow_add₀ (by norm_num)]
  unfold signed
  split <;> push_cast <;> ring

end Numeral

/-! ## Numerals are read -/

namespace Decimal

/-- An exponent behind a number in positional notation lowers its scale. -/
theorem parseChars?_exponent {base : List Char} (h : ∀ c ∈ base, isExponentMark c = false)
    (digits : List Char) :
    parseChars? (base ++ 'e' :: digits) =
      (readExponent? digits).bind fun exponent =>
        ((positional? base).map fun d => ⟨d.coefficient, d.scale - exponent⟩).filter
          (Word.holdsSigned ·.scale) := by
  have hbase : ∀ c ∈ base, (!isExponentMark c) = true := fun c hc => by rw [h c hc, Bool.not_false]
  have htake : (base ++ 'e' :: digits).takeWhile (!isExponentMark ·) = base := by
    rw [List.takeWhile_append_of_pos hbase]
    simp [isExponentMark]
  have hdrop : (base ++ 'e' :: digits).dropWhile (!isExponentMark ·) = 'e' :: digits := by
    rw [List.dropWhile_append_of_pos hbase]
    rfl
  simp only [parseChars?, positional?, htake, hdrop, Option.bind_eq_bind]
  congr 1
  funext exponent
  cases readInt? 10 (base.takeWhile (· != '.') ++ (base.dropWhile (· != '.')).drop 1) with
  | none => rfl
  | some coefficient => rw [Option.bind_some, Option.map_some, Option.map_some, Option.filter_some]

/-- A text that starts with `_` is no number in the usual spelling. -/
theorem parseChars?_mark (cs : List Char) : parseChars? ('_' :: cs) = none := by
  have hread : ∀ rest, readInt? 10 ('_' :: rest) = none := by
    intro rest
    rw [readInt?_of_ne (by decide) (by decide), readUnsigned?, if_pos (.inr rfl)]
    rfl
  have htake : ('_' :: cs).takeWhile (!isExponentMark ·) =
    '_' :: cs.takeWhile (!isExponentMark ·) := rfl
  have hlead : ∀ rest : List Char, ('_' :: rest).takeWhile (· != '.') =
    '_' :: rest.takeWhile (· != '.') := fun _ => rfl
  simp only [parseChars?, htake, hlead, List.cons_append, hread, Option.bind_eq_bind,
    Option.bind_none, Option.bind_fun_none]
  split <;> rfl

/-- A bare exponent is no number in the usual spelling. -/
theorem parseChars?_bare (cs : List Char) : parseChars? ('e' :: cs) = none := by
  have hexponent := @parseChars?_exponent [] (fun c hc => absurd hc List.not_mem_nil) cs
  rw [List.nil_append] at hexponent
  rw [hexponent]
  cases readExponent? cs <;> rfl

theorem readPlainDigits?_figures {figures : List (Fin 10)} (h : figures ≠ []) :
    readPlainDigits? (figureChars figures) = some (figureValue figures) := by
  have hall : (figureChars figures).all Char.isDigit = true :=
    List.all_eq_true.2 fun c hc => isDigit_of_mem_figureChars hc
  have hempty : (figureChars figures).isEmpty = false := by simpa [figureChars] using h
  rw [readPlainDigits?, hall, hempty, figureChars_eq]
  exact readUnsigned?_digits (by decide) (by simpa using h) (val_lt_ten figures)

theorem readExponent?_of_ne {c : Char} (hplus : c ≠ '+') (hminus : c ≠ '-') (cs : List Char) :
    readExponent? (c :: cs) = (readPlainDigits? (c :: cs)).map Int.ofNat := by
  unfold readExponent?
  split
  · rename_i heq
    exact absurd (List.cons.inj heq).1 hplus
  · rename_i heq
    exact absurd (List.cons.inj heq).1 hminus
  · rfl

theorem readExponent?_figures (negative : Bool) {figures : List (Fin 10)} (h : figures ≠ []) :
    readExponent? ((if negative then ['-'] else []) ++ figureChars figures) =
      some (signed negative (figureValue figures : ℤ)) := by
  have hread := readPlainDigits?_figures h
  cases negative with
  | true =>
      rw [if_pos rfl, List.singleton_append, readExponent?, hread]
      rfl
  | false =>
      obtain ⟨first, rest, rfl⟩ := List.exists_cons_of_ne_nil h
      obtain ⟨hminus, hplus, -⟩ := Digits.toChar_ne first first.isLt
      have hcons : figureChars (first :: rest) = Digits.toChar first :: figureChars rest := rfl
      rw [if_neg Bool.false_ne_true, List.nil_append, hcons, readExponent?_of_ne hplus hminus,
        ← hcons, hread]
      rfl

theorem spellExponent_cons {c : Char} (hc : c ≠ 'e') (cs : List Char) :
    spellExponent (c :: cs) = c :: spellExponent cs := by
  rw [spellExponent]
  exact fun _ heq _ => hc heq

theorem spellExponent_append {cs : List Char} (h : ∀ c ∈ cs, c ≠ 'e') (rest : List Char) :
    spellExponent (cs ++ rest) = cs ++ spellExponent rest := by
  induction cs with
  | nil => rfl
  | cons c cs ih =>
      obtain ⟨hc, hcs⟩ := List.forall_mem_cons.1 h
      rw [List.cons_append, spellExponent_cons hc, ih hcs, List.cons_append]

end Decimal

/-- The characters of an exponent in the usual spelling. -/
def Exponent.usual (e : Exponent) : List Char :=
  'e' :: ((if e.negative then ['-'] else []) ++ figureChars e.figures)

theorem Exponent.spellExponent_chars (e : Exponent) : Decimal.spellExponent e.chars = e.usual := by
  have hfigures : Decimal.spellExponent (figureChars e.figures) = figureChars e.figures := by
    have hmark : ∀ c ∈ figureChars e.figures, c ≠ 'e' := by
      rintro c hc rfl
      exact absurd (ne_of_mem_figureChars hc).2.2.2.2.1 (by decide)
    have hspell := Decimal.spellExponent_append hmark []
    rwa [List.append_nil, Decimal.spellExponent, List.append_nil] at hspell
  unfold Exponent.chars Exponent.usual
  cases e.negative with
  | true => exact congrArg ('e' :: '-' :: ·) hfigures
  | false =>
      -- Without a sign the first character is a digit, and nothing is rewritten.
      obtain ⟨first, rest, hcons⟩ := List.exists_cons_of_ne_nil e.written
      have hfirst : Digits.toChar first ≠ '_' := (Digits.toChar_ne first first.isLt).2.2.1
      rw [hcons] at hfigures ⊢
      rw [if_neg Bool.false_ne_true, if_neg Bool.false_ne_true, List.nil_append,
        Decimal.spellExponent, hfigures]
      exact fun cs _ heq => hfirst (List.cons.inj heq).1

namespace Mantissa

variable (m : Mantissa)

theorem mem_chars {c : Char} (h : c ∈ m.chars) : c = '.' ∨ ∃ figures, c ∈ figureChars figures := by
  rcases List.mem_append.1 h with h | h
  · exact .inr ⟨_, h⟩
  · rcases List.mem_append.1 h with h | h
    · split at h
      · cases h
      · exact .inl (List.mem_singleton.1 h)
    · exact .inr ⟨_, h⟩

/-- The characters of a mantissa are neither signs nor marks nor blanks. -/
theorem ne_of_mem_chars {c : Char} (h : c ∈ m.chars) :
    c ≠ '_' ∧ Decimal.isExponentMark c = false ∧ Text.isBlank c = false := by
  rcases m.mem_chars h with rfl | ⟨figures, hc⟩
  · decide
  · obtain ⟨-, -, hmark, -, hrest⟩ := ne_of_mem_figureChars hc
    exact ⟨hmark, hrest⟩

theorem exists_cons : ∃ c cs, m.chars = c :: cs := by
  refine List.exists_cons_of_ne_nil fun hnil => m.written ?_
  obtain ⟨hwhole, hrest⟩ := List.append_eq_nil_iff.1 hnil
  have hfraction := (List.append_eq_nil_iff.1 hrest).2
  simp only [figureChars, List.map_eq_nil_iff] at hwhole hfraction
  rw [hwhole, hfraction, List.append_nil]

/-- A signed mantissa is read in positional notation. -/
theorem positional?_chars (negative : Bool) :
    Decimal.positional? ((if negative then ['-'] else []) ++ m.chars) =
      some ⟨signed negative (figureValue (m.whole ++ m.fraction) : ℤ), m.fraction.length⟩ := by
  have hne : m.whole.map Fin.val ++ m.fraction.map Fin.val ≠ [] := by
    rw [← List.map_append]
    simpa using m.written
  have hpoint : (if m.fraction = [] then [] else ['.']) = ['.'] ∨
      (if m.fraction = [] then [] else ['.']) = [] ∧ m.fraction.map Fin.val = [] := by
    split
    · rename_i hempty
      exact .inr ⟨rfl, by rw [hempty, List.map_nil]⟩
    · exact .inl rfl
  have hread := Decimal.positional?_digits negative hne (val_lt_ten _) (val_lt_ten _) hpoint
  rw [← List.map_append, List.length_map, ← figureChars_eq, ← figureChars_eq] at hread
  exact hread

end Mantissa

namespace Numeral

variable (n : Numeral)

/-- The characters of a numeral in the usual spelling. -/
def usual : List Char :=
  (if n.negative then ['-'] else []) ++ (n.mantissa.chars ++ n.exponent.elim [] Exponent.usual)

/-- What is rewritten before a numeral is read is its usual spelling. -/
theorem spell_unsignedChars :
    Decimal.spellExponent (Decimal.spellBare n.unsignedChars) =
      n.mantissa.chars ++ n.exponent.elim [] Exponent.usual := by
  cases n with
  | full negative mantissa exponent =>
      have hmark : ∀ c ∈ mantissa.chars, c ≠ 'e' := by
        rintro c hc rfl
        exact absurd (mantissa.ne_of_mem_chars hc).2.1 (by decide)
      have hbare : Decimal.spellBare (mantissa.chars ++ exponent.elim [] Exponent.chars) =
          mantissa.chars ++ exponent.elim [] Exponent.chars := by
        obtain ⟨c, cs, hcons⟩ := mantissa.exists_cons
        have hc : c ≠ 'e' := hmark c (by rw [hcons]; exact List.mem_cons_self)
        rw [Decimal.spellBare, if_neg]
        simpa [hcons] using hc
      rw [unsignedChars, hbare, Decimal.spellExponent_append hmark]
      cases exponent with
      | none => rfl
      | some e => exact congrArg (mantissa.chars ++ ·) e.spellExponent_chars
  | bare negative figures written =>
      have hspell := Exponent.spellExponent_chars ⟨false, figures, written⟩
      have hbare : Decimal.spellBare ('e' :: figureChars figures) =
          '1' :: 'e' :: figureChars figures := rfl
      rw [unsignedChars, hbare, Decimal.spellExponent_cons (by decide)]
      exact congrArg ('1' :: ·) hspell

theorem head_unsignedChars {cs : List Char} : n.unsignedChars ≠ '_' :: cs := by
  intro heq
  cases n with
  | full negative mantissa exponent =>
      obtain ⟨c, rest, hcons⟩ := mantissa.exists_cons
      have hc := (mantissa.ne_of_mem_chars (hcons ▸ List.mem_cons_self : c ∈ mantissa.chars)).1
      rw [unsignedChars, hcons, List.cons_append] at heq
      exact hc (List.cons.inj heq).1
  | bare negative figures written => cases heq

/-- A numeral is read by its usual spelling. -/
theorem numeral?_text : Decimal.numeral? n.text = Decimal.parseChars? n.usual := by
  rw [Decimal.numeral?, text, String.toList_ofList, chars, usual, ← n.spell_unsignedChars]
  -- The sign is taken off first; what is left does not start with another one.
  cases n.negative with
  | true => rfl
  | false =>
      rw [if_neg Bool.false_ne_true, if_neg Bool.false_ne_true, List.nil_append, List.nil_append]
      split
      · rename_i heq
        exact absurd heq n.head_unsignedChars
      · rfl

theorem parseChars?_usual :
    Decimal.parseChars? n.usual =
      if Word.holdsSigned n.scale then some n.decimal else none := by
  have hbase : ∀ c ∈ (if n.negative then ['-'] else []) ++ n.mantissa.chars,
      Decimal.isExponentMark c = false := by
    intro c hc
    rcases List.mem_append.1 hc with hc | hc
    · split at hc
      · rw [List.mem_singleton.1 hc]
        rfl
      · cases hc
    · exact (n.mantissa.ne_of_mem_chars hc).2.1
  have hread := n.mantissa.positional?_chars n.negative
  unfold usual decimal scale power
  cases n.exponent with
  | none =>
      simp only [Option.elim_none, List.append_nil, sub_zero]
      rw [Decimal.parseChars?_eq hbase, hread, Option.filter_some]
  | some e =>
      simp only [Option.elim_some]
      rw [← List.append_assoc, Exponent.usual, Decimal.parseChars?_exponent hbase, hread,
        Decimal.readExponent?_figures e.negative e.written, Option.bind_some, Option.map_some,
        Option.filter_some]
      rfl

/-- Read in the usual spelling, the characters of a numeral are no number or the same number. -/
theorem parseChars?_chars :
    Decimal.parseChars? n.chars = none ∨
      Decimal.parseChars? n.chars = Decimal.parseChars? n.usual := by
  -- Only a numeral with neither `_` nor a bare exponent is a number in the usual spelling.
  cases n with
  | bare negative figures written =>
      left
      cases negative with
      | true => exact Decimal.parseChars?_mark _
      | false => exact Decimal.parseChars?_bare _
  | full negative mantissa exponent =>
      cases negative with
      | true => exact .inl (Decimal.parseChars?_mark _)
      | false =>
          cases exponent with
          | none => exact .inr rfl
          | some e =>
              obtain ⟨negative, figures, written⟩ := e
              cases negative with
              | false => exact .inr rfl
              | true =>
                  left
                  -- The sign of the exponent is no digit.
                  have hmark : Decimal.readExponent? ('_' :: figureChars figures) = none := rfl
                  have hbase : ∀ c ∈ mantissa.chars, Decimal.isExponentMark c = false :=
                    fun c hc => (mantissa.ne_of_mem_chars hc).2.1
                  have hread := Decimal.parseChars?_exponent hbase ('_' :: figureChars figures)
                  rwa [hmark] at hread

theorem isBlank_of_mem_chars {c : Char} (h : c ∈ n.chars) : Text.isBlank c = false := by
  have hfigures : ∀ {figures}, c ∈ figureChars figures → Text.isBlank c = false :=
    fun hc => (ne_of_mem_figureChars hc).2.2.2.2.2
  rcases List.mem_append.1 h with h | h
  · split at h
    · rw [List.mem_singleton.1 h]
      decide
    · cases h
  · cases n with
    | bare negative figures written =>
        rcases List.mem_cons.1 h with rfl | h
        · decide
        · exact hfigures h
    | full negative mantissa exponent =>
        rcases List.mem_append.1 h with h | h
        · exact (mantissa.ne_of_mem_chars h).2.2
        · cases exponent with
          | none => cases h
          | some e =>
              rcases List.mem_cons.1 h with rfl | h
              · decide
              · rcases List.mem_append.1 h with h | h
                · split at h
                  · rw [List.mem_singleton.1 h]
                    decide
                  · cases h
                · exact hfigures h

/-- A text that is a numeral is read as the number that the numeral spells. -/
theorem ofText?_text (hscale : Word.holdsSigned n.scale = true)
    (hrange : n.decimal.inRange = true) : Decimal.ofText? n.text = some n.decimal := by
  have hnumeral : Decimal.numeral? n.text = some n.decimal := by
    rw [n.numeral?_text, n.parseChars?_usual, if_pos hscale]
  have hparse : Decimal.parse? n.text = none ∨ Decimal.parse? n.text = some n.decimal := by
    rw [Decimal.parse?, text, String.toList_ofList, ← hnumeral, n.numeral?_text]
    exact n.parseChars?_chars
  have hne : n.text ≠ "" := by
    intro hempty
    rw [hempty] at hnumeral
    cases hnumeral
  have htrim : Text.trim n.text = n.text := Text.trim_ofList fun c hc => n.isBlank_of_mem_chars hc
  have hor : (Decimal.parse? n.text).or (Decimal.numeral? n.text) = some n.decimal := by
    rcases hparse with hparse | hparse
    · rw [hparse, Option.none_or, hnumeral]
    · rw [hparse, Option.some_or]
  simp only [Decimal.ofText?, htrim, if_neg hne, hor, Option.filter_some, hrange, if_true]

end Numeral

/-! ## Numerals are cut out of a text -/

namespace Lexeme

theorem take_digitsLength (cs : List Char) :
    ∃ figures, cs.take (digitsLength cs) = figureChars figures ∧
      figures.length = digitsLength cs := by
  have htake : cs.take (digitsLength cs) = cs.takeWhile Char.isDigit :=
    (List.prefix_iff_eq_take.1 (List.takeWhile_prefix _)).symm
  obtain ⟨figures, hfigures⟩ := exists_figures fun c hc => List.mem_takeWhile_imp (l := cs) hc
  refine ⟨figures, htake.trans hfigures, ?_⟩
  rw [digitsLength, hfigures, figureChars, List.length_map]

theorem ne_nil_of_length {figures : List (Fin 10)} {cs : List Char}
    (hlength : figures.length = digitsLength cs) (h : digitsLength cs ≠ 0) : figures ≠ [] := by
  rintro rfl
  exact h hlength.symm

theorem exists_mantissa (cs : List Char) :
    mantissaLength cs ≠ 0 → ∃ m : Mantissa, cs.take (mantissaLength cs) = m.chars := by
  obtain ⟨whole, hwhole, hlength⟩ := take_digitsLength cs
  -- Without a fraction the mantissa consists of the digits in front.
  have halone (hne : digitsLength cs ≠ 0) :
      ∃ m : Mantissa, cs.take (digitsLength cs) = m.chars := by
    refine ⟨⟨whole, [], ?_⟩, ?_⟩
    · rw [List.append_nil]
      exact ne_nil_of_length hlength hne
    · rw [hwhole]
      simp [Mantissa.chars, figureChars]
  unfold mantissaLength
  simp only
  -- A point belongs to the mantissa only if a digit follows it.
  split
  · rename_i rest hrest
    split
    · exact halone
    · rename_i hne
      intro _
      obtain ⟨fraction, hfraction, hlength'⟩ := take_digitsLength rest
      have hfraction_ne := ne_nil_of_length hlength' hne
      refine ⟨⟨whole, fraction, by simp [hfraction_ne]⟩, ?_⟩
      rw [Nat.add_assoc, List.take_add, hwhole, hrest, Nat.add_comm 1, List.take_succ_cons,
        hfraction]
      simp [Mantissa.chars, hfraction_ne]
  · exact halone

theorem exists_exponent (cs : List Char) :
    exponentLength cs ≠ 0 → ∃ e : Exponent, cs.take (exponentLength cs) = e.chars := by
  unfold exponentLength
  split
  · rename_i cs
    obtain ⟨figures, hfigures, hlength⟩ := take_digitsLength cs
    simp only
    split
    · exact fun h => absurd rfl h
    · rename_i hne
      intro _
      refine ⟨⟨true, figures, ne_nil_of_length hlength hne⟩, ?_⟩
      rw [List.take_succ_cons, List.take_succ_cons, hfigures]
      rfl
  · rename_i cs _
    obtain ⟨figures, hfigures, hlength⟩ := take_digitsLength cs
    simp only
    split
    · exact fun h => absurd rfl h
    · rename_i hne
      intro _
      refine ⟨⟨false, figures, ne_nil_of_length hlength hne⟩, ?_⟩
      rw [List.take_succ_cons, hfigures]
      rfl
  · exact fun h => absurd rfl h

theorem exists_bareExponent (cs : List Char) :
    bareExponentLength cs ≠ 0 →
      ∃ figures, figures ≠ [] ∧ cs.take (bareExponentLength cs) = 'e' :: figureChars figures := by
  unfold bareExponentLength
  split
  · rename_i cs
    obtain ⟨figures, hfigures, hlength⟩ := take_digitsLength cs
    simp only
    split
    · exact fun h => absurd rfl h
    · rename_i hne
      intro _
      refine ⟨figures, ne_nil_of_length hlength hne, ?_⟩
      rw [List.take_succ_cons, hfigures]
  · exact fun h => absurd rfl h

theorem exists_unsigned (negative : Bool) (cs : List Char) :
    unsignedLength cs ≠ 0 →
      ∃ n : Numeral, n.negative = negative ∧ cs.take (unsignedLength cs) = n.unsignedChars := by
  unfold unsignedLength
  simp only
  split
  · intro h
    obtain ⟨figures, hne, htake⟩ := exists_bareExponent cs h
    exact ⟨.bare negative figures hne, rfl, htake⟩
  · rename_i hmantissa
    intro _
    obtain ⟨mantissa, hchars⟩ := exists_mantissa cs hmantissa
    rw [List.take_add, hchars]
    by_cases hexponent : exponentLength (cs.drop (mantissaLength cs)) = 0
    · rw [hexponent]
      exact ⟨.full negative mantissa none, rfl, rfl⟩
    · obtain ⟨e, he⟩ := exists_exponent _ hexponent
      rw [he]
      exact ⟨.full negative mantissa (some e), rfl, rfl⟩

/-- The numeral rule takes the characters of a numeral. -/
theorem exists_numeral (cs : List Char) :
    numeralLength cs ≠ 0 → ∃ n : Numeral, cs.take (numeralLength cs) = n.chars := by
  unfold numeralLength
  split
  · rename_i cs
    simp only
    split
    · exact fun h => absurd rfl h
    · rename_i hne
      intro _
      obtain ⟨n, hnegative, htake⟩ := exists_unsigned true cs hne
      refine ⟨n, ?_⟩
      rw [List.take_succ_cons, htake, Numeral.chars, hnegative]
      rfl
  · intro h
    obtain ⟨n, hnegative, htake⟩ := exists_unsigned false _ h
    refine ⟨n, ?_⟩
    rw [htake, Numeral.chars, hnegative]
    rfl

/-- The text of a numeral token is that of a numeral. -/
theorem Piece.Stands.exists_numeral {source : String} {before after : List Char} {p : Piece}
    (h : p.Stands source before after) (hkind : p.token.kind = .numeral) :
    ∃ n : Numeral, p.token.text = n.text := by
  obtain ⟨position, htoken⟩ := h.token
  have hrule : p.rule = .numeral := by
    rw [htoken] at hkind
    cases hp : p.rule with
    | numeral => rfl
    | text =>
        rw [hp] at hkind
        cases hlexeme : p.lexeme <;> rw [hlexeme] at hkind <;> cases hkind
    | name | symbol =>
        rw [hp] at hkind
        cases hkind
  obtain ⟨hlength, hpos⟩ := longest?_spec h.longest
  rw [hrule, Rule.length] at hlength
  obtain ⟨n, hn⟩ := Lexeme.exists_numeral (p.lexeme ++ after) (by omega)
  rw [← hlength, List.take_left] at hn
  refine ⟨n, ?_⟩
  rw [htoken, hrule, Numeral.text, ← hn]
  rfl

end Lexeme

/-- A number fails in arithmetic only. -/
theorem Eval.number_ne_mismatch (d : Decimal) (position : Position) (settings : Settings)
    (M M' : Machine) (cause : Mismatch) (place : Position) :
    Eval.number d position settings M ≠ .error (.fault (.mismatch cause place)) M' := by
  have hnumber : Eval.number d position settings M =
      EStateM.bind (Eval.ofArithmetic (d.round settings.precision).bounded position settings)
        (fun n => EStateM.pure (.number n)) M := rfl
  intro h
  rw [hnumber] at h
  cases hbounded : (d.round settings.precision).bounded with
  | error fault =>
      rw [hbounded] at h
      cases h
  | ok n =>
      rw [hbounded] at h
      cases h

/-- Every numeral token is the text of a numeral.  If the scale of what it spells is a word, it is
read as the number that is spelled, evaluating it does not fail for its form, and as a text it is
the same number, if this is in the exponent range. -/
theorem numeral_tokens_read {source : String} {tokens : List Token} {token : Token}
    (htokens : tokenize source = .ok tokens) (hmem : token ∈ tokens)
    (hkind : token.kind = .numeral) :
    (∃ n : Numeral, token.text = n.text) ∧
      ∀ n : Numeral, token.text = n.text → Word.holdsSigned n.scale = true →
        ∃ d : Decimal, d.toRat = n.value ∧ Decimal.numeral? token.text = some d ∧
          (∀ position, Eval.numeral token.text position = Eval.number d position) ∧
          (∀ position settings M M' cause place, Eval.numeral token.text position settings M ≠
            .error (.fault (.mismatch cause place)) M') ∧
          (d.inRange = true → (Value.text token.text).asNumber? = some d) := by
  constructor
  -- The token is that of a piece of the source text, which the numeral rule has cut out.
  · obtain ⟨pieces, behind, hcovers, hfound⟩ := Lexeme.exists_found source
    rw [htokens] at hfound
    rw [hfound.1] at hmem
    obtain ⟨p, hp, rfl⟩ := List.mem_map.1 hmem
    obtain ⟨front, back, hpieces⟩ := List.append_of_mem hp
    exact (hcovers.2 front p back hpieces).exists_numeral hkind
  · intro n htext hscale
    have hread : Decimal.numeral? token.text = some n.decimal := by
      rw [htext, n.numeral?_text, n.parseChars?_usual, if_pos hscale]
    have heval : ∀ position, Eval.numeral token.text position = Eval.number n.decimal position := by
      intro position
      rw [Eval.numeral, hread]
    refine ⟨n.decimal, n.toRat_decimal, hread, heval, ?_, ?_⟩
    · intro position settings M M' cause place
      rw [heval]
      exact Eval.number_ne_mismatch _ _ _ _ _ _ _
    · intro hrange
      rw [htext]
      exact n.ofText?_text hscale hrange

/-- `_1.50e_3` has all parts of a numeral; it is read without being rounded. -/
theorem numeral_tokens_fraction :
    tokenize "_1.50e_3 e2" = .ok [⟨.numeral, "_1.50e_3", ⟨1, 1⟩⟩, ⟨.numeral, "e2", ⟨1, 10⟩⟩] ∧
      (⟨-150, 5⟩ : Decimal).toRat = -3 / 2000 ∧
      Decimal.numeral? "_1.50e_3" = some ⟨-150, 5⟩ ∧
      (Value.text "_1.50e_3").asNumber? = some ⟨-150, 5⟩ := by
  have htokens : tokenize "_1.50e_3 e2" =
      .ok [⟨.numeral, "_1.50e_3", ⟨1, 1⟩⟩, ⟨.numeral, "e2", ⟨1, 10⟩⟩] := by decide
  have hread : Decimal.numeral? "_1.50e_3" = some ⟨-150, 5⟩ := by decide
  have hnumeral := (numeral_tokens_read htokens List.mem_cons_self rfl).2
    (.full true ⟨[1], [5, 0], by decide⟩ (some ⟨true, [3], by decide⟩)) (by decide) (by decide)
  obtain ⟨d, hvalue, hd, -, -, htext⟩ := hnumeral
  obtain rfl := Option.some.inj (hread.symm.trans hd)
  refine ⟨htokens, ?_, hread, htext (by decide)⟩
  rw [hvalue]
  norm_num [Numeral.value, Numeral.negative, Numeral.mantissa, Numeral.power, Numeral.exponent,
    Mantissa.value, Exponent.value, signed, figureValue, Digits.value]

end Terse
