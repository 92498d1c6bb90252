import Mathlib.Data.List.DropRight
import Mathlib.Data.List.GetD
import Terse.Packing
import Terse.Proofs.Digits
import Terse.Proofs.Runs
import Terse.Proofs.WellFormed

/-!
# Packed programs

Packing and unpacking change the radix of one number, so each undoes the other up to digits that are
zero at the most significant end: spaces at the end of a program, and `!` at the end of a packed
text.

A packed text is only recognized by a character outside of ASCII.  Where it has one, it is run as
the program that was packed.  Where it has none, it is run as it stands: the numeral `1` is packed
as `2`, and prints another number.

## Strategy

* `convert_convert`: changing the radix and changing it back.  The digits that `Digits.ofNat` writes
  are those of `Nat.digits`, whose uniqueness carries the proof.
* The two alphabets are digits in another guise.  A printable text is `digits.map printableChar`, a
  text of the code page is `digits.map symbol`, and on such texts packing and unpacking are
  `convert` (`pack_ofList`, `unpack_ofList`).  So the statements about texts follow from those about
  digits.
* That `symbol` is one to one needs that no character stands twice in the code page.  Comparing all
  pairs would be slow, so the code points are given as ranges and two short lists, which are
  compared by their bounds.

A program that is one numeral is followed from its text to what it prints (`printed_numeral`), since
that is where the difference is seen.
-/

namespace Terse

/-! ## Zeros at the most significant end -/

namespace Digits

variable {radix : Nat}

/-- Digits that are zero at the most significant end do not count. -/
theorem digits_ofDigits (hradix : 2 ≤ radix) {digits : List Nat}
    (hdigits : ∀ d ∈ digits, d < radix) :
    Nat.digits radix (Nat.ofDigits radix digits) = digits.rdropWhile (· == 0) := by
  -- By induction from the most significant end, where the zeros are.
  have hvalue : Nat.ofDigits radix (digits.rdropWhile (· == 0)) = Nat.ofDigits radix digits := by
    clear hdigits
    induction digits using List.reverseRecOn with
    | nil => rfl
    | append_singleton digits digit ih =>
        rw [List.rdropWhile_concat]
        split
        · rename_i hzero
          rw [ih, eq_of_beq hzero, Nat.ofDigits_append_zero]
        · rfl
  rw [← hvalue]
  refine Nat.digits_ofDigits radix hradix _
    (fun d hd => hdigits d ((List.rdropWhile_prefix _ _).subset hd)) fun h => ?_
  simpa using List.rdropWhile_last_not (· == 0) digits h

end Digits

namespace Packing

theorem convert_eq {source target : Nat} (htarget : 2 ≤ target) (digits : List Nat) :
    convert source target digits = Nat.digits target (Nat.ofDigits source digits) := by
  rw [convert, Digits.reverse_ofNat htarget, Digits.value_eq_ofDigits, List.reverse_reverse]

/-- Changing the radix and changing it back only loses zeros at the most significant end. -/
theorem convert_convert {source target : Nat} (hsource : 2 ≤ source) (htarget : 2 ≤ target)
    {digits : List Nat} (hdigits : ∀ d ∈ digits, d < source) :
    convert target source (convert source target digits) = digits.rdropWhile (· == 0) := by
  rw [convert_eq htarget, convert_eq hsource, Nat.ofDigits_digits,
    Digits.digits_ofDigits hsource hdigits]

theorem convert_lt {source target : Nat} (htarget : 2 ≤ target) (digits : List Nat) :
    ∀ d ∈ convert source target digits, d < target := by
  rw [convert_eq htarget]
  exact fun d hd => Nat.digits_lt_base htarget hd

/-- A larger radix does not need more digits. -/
theorem length_convert_le {source target : Nat} (hsource : 2 ≤ source) (hle : source ≤ target)
    {digits : List Nat} (hdigits : ∀ d ∈ digits, d < source) :
    (convert source target digits).length ≤ digits.length := by
  have htarget := hsource.trans hle
  rw [convert_eq htarget, Nat.digits_length_le_iff htarget]
  calc Nat.ofDigits source digits < source ^ digits.length :=
        Nat.ofDigits_lt_base_pow_length hsource hdigits
    _ ≤ target ^ digits.length := Nat.pow_le_pow_left hle _

theorem getLast?_convert_ne_zero {source target : Nat} (htarget : 2 ≤ target) (digits : List Nat) :
    (convert source target digits).getLast? ≠ some 0 := by
  rw [convert_eq htarget]
  by_cases hzero : Nat.ofDigits source digits = 0
  · simp [hzero]
  · have hne : Nat.digits target (Nat.ofDigits source digits) ≠ [] :=
      Nat.digits_ne_nil_iff_ne_zero.2 hzero
    rw [List.getLast?_eq_some_getLast hne]
    exact fun h => Nat.getLast_digit_ne_zero target hzero (Option.some.inj h)

/-! ## Two alphabets -/

/-- All characters of a text are printable. -/
def Printable (text : String) : Prop := ∀ c ∈ text.toList, 32 ≤ c.toNat ∧ c.toNat ≤ 126

instance (text : String) : Decidable (Printable text) := List.decidableBAll _ _

/-- All characters of a text are in the code page. -/
def InCodePage (text : String) : Prop := ∀ c ∈ text.toList, c ∈ codePage

instance (text : String) : Decidable (InCodePage text) := List.decidableBAll _ _

/-- A text without the characters `c` at its end. -/
def dropTrailing (c : Char) (text : String) : String :=
  String.ofList (text.toList.rdropWhile (· == c))

/-- The symbol of a digit.  Beyond the radix there is none. -/
def symbol (digit : Nat) : Char := codePage.getD digit ' '

/-! The symbols are told apart by their code points. -/

/-- Code points of signs and of parts of boxes. -/
def signs : List Nat :=
  [174, 175, 176, 9675, 9632, 8593, 8595, 8594, 8592, 9553, 9552, 9556, 9559, 9562, 9565, 9617,
    9618, 9658, 9668, 9474, 9472, 9484, 9488, 9492, 9496, 9500, 9508, 9524, 9516, 9830, 9532, 9608,
    9604, 9600, 9644]

/-- Code points of letters beyond Latin-1 and of punctuation marks. -/
def marks : List Nat :=
  [338, 339, 352, 353, 376, 381, 382, 402, 421, 672, 710, 732, 8211, 8212, 8216, 8217, 8218, 8220,
    8221, 8222, 8224, 8225, 8226, 8230, 8240, 8249, 8250, 8364, 8482, 8314, 8315, 8316]

/-- The code points of the symbols: ASCII and Latin-1 but for a few, with the signs in between. -/
def codePoints : List Nat :=
  List.range' 33 94 ++ (List.range' 161 12 ++ (signs ++ (List.range' 177 79 ++ marks)))

theorem toList_append_ofList (a b c d : List Char) :
    (String.ofList a ++ String.ofList b ++ String.ofList c ++ String.ofList d).toList =
      a ++ b ++ c ++ d := by
  simp only [String.toList_append, String.toList_ofList]

set_option maxRecDepth 4000 in
theorem codePage_eq : codePage = codePoints.map Char.ofNat :=
  (toList_append_ofList _ _ _ _).trans rfl

theorem length_codePage : codePage.length = packedRadix := by
  rw [codePage_eq, List.length_map]
  simp only [codePoints, List.length_append, List.length_range']
  rfl

theorem signs_bounds : ∀ n ∈ signs, 173 ≤ n ∧ (n < 177 ∨ 256 ≤ n) ∧ n < 10000 := by
  decide

theorem marks_bounds : ∀ n ∈ marks, 256 ≤ n ∧ n < 10000 := by
  decide

theorem nodup_codePoints : codePoints.Nodup := by
  have hapart : ∀ n ∈ signs, n ∉ marks := by decide
  have hrange (first count : Nat) : (List.range' first count).Nodup := List.nodup_range' 1
  -- Five parts, each of which is apart from those behind it.
  refine (hrange 33 94).append ((hrange 161 12).append (List.Nodup.append (by decide)
    ((hrange 177 79).append (by decide) ?_) ?_) ?_) ?_
  all_goals
    refine List.disjoint_left.2 fun n hn hrest => ?_
    simp only [List.mem_append, List.mem_range'_1] at hn hrest
    grind [→ signs_bounds, → marks_bounds]

theorem isValidChar_of_mem {n : Nat} (hn : n ∈ codePoints) : n.isValidChar := by
  have hsmall : n < 10000 := by
    simp only [codePoints, List.mem_append, List.mem_range'_1] at hn
    grind [→ signs_bounds, → marks_bounds]
  exact .inl (by omega)

theorem toNat_ofNat {n : Nat} (h : n.isValidChar) : (Char.ofNat n).toNat = n := by
  rw [Char.ofNat, dif_pos h]
  rfl

theorem nodup_codePage : codePage.Nodup := by
  rw [codePage_eq]
  refine nodup_codePoints.map_on fun m hm n hn heq => ?_
  rw [← toNat_ofNat (isValidChar_of_mem hm), heq, toNat_ofNat (isValidChar_of_mem hn)]

theorem mem_codePage {c : Char} (h : c.toNat ∈ codePoints) : c ∈ codePage := by
  rw [codePage_eq]
  exact List.mem_map.2 ⟨c.toNat, h, Char.ofNat_toNat c⟩

theorem symbol_eq : symbol = fun d => Char.ofNat (codePoints.getD d 32) := by
  funext d
  rw [symbol, codePage_eq]
  exact List.getD_map _ 32 Char.ofNat

theorem toNat_printableChar {d : Nat} (hd : d < printableRadix) :
    (printableChar d).toNat = d + 32 := by
  have hvalid : (d + firstPrintable).isValidChar := by
    simp only [printableRadix] at hd
    simp only [Nat.isValidChar, firstPrintable]
    omega
  rw [printableChar, toNat_ofNat hvalid, firstPrintable]

theorem printableDigit?_printableChar {d : Nat} (hd : d < printableRadix) :
    printableDigit? (printableChar d) = some d := by
  have hfirst : firstPrintable = 32 := rfl
  rw [printableDigit?, toNat_printableChar hd, if_pos (by omega), hfirst, Nat.add_sub_cancel]

theorem getElem?_symbol {d : Nat} (hd : d < packedRadix) : codePage[d]? = some (symbol d) := by
  have hlength : d < codePage.length := length_codePage ▸ hd
  rw [symbol, List.getD_eq_getElem _ _ hlength, List.getElem?_eq_getElem hlength]

theorem symbolDigit?_symbol {d : Nat} (hd : d < packedRadix) :
    symbolDigit? (symbol d) = some d := by
  have hlength : d < codePage.length := length_codePage ▸ hd
  rw [symbol, List.getD_eq_getElem _ _ hlength, symbolDigit?, List.idxOf?_eq_some_iff]
  -- The first place of a symbol is its only one.
  refine ⟨hlength, rfl, fun j hj hsame => ?_⟩
  exact absurd ((nodup_codePage.getElem_inj_iff).1 hsame) hj.ne

theorem isSome_symbolDigit? (c : Char) : (symbolDigit? c).isSome = true ↔ c ∈ codePage := by
  simp [symbolDigit?]

/-- A text in an alphabet is a list of digits. -/
theorem exists_digits {α : Type} {letter : Nat → α} {radix : Nat} {letters : List α}
    (h : ∀ c ∈ letters, ∃ d < radix, letter d = c) :
    ∃ digits : List Nat, (∀ d ∈ digits, d < radix) ∧ letters = digits.map letter := by
  induction letters with
  | nil => exact ⟨[], by simp, rfl⟩
  | cons c rest ih =>
      obtain ⟨⟨d, hd, rfl⟩, hrest⟩ := List.forall_mem_cons.1 h
      obtain ⟨digits, hdigits, rfl⟩ := ih hrest
      exact ⟨d :: digits, List.forall_mem_cons.2 ⟨hd, hdigits⟩, rfl⟩

theorem Printable.exists_digits {text : String} (h : Printable text) :
    ∃ digits : List Nat, (∀ d ∈ digits, d < printableRadix) ∧
      text = String.ofList (digits.map printableChar) := by
  have hletters : ∀ c ∈ text.toList, ∃ d < printableRadix, printableChar d = c := by
    intro c hc
    obtain ⟨hleast, hgreatest⟩ := h c hc
    have hd : c.toNat - 32 < printableRadix := by
      simp only [printableRadix]
      omega
    refine ⟨c.toNat - 32, hd, Char.toNat_inj.1 ?_⟩
    rw [toNat_printableChar hd]
    omega
  obtain ⟨digits, hdigits, hlist⟩ := Packing.exists_digits hletters
  exact ⟨digits, hdigits, by rw [← hlist, String.ofList_toList]⟩

theorem InCodePage.exists_digits {text : String} (h : InCodePage text) :
    ∃ digits : List Nat, (∀ d ∈ digits, d < packedRadix) ∧
      text = String.ofList (digits.map symbol) := by
  have hletters : ∀ c ∈ text.toList, ∃ d < packedRadix, symbol d = c := by
    intro c hc
    obtain ⟨d, hd, rfl⟩ := List.getElem_of_mem (h c hc)
    exact ⟨d, length_codePage ▸ hd, List.getD_eq_getElem _ _ hd⟩
  obtain ⟨digits, hdigits, hlist⟩ := Packing.exists_digits hletters
  exact ⟨digits, hdigits, by rw [← hlist, String.ofList_toList]⟩

/-- The digits that are zero are written with one letter, and dropped with it. -/
theorem dropTrailing_map {letter : Nat → Char} {zero : Char}
    (hzero : ∀ d, letter d = zero ↔ d = 0) (digits : List Nat) :
    dropTrailing zero (String.ofList (digits.map letter)) =
      String.ofList ((digits.rdropWhile (· == 0)).map letter) := by
  have htest : (fun d => letter d == zero) = (· == 0) := by
    funext d
    rw [Bool.eq_iff_iff, beq_iff_eq, beq_iff_eq, hzero]
  rw [dropTrailing, String.toList_ofList, List.rdropWhile, List.rdropWhile, ← List.map_reverse,
    List.dropWhile_map, ← List.map_reverse, Function.comp_def, htest]

theorem printableChar_eq_space (d : Nat) : printableChar d = ' ' ↔ d = 0 := by
  constructor
  · intro h
    by_cases hvalid : (d + firstPrintable).isValidChar
    · have hnat := congrArg Char.toNat h
      rw [printableChar, toNat_ofNat hvalid] at hnat
      exact Nat.add_eq_right.1 hnat
    · rw [printableChar, Char.ofNat, dif_neg hvalid] at h
      cases h
  · rintro rfl
    rfl

theorem symbol_zero : symbol 0 = '!' := by
  rw [symbol_eq]
  rfl

theorem symbol_eq_mark (d : Nat) : symbol d = '!' ↔ d = 0 := by
  constructor
  · intro h
    by_cases hd : d < packedRadix
    · have hdigit := symbolDigit?_symbol hd
      rw [h, ← symbol_zero, symbolDigit?_symbol (by decide)] at hdigit
      exact (Option.some.inj hdigit).symm
    · rw [symbol, List.getD_eq_default _ _ (length_codePage ▸ not_lt.1 hd)] at h
      cases h
  · rintro rfl
    exact symbol_zero

/-! ## Packing and unpacking on digits -/

theorem mapM_eq_map {α β : Type} {f : α → Option β} {g : α → β} {list : List α}
    (h : ∀ a ∈ list, f a = some (g a)) : list.mapM f = some (list.map g) := by
  induction list with
  | nil => rfl
  | cons a rest ih =>
      obtain ⟨ha, hrest⟩ := List.forall_mem_cons.1 h
      rw [List.mapM_cons, ha, ih hrest]
      rfl

theorem isSome_of_mapM_eq_some {α β : Type} {f : α → Option β} {list : List α} {results : List β}
    (h : list.mapM f = some results) : ∀ a ∈ list, (f a).isSome = true := by
  induction list generalizing results with
  | nil => simp
  | cons a rest ih =>
      rw [List.mapM_cons, Option.bind_eq_bind, Option.bind_eq_some_iff] at h
      obtain ⟨b, hb, h⟩ := h
      rw [Option.bind_eq_bind, Option.bind_eq_some_iff] at h
      obtain ⟨bs, hbs, -⟩ := h
      exact List.forall_mem_cons.2 ⟨by rw [hb]; rfl, ih hbs⟩

/-- Packing changes the radix of the digits that a program is written with. -/
theorem pack_ofList {digits : List Nat} (hdigits : ∀ d ∈ digits, d < printableRadix) :
    pack (String.ofList (digits.map printableChar)) =
      some (String.ofList ((convert printableRadix packedRadix digits).map symbol)) := by
  have hread : (digits.map printableChar).mapM printableDigit? = some digits := by
    have hdigit : ∀ d ∈ digits, (printableDigit? ∘ printableChar) d = some (id d) :=
      fun d hd => printableDigit?_printableChar (hdigits d hd)
    rw [List.mapM_map, mapM_eq_map hdigit, List.map_id]
  have hwrite : (convert printableRadix packedRadix digits).mapM (codePage[·]?) =
      some ((convert printableRadix packedRadix digits).map symbol) :=
    mapM_eq_map fun d hd => getElem?_symbol (convert_lt (by decide) digits d hd)
  rw [pack, String.toList_ofList, hread]
  simp only [Option.bind_eq_bind, Option.bind_some, hwrite]

/-- Unpacking changes the radix of the digits that a packed text is written with. -/
theorem unpack_ofList {digits : List Nat} (hdigits : ∀ d ∈ digits, d < packedRadix) :
    unpack (String.ofList (digits.map symbol)) =
      String.ofList ((convert packedRadix printableRadix digits).map printableChar) := by
  have hread : (digits.map symbol).filterMap symbolDigit? = digits := by
    have hdigit : ∀ d ∈ digits, (symbolDigit? ∘ symbol) d = some d := by
      intro d hd
      rw [Function.comp_apply, symbolDigit?_symbol (hdigits d hd)]
    rw [List.filterMap_map, List.filterMap_congr hdigit, List.filterMap_some]
  simp only [unpack, String.toList_ofList, hread]

theorem inCodePage_ofList {digits : List Nat} (hdigits : ∀ d ∈ digits, d < packedRadix) :
    InCodePage (String.ofList (digits.map symbol)) := by
  intro c hc
  rw [String.toList_ofList] at hc
  obtain ⟨d, hd, rfl⟩ := List.mem_map.1 hc
  exact List.mem_of_getElem? (getElem?_symbol (hdigits d hd))

/-- A character that is not printable has no digit, so a program with one is not packed. -/
theorem pack_eq_none {code : String} (h : ¬ Printable code) : pack code = none := by
  cases hread : code.toList.mapM printableDigit? with
  | none => rw [pack, hread, Option.bind_eq_bind, Option.bind_none]
  | some digits =>
      refine absurd (fun c hc => ?_) h
      have hdigit := isSome_of_mapM_eq_some hread c hc
      rw [printableDigit?, Option.isSome_ite] at hdigit
      simp only [firstPrintable, printableRadix] at hdigit
      omega

theorem unpack_filter (packed : String) :
    unpack (String.ofList (packed.toList.filter (· ∈ codePage))) = unpack packed := by
  have hread : (packed.toList.filter (· ∈ codePage)).filterMap symbolDigit? =
      packed.toList.filterMap symbolDigit? := by
    rw [List.filterMap_filter]
    refine List.filterMap_congr fun c _ => ?_
    by_cases hc : c ∈ codePage
    · rw [if_pos (decide_eq_true hc)]
    · rw [if_neg (by simpa using hc), symbolDigit?, List.idxOf?_eq_none_iff.2 hc]
  rw [unpack, String.toList_ofList, hread, unpack]

/-- Packing a program and unpacking it again loses only the spaces at its end. -/
theorem unpack_pack {code : String} (h : Printable code) :
    ∃ packed, pack code = some packed ∧ InCodePage packed ∧ packed.length ≤ code.length ∧
      packed.toList.getLast? ≠ some '!' ∧ unpack packed = dropTrailing ' ' code := by
  obtain ⟨digits, hdigits, rfl⟩ := h.exists_digits
  have hpacked : ∀ d ∈ convert printableRadix packedRadix digits, d < packedRadix :=
    convert_lt (by decide) digits
  refine ⟨_, pack_ofList hdigits, inCodePage_ofList hpacked, ?_, ?_, ?_⟩
  · simpa using length_convert_le (by decide) (by decide) hdigits
  · rw [String.toList_ofList, List.getLast?_map]
    intro hlast
    obtain ⟨d, hd, hmark⟩ := Option.map_eq_some_iff.1 hlast
    rw [symbol_eq_mark] at hmark
    exact getLast?_convert_ne_zero (by decide) digits (hmark ▸ hd)
  · rw [unpack_ofList hpacked, convert_convert (by decide) (by decide) hdigits,
      dropTrailing_map printableChar_eq_space]

/-- Unpacking a text of the code page and packing it again loses only the `!` at its end. -/
theorem pack_unpack {packed : String} (h : InCodePage packed) :
    pack (unpack packed) = some (dropTrailing '!' packed) := by
  obtain ⟨digits, hdigits, rfl⟩ := h.exists_digits
  have hcode : ∀ d ∈ convert packedRadix printableRadix digits, d < printableRadix :=
    convert_lt (by decide) digits
  rw [unpack_ofList hdigits, pack_ofList hcode, convert_convert (by decide) (by decide) hdigits,
    dropTrailing_map symbol_eq_mark]

/-- Packing and unpacking are inverse up to digits that are zero at the most significant end. -/
theorem pack_unpack_inverse :
    (∀ code, Printable code → ∃ packed, pack code = some packed ∧ InCodePage packed ∧
      packed.length ≤ code.length ∧ packed.toList.getLast? ≠ some '!' ∧
      unpack packed = dropTrailing ' ' code) ∧
    (∀ packed, InCodePage packed → pack (unpack packed) = some (dropTrailing '!' packed)) ∧
    (∀ code, ¬ Printable code → pack code = none) ∧
    ∀ packed, unpack (String.ofList (packed.toList.filter (· ∈ codePage))) = unpack packed :=
  ⟨fun _ => unpack_pack, fun _ => pack_unpack, fun _ => pack_eq_none, unpack_filter⟩

/-- A program with a space at its end, a packed text with `!` at its end, and a text that cannot be
packed. -/
theorem pack_unpack_inverse_hello :
    (∃ packed, pack "\"Hello\" " = some packed ∧ unpack packed = "\"Hello\"") ∧
    pack (unpack "S5»Y!!") = some "S5»Y" ∧ pack "caf\u00e9" = none := by
  obtain ⟨hpack, hunpack, hnone, -⟩ := pack_unpack_inverse
  refine ⟨?_, ?_, hnone _ (by decide)⟩
  · obtain ⟨packed, hpacked, -, -, -, hcode⟩ := hpack "\"Hello\" " (by decide)
    exact ⟨packed, hpacked, hcode.trans (by decide)⟩
  · have hpoints : "S5»Y!!".toList.map Char.toNat ⊆ codePoints := by decide
    have hpage : InCodePage "S5»Y!!" := fun c hc => mem_codePage (hpoints (List.mem_map_of_mem hc))
    exact (hunpack "S5»Y!!" hpage).trans (by decide)

/-! ## Running a packed program -/

theorem isPacked_of_mem {packed : String} (h : InCodePage packed) {c : Char}
    (hc : c ∈ packed.toList) (hascii : 128 ≤ c.toNat) : isPacked packed = true := by
  rw [isPacked, Bool.and_eq_true, List.all_eq_true, List.any_eq_true]
  exact ⟨fun c hc => (isSome_symbolDigit? c).2 (h c hc), c, hc, decide_eq_true hascii⟩

theorem not_isPacked {code : String} (h : Printable code) : isPacked code = false := by
  rw [isPacked, Bool.and_eq_false_iff]
  refine .inr (List.any_eq_false.2 fun c hc => ?_)
  have := h c hc
  simp only [decide_eq_true_eq]
  omega

theorem dropTrailing_of_getLast? {c : Char} {text : String} (h : text.toList.getLast? ≠ some c) :
    dropTrailing c text = text := by
  have hlast : ∀ hne : text.toList ≠ [], ¬ (text.toList.getLast hne == c) = true := by
    intro hne heq
    rw [List.getLast?_eq_some_getLast hne, eq_of_beq heq] at h
    exact h rfl
  rw [dropTrailing, List.rdropWhile_eq_self_iff.2 hlast, String.ofList_toList]

/-- A program that is packed with a character outside of ASCII runs as it does when it is not
packed, whatever the options. -/
theorem source_pack (code : String) (hcode : Printable code)
    (hspace : code.toList.getLast? ≠ some ' ') :
    ∃ packed, pack code = some packed ∧
      ((∃ c ∈ packed.toList, 128 ≤ c.toNat) ∨ code = "" →
        ∀ options print, Run.source options packed print = Run.source options code print) := by
  obtain ⟨packed, hpack, hpage, -, -, hunpack⟩ := unpack_pack hcode
  rw [dropTrailing_of_getLast? hspace] at hunpack
  refine ⟨packed, hpack, ?_⟩
  rintro (⟨c, hc, hascii⟩ | rfl) options print
  · have htext : ∀ wrap, Run.programText packed wrap = Run.programText code wrap := by
      intro wrap
      simp only [Run.programText, isPacked_of_mem hpage hc hascii, not_isPacked hcode, hunpack]
      rfl
    rw [Run.source, Run.source, htext]
  · rw [Option.some.inj (hpack.symm.trans (show pack "" = some "" by decide))]

/-- A fold over an array runs alike when it is packed. -/
theorem source_pack_fold :
    pack "+\\[1 2 3]" = some "œ(█‡_¦j'" ∧ ∀ options print,
      Run.source options "œ(█‡_¦j'" print = Run.source options "+\\[1 2 3]" print := by
  have hfold : pack "+\\[1 2 3]" = some "œ(█‡_¦j'" := by
    refine (@pack_ofList [11, 60, 59, 17, 0, 18, 0, 19, 61] (by decide)).trans ?_
    rw [symbol_eq]
    decide
  obtain ⟨packed, hpack, hsource⟩ := source_pack "+\\[1 2 3]" (by decide) (by decide)
  obtain rfl : packed = "œ(█‡_¦j'" := Option.some.inj (hpack.symm.trans hfold)
  exact ⟨hpack, hsource (.inl ⟨'œ', by decide, by decide⟩)⟩

/-! Without a character outside of ASCII the packed text is run as it stands: the numeral `1` is
packed as `2`. -/

theorem perform_ok {α : Type} {session : Session} {step : Eval α} {output : Output} {a : α}
    {M : Machine}
    (h : step session.settings { session.machine with output := output } = .ok a M) :
    Run.perform session step output = .ok (a, { session with machine := M }) M.output := by
  have hperform : Session.perform
      { session with machine := { session.machine with output := output } } step =
        (.ok a, { session with machine := M }) := by
    simp only [Session.perform, h]
  exact congrArg (fun ended : Except Failure α × Session => (do
    set ended.2.machine.output
    return (← Run.ofExcept ended.1, ended.2) : Run (α × Session)) output) hperform

/-- The text of a number does not depend on how deep values may be nested. -/
theorem serialize_number (run : Evaluator) (n : Decimal) (position : Position)
    (settings : Settings) (M : Machine) :
    Eval.serialize run (.number n) position settings M = .ok n.plain M := by
  have hsettle : Eval.settleWithin run position settings.depth (.number n) settings M =
      .ok (.number n) M := by
    cases settings.depth <;> rfl
  have hinline : Eval.inlineWithin settings.depth (.number n) = pure n.plain := by
    cases settings.depth <;> rw [Eval.inlineWithin]
  have hread : (read : Eval Settings) settings M = .ok settings M := rfl
  rw [Eval.serialize, Eval.bind_ok hread, Eval.bind_ok hsettle]
  show Eval.inlineWithin settings.depth (.number n) settings M = _
  rw [hinline]
  rfl

/-- A number is printed in a line of its own. -/
theorem finish_number (run : Evaluator) (n : Decimal) (position : Position) (settings : Settings)
    {M : Machine} (hroom : M.output.room = none) :
    Run.finish run (.number n) position true settings M =
      .ok (.number n) { M with output := ⟨M.output.written ++ (n.plain ++ "\n"), none⟩ } := by
  rw [Run.finish, if_pos rfl, Eval.bind_ok (serialize_number run n position settings M),
    Eval.bind_ok (Eval.writeLine_ok hroom n.plain)]
  rfl

theorem evaluation_numeral {text : String} {n : Decimal} {settings : Settings}
    (hnumeral : Decimal.numeral? text = some n)
    (hround : (n.round settings.precision).bounded = .ok n) (depth : Nat) {M : Machine}
    (hroom : M.output.room = none) :
    Run.evaluation (Eval.nested (depth + 1)) ⟨[.numeral text .start], .start⟩ true settings M =
      .ok (.number n) { M with output := ⟨M.output.written ++ (n.plain ++ "\n"), none⟩ } := by
  -- One level of nesting is enough, as a numeral has no parts.
  have hnode : Eval.nested (depth + 1) (.numeral text .start) settings M = .ok (.number n) M := by
    rw [Eval.nested, Eval.node, Eval.numeral, hnumeral]
    show Eval.number n .start settings M = _
    rw [Eval.number_eq, hround]
    rfl
  have hprogram : Eval.program (Eval.nested (depth + 1)) ⟨[.numeral text .start], .start⟩
      settings M = .ok (.number n) M := by
    show (Eval.nested (depth + 1) (.numeral text .start) >>= _) settings M = _
    rw [Eval.bind_ok hnode]
    rfl
  rw [Run.evaluation, Eval.bind_ok hprogram]
  exact finish_number _ n .start settings hroom

theorem ofExcept_ok {α : Type} (value : α) : Run.ofExcept (.ok value) = pure value := rfl

/-- A program that is read is evaluated in the session that is started. -/
theorem source_of_ok {options : Options} {text : String} {lines : List String}
    {tokens : List Token} {session : Session} {program : Program} {calls : CallTable} {print : Bool}
    (htokens : tokenize (Run.programText text options.wrap) = .ok tokens)
    (hlist : options.listTokens = false) (htree : options.listTree = false)
    (hinput : options.input = .ok lines)
    (hstart : Session.start options.precision (inputValue lines) options.dictionary .unlimited =
      .ok session)
    (hparse : parse tokens session.calls = (.ok program, calls)) :
    Run.source options text print = Run.perform { session with calls := calls }
      (Run.evaluation session.evaluator program print) := by
  have hmap {α β γ : Type} (f : β → γ) (value : α) :
      (Except.ok value : Except β α).mapError f = .ok value := rfl
  simp only [Run.source, htokens, hlist, htree, hinput, hstart, hparse, hmap, ofExcept_ok,
    Bool.false_eq_true, if_false, pure_bind]

/-- What a run writes that prints the value of the program. -/
def printed (options : Options) (text : String) : String :=
  match Run.source options text true .unlimited with
  | .ok _ output => output.written
  | .error _ output => output.written

/-- A program that is one numeral prints its number. -/
theorem printed_numeral {text : String} {n : Decimal} (htext : Printable text)
    (htokens : tokenize text = .ok [⟨.numeral, text, .start⟩])
    (hnumeral : Decimal.numeral? text = some n)
    (hround : (n.round Session.defaultPrecision).bounded = .ok n) :
    printed {} text = n.plain ++ "\n" := by
  have hcalls : Grammar.Listed anyCount Builtin.calls := fun _ _ _ => trivial
  obtain ⟨functions, hscope, -⟩ := Builtin.startScope_cases (inputValue []) hcalls
  let session : Session := ⟨⟨Session.defaultPrecision, inputValue [], .empty, Session.defaultDepth⟩,
    Builtin.calls, ⟨⟨Builtin.startValues (inputValue []), functions, none⟩, [], .empty, .root,
      .unlimited⟩⟩
  have hstart : Session.start Session.defaultPrecision (inputValue []) .empty .unlimited =
      .ok session := by
    unfold Session.start
    rw [hscope]
    rfl
  have hparse : parse [⟨.numeral, text, .start⟩] session.calls =
      (.ok ⟨[.numeral text .start], .start⟩, session.calls) := by
    rfl
  -- The depth of a session is `0xFFFFFFFF + 1`, which must not be counted up to.
  have heval := @evaluation_numeral text n session.settings hnumeral hround 0xFFFFFFFF
    session.machine rfl
  have hperform := @perform_ok _ session _ .unlimited _ _ heval
  have hcode : Run.programText text false = text := by
    simp only [Run.programText, not_isPacked htext, Bool.false_eq_true, if_false]
  have hsource := @source_of_ok {} text [] _ session _ _ true (by rw [hcode, htokens]) rfl rfl rfl
    hstart hparse
  have hrun := (congrFun hsource .unlimited).trans hperform
  rw [printed, hrun]
  exact String.empty_append

/-- The numeral `1` does not print the same when it is packed. -/
theorem source_pack_numeral :
    ¬ ∀ code, Printable code → code.toList.getLast? ≠ some ' ' → ∃ packed, pack code = some packed ∧
      ∀ options, printed options packed = printed options code := by
  intro h
  have hone : pack "1" = some "2" := by
    refine (@pack_ofList [17] (by decide)).trans ?_
    rw [symbol_eq]
    decide
  obtain ⟨packed, hpack, hprinted⟩ := h "1" (by decide) (by decide)
  obtain rfl : packed = "2" := Option.some.inj (hpack.symm.trans hone)
  have htwo := @printed_numeral "2" (.ofInt 2) (by decide) (by decide) (by decide) (by rfl)
  have hone := @printed_numeral "1" (.ofInt 1) (by decide) (by decide) (by decide) (by rfl)
  rw [hprinted, hone] at htwo
  exact absurd htwo (by decide)

end Packing

end Terse
