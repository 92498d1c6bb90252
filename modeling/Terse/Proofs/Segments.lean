import Mathlib.Data.List.Basic
import Terse.Dictionary

/-!
# The segments of a dictionary text

Decoding cuts a dictionary text into segments, each a copied character or a word with the characters
that select it.  What a segment may be depends on the dictionary and on the text behind it
(`Segment.Fits`), and not on capitals.  So the segments are the same whether all words get a capital
or only one that starts the text.

* `cutSegment` takes a segment off a text.  It fits there (`fits_cutSegment`), and no other one does
  (`Segment.Fits.unique`), so that a text has exactly one list of segments.
* `Segment.Fits.decodeFrom` is the step of decoding: a segment that fits is written, and decoding
  goes on behind it.
* `Segmented.decodeFrom_start` is the run.  No segment is written as nothing, so the output is empty
  only in front of the first one, and the output tells whether a word starts the text.

`Segment.Fits` speaks of the numbers of selectors, and of whether another selector stands behind.
Decoding asks the dictionary for a word, with the next character in view.  The lemmas on `selected?`
say what it is given in each of the cases.  `cutSegment` is in between: it is computed like a step
of decoding, and determined by what fits.
-/

namespace Terse

namespace Text

theorem capitalCodes_ne_nil (code : Nat) : capitalCodes code ≠ [] := by
  have hlong : ∀ entry ∈ longCapitals, entry.2 ≠ [] := by decide
  unfold capitalCodes
  split
  case h_1 codes hcodes =>
    obtain ⟨before, after, hentry, -⟩ := List.lookup_eq_some_iff.1 hcodes
    exact hlong (code, codes) (by rw [hentry]; simp)
  case h_2 =>
    split
    · exact List.cons_ne_nil _ _
    · exact List.cons_ne_nil _ _

theorem capitalize_ne_empty {word : String} (h : word ≠ "") : capitalize word ≠ "" := by
  have hne : word.toList ≠ [] := mt String.toList_eq_nil_iff.1 h
  obtain ⟨c, cs, hword⟩ := List.exists_cons_of_ne_nil hne
  have hform : capitalForm c ≠ [] := by simpa [capitalForm] using capitalCodes_ne_nil c.toNat
  simp [capitalize, hword, hform]

end Text

namespace Dictionary

variable {dictionary : Dictionary} {a b c : Char} {capitals : Bool} {output rest : List Char}

/-! ## Selectors -/

theorem selector?_of_mem (h : c ∈ selectors) : selector? c = some (selectors.idxOf c) := by
  obtain ⟨i, hi⟩ := Option.isSome_iff_exists.1 (List.isSome_idxOf?.2 h)
  rw [selector?, List.idxOf_eq_getD_idxOf?, hi, Option.getD_some]

theorem selector?_of_not_mem (h : c ∉ selectors) : selector? c = none :=
  List.idxOf?_eq_none_iff.2 h

theorem selected?_of_not_mem (h : c ∉ selectors) (next : Option Char) :
    dictionary.selected? c next = none := by
  rw [selected?, number?, selector?_of_not_mem h, Option.map_none, Option.bind_none]

theorem selected?_pair (ha : a ∈ selectors) (hb : b ∈ selectors) :
    dictionary.selected? a (some b) =
      dictionary.words[100 * selectors.idxOf a + selectors.idxOf b]? := by
  rw [selected?, number?, selector?_of_mem ha, Option.map_some, Option.bind_some, Option.bind_some,
    selector?_of_mem hb, Option.getD_some]

theorem selected?_single (ha : a ∈ selectors) {next : Option Char}
    (hnext : ∀ c ∈ next, c ∉ selectors) :
    dictionary.selected? a next = dictionary.words[100 * selectors.idxOf a]? := by
  have hlow : next.bind selector? = none := by
    rw [Option.bind_eq_none_iff]
    exact fun c hc => selector?_of_not_mem (hnext c hc)
  rw [selected?, number?, selector?_of_mem ha, hlow, Option.map_some, Option.bind_some,
    Option.getD_none, Nat.add_zero]

theorem mem_of_selected? {next : Option Char} {word : String}
    (h : dictionary.selected? c next = some word) : c ∈ selectors := by
  by_contra hc
  rw [selected?_of_not_mem hc] at h
  cases h

/-! ## Segments -/

/-- A piece of a dictionary text: a character that is copied, or a word, selected by two selectors,
by a selector and a copied character behind it, or by a selector at the end of the text. -/
inductive Segment where
  | copied (c : Char)
  | pair (first second : Char) (word : String)
  | followed (selector next : Char) (word : String)
  | last (selector : Char) (word : String)

namespace Segment

/-- The characters of the dictionary text that a segment consists of. -/
def source : Segment → List Char
  | copied c => [c]
  | pair a b _ => [a, b]
  | followed a c _ => [a, c]
  | last a _ => [a]

/-- What a segment is decoded to, its word with or without a capital. -/
def written (capital : Bool) : Segment → List Char
  | copied c => [c]
  | pair _ _ word => (spelled word).toList
  | followed _ c word => (spelled word).toList ++ [c]
  | last _ word => (spelled word).toList
where
  spelled (word : String) : String := if capital then Text.capitalize word else word

/-- Whether a segment may stand in front of the rest of a text.  A character is copied if it is no
selector, or if the word that it selects is missing.  Two selectors select the word whose number has
the number of the first one as its hundreds and that of the second one as the rest; a selector
without another one behind it selects a word of full hundreds. -/
inductive Fits (dictionary : Dictionary) : Segment → List Char → Prop
  | plain {c : Char} {rest : List Char} (hc : c ∉ selectors) : Fits dictionary (.copied c) rest
  | missingPair {a b : Char} {rest : List Char} (ha : a ∈ selectors) (hb : b ∈ selectors)
      (hmissing : dictionary.words.length ≤ 100 * selectors.idxOf a + selectors.idxOf b) :
      Fits dictionary (.copied a) (b :: rest)
  | missing {a : Char} {rest : List Char} (ha : a ∈ selectors)
      (hrest : ∀ c ∈ rest.head?, c ∉ selectors)
      (hmissing : dictionary.words.length ≤ 100 * selectors.idxOf a) :
      Fits dictionary (.copied a) rest
  | pair {a b : Char} {word : String} {rest : List Char} (ha : a ∈ selectors) (hb : b ∈ selectors)
      (hword : dictionary.words[100 * selectors.idxOf a + selectors.idxOf b]? = some word) :
      Fits dictionary (.pair a b word) rest
  | followed {a c : Char} {word : String} {rest : List Char} (ha : a ∈ selectors)
      (hc : c ∉ selectors) (hword : dictionary.words[100 * selectors.idxOf a]? = some word) :
      Fits dictionary (.followed a c word) rest
  | last {a : Char} {word : String} (ha : a ∈ selectors)
      (hword : dictionary.words[100 * selectors.idxOf a]? = some word) :
      Fits dictionary (.last a word) []

theorem source_ne_nil (segment : Segment) : segment.source ≠ [] := by
  cases segment <;> exact List.cons_ne_nil _ _

end Segment

/-- The segments of a text from left to right, each of which fits in front of those behind it. -/
inductive Segmented (dictionary : Dictionary) : List Char → List Segment → Prop
  | nil : Segmented dictionary [] []
  | cons {segment : Segment} {rest : List Char} {segments : List Segment}
      (hfits : segment.Fits dictionary rest) (h : Segmented dictionary rest segments) :
      Segmented dictionary (segment.source ++ rest) (segment :: segments)

variable {segment : Segment} {segments : List Segment} {cs : List Char}

/-! ## The first segment -/

/-- Takes the first segment off a text, given the word that is selected there. -/
def Segment.cut (c : Char) : List Char → Option String → Segment × List Char
  | rest, none => (.copied c, rest)
  | [], some word => (.last c word, [])
  | next :: rest, some word =>
    if next ∈ selectors then (.pair c next word, rest) else (.followed c next word, rest)

theorem Segment.source_cut (c : Char) (rest : List Char) (word : Option String) :
    (cut c rest word).1.source ++ (cut c rest word).2 = c :: rest := by
  unfold cut
  split
  · rfl
  · rfl
  · split <;> rfl

/-- The first segment of a text and what is left behind it. -/
def cutSegment (dictionary : Dictionary) (c : Char) (rest : List Char) : Segment × List Char :=
  Segment.cut c rest (dictionary.selected? c rest.head?)

theorem fits_copied (h : dictionary.selected? c rest.head? = none) :
    (Segment.copied c).Fits dictionary rest := by
  by_cases hc : c ∈ selectors
  · by_cases hrest : ∀ b ∈ rest.head?, b ∉ selectors
    · have hnone := (selected?_single hc hrest).symm.trans h
      exact .missing hc hrest (List.getElem?_eq_none_iff.1 hnone)
    · cases rest with
      | nil => exact absurd (by simp) hrest
      | cons b rest =>
          have hb : b ∈ selectors := by simpa using hrest
          have hnone := (selected?_pair hc hb).symm.trans h
          exact .missingPair hc hb (List.getElem?_eq_none_iff.1 hnone)
  · exact .plain hc

theorem fits_cutSegment (dictionary : Dictionary) (c : Char) (rest : List Char) :
    (dictionary.cutSegment c rest).1.Fits dictionary (dictionary.cutSegment c rest).2 := by
  unfold cutSegment
  -- Without a word the character is copied; with one, the next character tells which segment it is.
  cases hselected : dictionary.selected? c rest.head? with
  | none =>
      rw [Segment.cut]
      exact fits_copied hselected
  | some word =>
      have hc := mem_of_selected? hselected
      cases rest with
      | nil => exact .last hc ((selected?_single hc (by simp)).symm.trans hselected)
      | cons next rest =>
          rw [Segment.cut]
          split
          case isTrue hnext => exact .pair hc hnext ((selected?_pair hc hnext).symm.trans hselected)
          case isFalse hnext =>
            have hword := (selected?_single hc (by simpa using hnext)).symm.trans hselected
            exact .followed hc hnext hword

/-- A segment that fits is the one that is taken off the text. -/
theorem Segment.Fits.exists_cutSegment (h : segment.Fits dictionary rest) :
    ∃ c tail, segment.source ++ rest = c :: tail ∧
      dictionary.cutSegment c tail = (segment, rest) := by
  unfold cutSegment
  cases h with
  | @plain c _ hc =>
      refine ⟨c, rest, rfl, ?_⟩
      rw [selected?_of_not_mem hc, cut]
  | @missingPair a b rest ha hb hmissing =>
      refine ⟨a, b :: rest, rfl, ?_⟩
      rw [List.head?_cons, selected?_pair ha hb, List.getElem?_eq_none hmissing, cut]
  | @missing a _ ha hrest hmissing =>
      refine ⟨a, rest, rfl, ?_⟩
      rw [selected?_single ha hrest, List.getElem?_eq_none hmissing, cut]
  | @pair a b _ _ ha hb hword =>
      refine ⟨a, b :: rest, rfl, ?_⟩
      rw [List.head?_cons, selected?_pair ha hb, hword, cut, if_pos hb]
  | @followed a c _ _ ha hc hword =>
      refine ⟨a, c :: rest, rfl, ?_⟩
      rw [List.head?_cons, selected?_single ha (by simpa using hc), hword, cut, if_neg hc]
  | @last a _ ha hword =>
      refine ⟨a, [], rfl, ?_⟩
      rw [List.head?_nil, selected?_single ha (by simp), hword, cut]

/-- Only one segment fits at the start of a text. -/
theorem Segment.Fits.unique {other : Segment} {rest' : List Char}
    (h : segment.Fits dictionary rest) (hother : other.Fits dictionary rest')
    (htext : segment.source ++ rest = other.source ++ rest') : other = segment ∧ rest' = rest := by
  obtain ⟨c, tail, hsource, hcut⟩ := h.exists_cutSegment
  obtain ⟨c', tail', hsource', hcut'⟩ := hother.exists_cutSegment
  rw [hsource, hsource'] at htext
  obtain ⟨rfl, rfl⟩ := List.cons.inj htext
  exact Prod.mk.inj (hcut'.symm.trans hcut)

/-! ## The segments of a text -/

theorem exists_segmented (dictionary : Dictionary) (cs : List Char) :
    ∃ segments, dictionary.Segmented cs segments := by
  -- not an induction over the characters, as a segment may take two of them
  induction hlength : cs.length using Nat.strongRecOn generalizing cs with
  | _ length ih =>
      cases cs with
      | nil => exact ⟨[], .nil⟩
      | cons c tail =>
          obtain ⟨segment, rest, hfits, htext⟩ : ∃ segment rest,
              Segment.Fits dictionary segment rest ∧ segment.source ++ rest = c :: tail :=
            ⟨_, _, dictionary.fits_cutSegment c tail, Segment.source_cut c tail _⟩
          have hshorter : rest.length < length := by
            have hpos := List.length_pos_iff.2 segment.source_ne_nil
            rw [← hlength, ← htext, List.length_append]
            omega
          obtain ⟨segments, h⟩ := ih rest.length hshorter rest rfl
          rw [← htext]
          exact ⟨segment :: segments, .cons hfits h⟩

theorem Segmented.unique {others : List Segment} (h : dictionary.Segmented cs segments)
    (hother : dictionary.Segmented cs others) : others = segments := by
  -- the text is a variable where the other segments are taken apart, so that both rules apply
  induction h generalizing others with
  | nil =>
      generalize htext : ([] : List Char) = cs at hother
      cases hother with
      | nil => rfl
      | cons hfits' h' => simp [Segment.source_ne_nil] at htext
  | @cons segment rest segments hfits h ih =>
      generalize htext : segment.source ++ rest = cs at hother
      cases hother with
      | nil => simp [Segment.source_ne_nil] at htext
      | cons hfits' h' =>
          obtain ⟨rfl, rfl⟩ := hfits.unique hfits' htext
          rw [ih h']

theorem Segmented.source_eq (h : dictionary.Segmented cs segments) :
    segments.flatMap Segment.source = cs := by
  induction h with
  | nil => rfl
  | cons hfits h ih => rw [List.flatMap_cons, ih]

/-! ## Decoding -/

/-- One step of decoding: the first segment is written, and decoding goes on behind it. -/
theorem decodeFrom_cons (dictionary : Dictionary) (capitals : Bool) (output : List Char) (c : Char)
    (tail : List Char) :
    dictionary.decodeFrom capitals output (c :: tail) =
      dictionary.decodeFrom capitals
        (((dictionary.cutSegment c tail).1.written (capitals || output.isEmpty)).reverse ++ output)
        (dictionary.cutSegment c tail).2 := by
  unfold cutSegment
  cases tail with
  | nil =>
      rw [decodeFrom, List.head?_nil]
      cases dictionary.selected? c none with
      | none => rfl
      | some word => rfl
  | cons next rest =>
      rw [decodeFrom, List.head?_cons]
      cases dictionary.selected? c (some next) with
      | none => rfl
      | some word =>
          have hselector : (selector? next).isSome = true ↔ next ∈ selectors := List.isSome_idxOf?
          by_cases hnext : next ∈ selectors
          · simp only [Segment.cut, if_pos hnext, if_pos (hselector.2 hnext)]
            rfl
          · simp only [Segment.cut, if_neg hnext, if_neg (mt hselector.1 hnext)]
            simp [writeWord, Segment.written, Segment.written.spelled]

theorem Segment.Fits.decodeFrom (h : segment.Fits dictionary rest) (capitals : Bool)
    (output : List Char) :
    dictionary.decodeFrom capitals output (segment.source ++ rest) =
      dictionary.decodeFrom capitals
        ((segment.written (capitals || output.isEmpty)).reverse ++ output) rest := by
  obtain ⟨c, tail, htext, hcut⟩ := h.exists_cutSegment
  rw [htext, decodeFrom_cons, hcut]

/-- Once there is output, all words are written alike. -/
theorem Segmented.decodeFrom (h : dictionary.Segmented cs segments) (hstarted : output ≠ []) :
    dictionary.decodeFrom capitals output cs =
      output.reverse ++ segments.flatMap (Segment.written capitals) := by
  induction h generalizing output with
  | nil =>
      show output.reverse = output.reverse ++ []
      rw [List.append_nil]
  | cons hfits h ih =>
      have hcapital : (capitals || output.isEmpty) = capitals := by simp [hstarted]
      rw [hfits.decodeFrom, hcapital, ih (List.append_ne_nil_of_right_ne_nil _ hstarted)]
      simp

/-- No segment is written as nothing, as no word of a dictionary is empty. -/
theorem Segment.Fits.written_ne_nil (h : segment.Fits dictionary rest) (capital : Bool) :
    segment.written capital ≠ [] := by
  have hspelled : ∀ (n : Nat) (word : String), dictionary.words[n]? = some word →
      (written.spelled capital word).toList ≠ [] := by
    intro n word hword
    have hne := dictionary.ne_empty word (List.mem_of_getElem? hword)
    unfold written.spelled
    split
    · simpa using Text.capitalize_ne_empty hne
    · simpa using hne
  cases h with
  | plain hc => exact List.cons_ne_nil _ _
  | missingPair ha hb hmissing => exact List.cons_ne_nil _ _
  | missing ha hrest hmissing => exact List.cons_ne_nil _ _
  | pair ha hb hword => exact hspelled _ _ hword
  | followed ha hc hword => exact List.append_ne_nil_of_right_ne_nil _ (List.cons_ne_nil _ _)
  | last ha hword => exact hspelled _ _ hword

/-- Decoding from the start of a text: the output is empty only in front of the first segment. -/
theorem Segmented.decodeFrom_start (h : dictionary.Segmented cs segments) (capitals : Bool) :
    dictionary.decodeFrom capitals [] cs =
      (segments.take 1).flatMap (Segment.written true) ++
        (segments.drop 1).flatMap (Segment.written capitals) := by
  cases h with
  | nil => rfl
  | @cons segment rest segments hfits h =>
      -- the first segment leaves output behind, whether it is a word or not
      have hstarted : (segment.written true).reverse ++ [] ≠ [] := by
        simpa using hfits.written_ne_nil true
      rw [hfits.decodeFrom, List.isEmpty_nil, Bool.or_true, h.decodeFrom hstarted]
      simp

/-- Without words every segment is a copied character. -/
theorem Segmented.written_eq_source (h : dictionary.Segmented cs segments)
    (hwords : dictionary.words = []) (capital : Bool) :
    ∀ segment ∈ segments, segment.written capital = segment.source := by
  induction h with
  | nil => simp
  | cons hfits h ih =>
      refine List.forall_mem_cons.2 ⟨?_, ih⟩
      cases hfits with
      | plain hc => rfl
      | missingPair ha hb hmissing => rfl
      | missing ha hrest hmissing => rfl
      | pair ha hb hword => simp [hwords] at hword
      | followed ha hc hword => simp [hwords] at hword
      | last ha hword => simp [hwords] at hword

theorem decodeFrom_of_words_eq_nil (hwords : dictionary.words = []) (capitals : Bool)
    (cs : List Char) : dictionary.decodeFrom capitals [] cs = cs := by
  obtain ⟨segments, h⟩ := dictionary.exists_segmented cs
  calc dictionary.decodeFrom capitals [] cs
      = (segments.take 1).flatMap (Segment.written true) ++
          (segments.drop 1).flatMap (Segment.written capitals) := h.decodeFrom_start capitals
    _ = (segments.take 1).flatMap Segment.source ++ (segments.drop 1).flatMap Segment.source := by
        congr 1
        · exact List.flatMap_congr fun segment hsegment =>
            h.written_eq_source hwords true segment (List.mem_of_mem_take hsegment)
        · exact List.flatMap_congr fun segment hsegment =>
            h.written_eq_source hwords capitals segment (List.mem_of_mem_drop hsegment)
    _ = segments.flatMap Segment.source := by rw [← List.flatMap_append, List.take_append_drop]
    _ = cs := h.source_eq

/-- A dictionary text has one segmentation, the same for both ways of writing it: the text without
the blanks around it is cut from left to right into segments, each of which fits in front of the
rest, and in no other way.  With a capital for each word the text is decoded to these segments in a
row, each word with a capital; otherwise to the same with a capital only for a word in the first
segment.  Without words a text is decoded to itself, the blanks around it aside. -/
theorem decode_one_segmentation (dictionary : Dictionary) (text : String) :
    ∃ segments,
      (∀ others, dictionary.Segmented (Text.trim text).toList others ↔ others = segments) ∧
      segments.flatMap Segment.source = (Text.trim text).toList ∧
      dictionary.decode text true = String.ofList (segments.flatMap (Segment.written true)) ∧
      dictionary.decode text false =
        String.ofList ((segments.take 1).flatMap (Segment.written true) ++
          (segments.drop 1).flatMap (Segment.written false)) ∧
      (dictionary.isEmpty = true →
        ∀ capitals, dictionary.decode text capitals = Text.trim text) := by
  have htrim : (Text.trim text).toList = Text.trimChars text.toList := String.toList_ofList
  obtain ⟨segments, h⟩ := dictionary.exists_segmented (Text.trim text).toList
  refine ⟨segments, fun others => ⟨h.unique, ?_⟩, h.source_eq, ?_, ?_, ?_⟩
  · rintro rfl
    exact h
  · rw [decode, ← htrim, h.decodeFrom_start, ← List.flatMap_append, List.take_append_drop]
  · rw [decode, ← htrim, h.decodeFrom_start]
  · intro hempty capitals
    rw [decode, decodeFrom_of_words_eq_nil (List.isEmpty_iff.1 hempty), Text.trim]

/-- With the words `zero` and `one`, a text that has a segment of each kind: `a` and `!`, the copied
`z`, whose word is missing in front of `a`, then `ab`, a copied blank, and `a` at the end.  With
blank lines for words, a text stays as it is. -/
theorem decode_one_segmentation_samples :
    (ofText "zero\none").Segmented "a!zab a".toList
        [.followed 'a' '!' "zero", .copied 'z', .pair 'a' 'b' "one", .copied ' ',
          .last 'a' "zero"] ∧
      (ofText "zero\none").decode "\ta!zab a " true = "Zero!zOne Zero" ∧
      (ofText "zero\none").decode "\ta!zab a " false = "Zero!zone zero" ∧
      (ofText " \n\n").isEmpty = true ∧ (ofText " \n\n").decode " ab\t" false = "ab" := by
  have hsegments : (ofText "zero\none").Segmented "a!zab a".toList
      [.followed 'a' '!' "zero", .copied 'z', .pair 'a' 'b' "one", .copied ' ', .last 'a' "zero"] :=
    .cons (.followed (by decide) (by decide) (by decide)) <|
    .cons (.missingPair (by decide) (by decide) (by decide)) <|
    .cons (.pair (by decide) (by decide) (by decide)) <|
    .cons (.plain (by decide)) <|
    .cons (.last (by decide) (by decide)) .nil
  have hempty : (ofText " \n\n").isEmpty = true := by decide
  obtain ⟨segments, hunique, -, hall, hfirst, -⟩ :=
    decode_one_segmentation (ofText "zero\none") "\ta!zab a "
  obtain rfl := (hunique _).1 hsegments
  obtain ⟨-, -, -, -, -, hcopied⟩ := decode_one_segmentation (ofText " \n\n") " ab\t"
  exact ⟨hsegments, hall.trans (by decide), hfirst.trans (by decide), hempty,
    (hcopied hempty false).trans (by decide)⟩

end Dictionary

end Terse
