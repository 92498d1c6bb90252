import Terse.Evaluation.Binary
import Terse.Proofs.Reread

/-!
# Joining what was split

A text that is split at a separator and joined with the same separator is the text again.  Two facts
about the walk of `Text.cutFrom` carry this:

* `intercalate_cutFrom`: the parts with the separator between them spell the part that is being read
  and what is left of the text;
* `leftmost_cutFrom`: no occurrence of the separator begins in the part that is being read
  (`Clear`), so that every cut is at the leftmost occurrence behind the one before, and no part
  contains the separator.

Both are by the recursion of the walk, which has four cases: the text ends, a character of a
separator is skipped, a separator begins and a part ends, or a character is read.  `Clear` speaks of
the part and of what is left of the text together, since an occurrence may begin in the one and end
in the other.

The empty separator is a case of its own, in which every part is one character.
-/

namespace Terse

namespace Text

variable {separator read rest : List Char}

/-! ## The parts spell the text -/

theorem cutFrom_ne_nil (separator : List Char) (skip : Nat) (part cs : List Char) :
    cutFrom separator skip part cs ≠ [] := by
  fun_induction cutFrom separator skip part cs with
  | case1 => exact List.cons_ne_nil _ _
  | case2 skip part c cs ih => exact ih
  | case3 => exact List.cons_ne_nil _ _
  | case4 part c cs hprefix ih => exact ih

theorem intercalate_cutFrom (h : separator ≠ []) (skip : Nat) (part cs : List Char) :
    separator.intercalate (cutFrom separator skip part cs) = part.reverse ++ cs.drop skip := by
  fun_induction cutFrom separator skip part cs with
  | case1 => simp
  | case2 skip part c cs ih => exact ih
  | case3 part c cs hprefix ih =>
      obtain ⟨back, hback⟩ := List.isPrefixOf_iff_prefix.1 hprefix
      -- what is skipped is the occurrence without its first character
      have hdrop : cs.drop (separator.length - 1) = back := by
        obtain ⟨s, separator', rfl⟩ := List.exists_cons_of_ne_nil h
        obtain ⟨-, rfl⟩ := List.cons.inj hback
        exact List.drop_left
      rw [List.intercalate_cons_of_ne_nil (cutFrom_ne_nil _ _ _ _), ih, hdrop, List.drop_zero,
        ← hback]
      simp
  | case4 part c cs hprefix ih =>
      rw [ih]
      simp

/-! ## The cuts are at the leftmost occurrences -/

/-- No occurrence of the separator in the text `read ++ rest` begins in `read`. -/
def Clear (separator read rest : List Char) : Prop :=
  ∀ back, back <:+ read → back ≠ [] → ¬ separator <+: back ++ rest

theorem Clear.nil (separator rest : List Char) : Clear separator [] rest :=
  fun _ hback hne => absurd (List.suffix_nil.1 hback) hne

/-- Reading one character more, at which no occurrence begins. -/
theorem Clear.push {c : Char} (h : Clear separator read (c :: rest))
    (hc : ¬ separator <+: c :: rest) : Clear separator (read ++ [c]) rest := by
  intro back hback hne
  obtain rfl | ⟨front, rfl, hfront⟩ := List.suffix_concat_iff.1 hback
  · exact absurd rfl hne
  · rw [List.append_assoc, List.singleton_append]
    by_cases hempty : front = []
    · rw [hempty, List.nil_append]
      exact hc
    · exact h front hfront hempty

theorem Clear.not_infix (h : Clear separator read rest) (hne : separator ≠ []) :
    ¬ separator <:+: read := by
  rintro ⟨front, back, rfl⟩
  refine h (separator ++ back) ?_ (by simp [hne]) ?_
  · rw [List.append_assoc]
    exact List.suffix_append _ _
  · rw [List.append_assoc]
    exact List.prefix_append _ _

/-- Where the separator comes next, it occurs in the text up to its end only once. -/
theorem Clear.not_infix_dropLast (h : Clear separator read (separator ++ rest))
    (hne : separator ≠ []) : ¬ separator <:+: (read ++ separator).dropLast := by
  rintro ⟨front, back, hoccurs⟩
  rw [List.dropLast_append_of_ne_nil hne, List.append_assoc] at hoccurs
  have hlength := congrArg List.length hoccurs
  have hpos := List.length_pos_iff.2 hne
  simp only [List.length_append, List.length_dropLast] at hlength
  -- the occurrence is too long to begin behind `read`
  obtain ⟨behind, rfl, hbehind⟩ | ⟨surplus, rfl, -⟩ := List.append_eq_append_iff.1 hoccurs
  · refine h behind (List.suffix_append _ _) ?_ ?_
    · rintro rfl
      simp only [List.append_nil] at hlength
      omega
    · have hstart : separator <+: behind ++ separator.dropLast := ⟨back, hbehind⟩
      refine hstart.trans ((List.prefix_append_right_inj _).2 ?_)
      exact (List.dropLast_prefix separator).trans (List.prefix_append _ _)
  · simp only [List.length_append] at hlength
    omega

/-- Parts that are cut at the leftmost occurrences of a separator: none of them contains it, and in
front of a cut it occurs for the first time. -/
structure Leftmost (separator : List Char) (parts : List (List Char)) : Prop where
  free : ∀ part ∈ parts, ¬ separator <:+: part
  first : ∀ part ∈ parts.dropLast, ¬ separator <:+: (part ++ separator).dropLast

theorem leftmost_cutFrom (hne : separator ≠ []) (skip : Nat) (part cs : List Char)
    (h : Clear separator part.reverse (cs.drop skip)) :
    Leftmost separator (cutFrom separator skip part cs) := by
  fun_induction cutFrom separator skip part cs with
  | case1 skip part => exact ⟨by simpa using h.not_infix hne, by simp⟩
  | case2 skip part c cs ih => exact ih h
  | case3 part c cs hprefix ih =>
      obtain ⟨back, hback⟩ := List.isPrefixOf_iff_prefix.1 hprefix
      -- behind the cut a new part begins, in which nothing has been read
      obtain ⟨hfree, hfirst⟩ := ih (.nil _ _)
      rw [List.drop_zero, ← hback] at h
      refine ⟨List.forall_mem_cons.2 ⟨h.not_infix hne, hfree⟩, ?_⟩
      rw [List.dropLast_cons_of_ne_nil (cutFrom_ne_nil _ _ _ _)]
      exact List.forall_mem_cons.2 ⟨h.not_infix_dropLast hne, hfirst⟩
  | case4 part c cs hprefix ih =>
      apply ih
      rw [List.reverse_cons]
      exact h.push fun hc => hprefix (List.isPrefixOf_iff_prefix.2 hc)

/-! ## Texts -/

theorem intercalate_singletons (cs : List Char) :
    List.intercalate [] (cs.map fun c => [c]) = cs := by
  induction cs with
  | nil => rfl
  | cons c cs ih =>
      by_cases h : cs = []
      · rw [h]
        rfl
      · rw [List.map_cons, List.intercalate_cons_of_ne_nil (by simpa using h), ih]
        rfl

theorem intercalate_characters (text : String) :
    String.intercalate "" (characters text) = text := by
  rw [← String.toList_inj, String.toList_intercalate]
  simpa [characters, Function.comp_def] using intercalate_singletons text.toList

theorem intercalate_split (separator text : String) :
    String.intercalate separator (split separator text) = text := by
  unfold split
  split
  case isTrue h => rw [h, intercalate_characters]
  case isFalse h =>
    have hne : separator.toList ≠ [] := by simpa using h
    rw [← String.toList_inj, String.toList_intercalate, cut, List.map_map]
    simpa [Function.comp_def] using intercalate_cutFrom hne 0 [] text.toList

theorem leftmost_split {separator : String} (h : separator ≠ "") (text : String) :
    Leftmost separator.toList ((split separator text).map String.toList) := by
  have hne : separator.toList ≠ [] := by simpa using h
  rw [split, if_neg h, cut, List.map_map]
  simpa [Function.comp_def] using leftmost_cutFrom hne 0 [] text.toList (.nil _ _)

end Text

namespace Eval

variable (run : Evaluator)

theorem applyBinary_split (text separator : String) (position : Position) :
    applyBinary run .split (.text text) (.text separator) position =
      pure (.array ((Text.split separator text).map .text)) := by
  simp only [applyBinary, toText_text, pure_bind]

theorem applyBinary_join_texts (texts : List String) (separator : String) (position : Position) :
    applyBinary run .join (.array (texts.map .text)) (.text separator) position =
      pure (.text (String.intercalate separator texts)) := by
  have htexts : (texts.map Value.text).mapM (toText run) = (pure texts : Eval (List String)) := by
    rw [List.mapM_map]
    simp only [Function.comp_def, toText_text]
    exact (List.mapM_pure (f := id)).trans (by rw [List.map_id])
  simp only [applyBinary, toText_text, pure_bind, join, toList, htexts]

/-- Joining undoes splitting, for every text and every separator: splitting gives an array of texts
from which joining with the same separator makes the text again.  If the separator is not empty, no
part contains it, and each cut is at the leftmost occurrence behind the cut before: the separator
occurs at the end of what was read up to there, and nowhere in front. -/
theorem join_undoes_split (text separator : String) (position position' : Position)
    (settings : Settings) (M : Machine) :
    ∃ parts : List String,
      applyBinary run .split (.text text) (.text separator) position settings M =
          .ok (.array (parts.map .text)) M ∧
        applyBinary run .join (.array (parts.map .text)) (.text separator) position' settings M =
          .ok (.text text) M ∧
        (separator ≠ "" → ∀ part ∈ parts, ¬ separator.toList <:+: part.toList) ∧
        (separator ≠ "" → ∀ part ∈ parts.dropLast,
          ¬ separator.toList <:+: (part ++ separator).toList.dropLast) := by
  refine ⟨Text.split separator text, ?_, ?_, fun h part hpart => ?_, fun h part hpart => ?_⟩
  · rw [applyBinary_split]
    rfl
  · rw [applyBinary_join_texts, Text.intercalate_split]
    rfl
  · exact (Text.leftmost_split h text).free _ (List.mem_map_of_mem hpart)
  · rw [String.toList_append]
    apply (Text.leftmost_split h text).first
    rw [← List.map_dropLast]
    exact List.mem_map_of_mem hpart

/-- Of three dashes in a row the first two are cut out, and an occurrence at the end leaves an empty
part behind it. -/
theorem join_undoes_split_dashes :
    "--" ≠ "" ∧ ∀ run settings M,
      applyBinary run .split (.text "a---b--") (.text "--") .start settings M =
          .ok (.array [.text "a", .text "-b", .text ""]) M ∧
        applyBinary run .join (.array [.text "a", .text "-b", .text ""]) (.text "--") .start
          settings M = .ok (.text "a---b--") M ∧
        (∀ part ∈ ["a", "-b", ""], ¬ "--".toList <:+: part.toList) ∧
        ∀ part ∈ ["a", "-b"], ¬ "--".toList <:+: (part ++ "--").toList.dropLast := by
  have hne : "--" ≠ "" := by decide
  refine ⟨hne, fun run settings M => ?_⟩
  obtain ⟨parts, hsplit, hjoin, hfree, hfirst⟩ :=
    join_undoes_split run "a---b--" "--" .start .start settings M
  have hparts : parts = ["a", "-b", ""] := by
    have hvalue := hsplit
    rw [applyBinary_split, show Text.split "--" "a---b--" = ["a", "-b", ""] by decide] at hvalue
    have hitems := Value.array.inj (EStateM.Result.ok.inj hvalue).1
    exact List.map_injective_iff.2 (fun _ _ => Value.text.inj) hitems.symm
  subst hparts
  exact ⟨hsplit, hjoin, hfree hne, hfirst hne⟩

end Eval

end Terse
