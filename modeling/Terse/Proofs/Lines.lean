import Terse.Source

/-!
# Where a character stands

There are two ways to say where a character stands.  Walking over a text moves a position with
`Position.after` from one character to the next.  `Position.behind` counts: the line is one more
than the number of line feeds in front of the character, and the column one more than the number of
characters since the last of them.  Walking and counting agree (`Position.afterAll_behind`).

A text that ends within a line consists of what is in front of that line and of the front of the
line (`Source.exists_startsLine`), and only the latter counts for the column
(`Source.behind_append`).

An excerpt finds a line by its number.  `Source.excerpt_behind` shows that for the position of a
character this is the line that holds it, cut where the line ends, and that the caret stands under
the character.

```text
source        earlier ... \n   front   c   rest   \r\n ...
excerpt                        front   c   rest
                               blanks  ^
```

A text is cut into pieces at its line feeds, and then a carriage return is dropped at the end of
each piece but the last.  A cut at a line feed divides the pieces (`Source.pieces_append_newline`),
so the pieces in front of a line are as many as its number says (`Source.endLines_pieces_append`),
and the line itself is the first of the others (`Source.endLines_pieces_line`).
-/

namespace Terse

namespace Position

/-- The place right behind a character that stands at `pos`. -/
def after (pos : Position) (c : Char) : Position :=
  if c = '\n' then ⟨pos.line + 1, 1⟩ else ⟨pos.line, pos.column + 1⟩

/-- The place right behind a run of characters that starts at `pos`. -/
def afterAll (pos : Position) (cs : List Char) : Position :=
  cs.foldl after pos

@[simp] theorem afterAll_nil (pos : Position) : pos.afterAll [] = pos := rfl

@[simp] theorem afterAll_cons (pos : Position) (c : Char) (cs : List Char) :
    pos.afterAll (c :: cs) = (pos.after c).afterAll cs := rfl

/-- The place behind some characters, counted from the beginning of the text. -/
def behind (before : List Char) : Position :=
  ⟨1 + before.count '\n', 1 + (before.reverse.takeWhile (· != '\n')).length⟩

theorem after_behind (before : List Char) (c : Char) :
    (behind before).after c = behind (before ++ [c]) := by
  by_cases hc : c = '\n'
  · subst hc
    simp [behind, after, Nat.add_comm, Nat.add_left_comm]
  · have hcount : List.count '\n' [c] = 0 := List.count_eq_zero.2 (by simpa using Ne.symm hc)
    simp [behind, after, hc, hcount, Nat.add_comm]

/-- Walking over characters counts them. -/
theorem afterAll_behind (before cs : List Char) :
    (behind before).afterAll cs = behind (before ++ cs) := by
  induction cs generalizing before with
  | nil => rw [afterAll_nil, List.append_nil]
  | cons c cs ih => rw [afterAll_cons, after_behind, ih, List.append_assoc, List.singleton_append]

end Position

namespace Source

/-! ## Lines of a text -/

/-- A text that starts a line: it is empty or ends with a line feed. -/
def StartsLine (earlier : List Char) : Prop := earlier = [] ∨ ∃ cs, earlier = cs ++ ['\n']

/-- A text that starts with the end of a line, or is empty. -/
def EndsLine (later : List Char) : Prop :=
  later = [] ∨ (∃ cs, later = '\n' :: cs) ∨ ∃ cs, later = '\r' :: '\n' :: cs

/-- Every text ends within a line. -/
theorem exists_startsLine (before : List Char) :
    ∃ earlier front, before = earlier ++ front ∧ StartsLine earlier ∧ '\n' ∉ front := by
  induction before with
  | nil => exact ⟨[], [], rfl, .inl rfl, List.not_mem_nil⟩
  | cons c cs ih =>
      obtain ⟨earlier, front, rfl, hearlier, hfront⟩ := ih
      -- Without a line feed in what follows, a line feed here starts the line.
      rcases hearlier with rfl | ⟨cs, rfl⟩
      · by_cases hc : c = '\n'
        · exact ⟨['\n'], front, by rw [hc]; rfl, .inr ⟨[], rfl⟩, hfront⟩
        · exact ⟨[], c :: front, rfl, .inl rfl, by simpa using ⟨Ne.symm hc, hfront⟩⟩
      · exact ⟨c :: cs ++ ['\n'], front, rfl, .inr ⟨c :: cs, rfl⟩, hfront⟩

/-- Every text starts within a line. -/
theorem exists_line_end (after : List Char) :
    ∃ back later, after = back ++ later ∧ '\n' ∉ back ∧
      (later = [] ∨ ∃ cs, later = '\n' :: cs) := by
  induction after with
  | nil => exact ⟨[], [], rfl, List.not_mem_nil, .inl rfl⟩
  | cons c cs ih =>
      by_cases hc : c = '\n'
      · exact ⟨[], c :: cs, rfl, List.not_mem_nil, .inr ⟨cs, by rw [hc]⟩⟩
      · obtain ⟨back, later, rfl, hback, hlater⟩ := ih
        exact ⟨c :: back, later, rfl, by simpa using ⟨Ne.symm hc, hback⟩, hlater⟩

/-- Counting within a line starts at its beginning. -/
theorem behind_append {earlier front : List Char} (hearlier : StartsLine earlier)
    (hfront : '\n' ∉ front) :
    Position.behind (earlier ++ front) = ⟨1 + earlier.count '\n', 1 + front.length⟩ := by
  have hback : ∀ c ∈ front.reverse, (c != '\n') = true := by
    intro c hc
    simpa using fun heq : c = '\n' => hfront (heq ▸ List.mem_reverse.1 hc)
  have hcolumn : ((earlier ++ front).reverse.takeWhile (· != '\n')).length = front.length := by
    rw [List.reverse_append, List.takeWhile_append_of_pos hback, List.length_append,
      List.length_reverse]
    rcases hearlier with rfl | ⟨cs, rfl⟩ <;> simp
  rw [Position.behind, hcolumn, List.count_append, List.count_eq_zero.2 hfront, Nat.add_zero]

/-! ## Cutting a text into lines -/

theorem pieces_of_notMem {line : List Char} (hline : '\n' ∉ line) : pieces line = [line] := by
  induction line with
  | nil => rfl
  | cons c cs ih =>
      obtain ⟨hc, hcs⟩ : '\n' ≠ c ∧ '\n' ∉ cs := by simpa using hline
      rw [pieces, if_neg hc.symm, ih hcs]

theorem length_pieces (cs : List Char) : (pieces cs).length = cs.count '\n' + 1 := by
  induction cs with
  | nil => rfl
  | cons c cs ih =>
      by_cases hc : c = '\n'
      · simp [pieces, hc, ih]
      · rw [pieces, if_neg hc, List.count_cons_of_ne hc, ← ih]
        cases hpieces : pieces cs with
        | nil => simp [hpieces] at ih
        | cons piece rest => rfl

theorem pieces_ne_nil (cs : List Char) : pieces cs ≠ [] :=
  List.ne_nil_of_length_pos (by rw [length_pieces]; exact Nat.succ_pos _)

theorem pieces_append_newline (before after : List Char) :
    pieces (before ++ '\n' :: after) = pieces before ++ pieces after := by
  induction before with
  | nil => simp [pieces]
  | cons c cs ih =>
      by_cases hc : c = '\n'
      · simp [pieces, hc, ih]
      · simp only [List.cons_append, pieces, hc, if_false, ih]
        cases hpieces : pieces cs with
        | nil => exact absurd hpieces (pieces_ne_nil cs)
        | cons piece rest => rfl

theorem endLines_append (front : List (List Char)) {rest : List (List Char)} (hrest : rest ≠ []) :
    endLines (front ++ rest) = front.map dropReturn ++ endLines rest := by
  induction front with
  | nil => rfl
  | cons line front ih =>
      rw [List.cons_append, endLines, ih, List.map_cons, List.cons_append]
      exact fun heq => hrest (List.append_eq_nil_iff.1 heq).2

/-- The lines in front of a line are as many as the line feeds in front of it. -/
theorem endLines_pieces_append {earlier : List Char} (hearlier : StartsLine earlier)
    (cs : List Char) : ∃ front, front.length = earlier.count '\n' ∧
      endLines (pieces (earlier ++ cs)) = front ++ endLines (pieces cs) := by
  rcases hearlier with rfl | ⟨before, rfl⟩
  · exact ⟨[], rfl, rfl⟩
  · refine ⟨(pieces before).map dropReturn, ?_, ?_⟩
    · rw [List.length_map, length_pieces, List.count_append, List.count_singleton_self]
    · rw [List.append_assoc, List.singleton_append, pieces_append_newline,
        endLines_append _ (pieces_ne_nil cs)]

/-- A line without its end: a carriage return belongs to the end if a line feed follows. -/
theorem endLines_pieces_line {front back later : List Char} {c : Char} (hfront : '\n' ∉ front)
    (hc : c ≠ '\n' ∧ c ≠ '\r') (hback : '\n' ∉ back)
    (hlater : later = [] ∨ ∃ cs, later = '\n' :: cs) :
    ∃ rest ending more, back ++ later = rest ++ ending ∧ '\n' ∉ rest ∧ EndsLine ending ∧
      endLines (pieces (front ++ c :: back ++ later)) = (front ++ c :: rest) :: more := by
  have hline : '\n' ∉ front ++ c :: back := by simpa using ⟨hfront, hc.1.symm, hback⟩
  rcases hlater with rfl | ⟨cs, rfl⟩
  · refine ⟨back, [], [], rfl, hback, .inl rfl, ?_⟩
    rw [List.append_nil, pieces_of_notMem hline, endLines, if_neg (by simp)]
  · rw [pieces_append_newline, pieces_of_notMem hline, endLines_append _ (pieces_ne_nil cs)]
    by_cases hreturn : (front ++ c :: back).getLast? = some '\r'
    · -- The carriage return is not the character itself, so it stands behind it.
      rcases List.eq_nil_or_concat back with rfl | ⟨rest, last, rfl⟩
      · exact absurd (by simpa using hreturn) hc.2
      have hlast : front ++ c :: rest.concat last = (front ++ c :: rest).concat last := by simp
      rw [hlast, List.concat_eq_append, List.getLast?_concat] at hreturn
      obtain rfl := Option.some.inj hreturn
      refine ⟨rest, '\r' :: '\n' :: cs, endLines (pieces cs), by simp, fun h => ?_,
        .inr (.inr ⟨cs, rfl⟩), ?_⟩
      · exact hback (by simp [h])
      · rw [hlast, List.concat_eq_append, List.map_singleton, dropReturn, List.getLast?_concat,
          if_pos rfl, List.dropLast_concat, List.singleton_append]
    · refine ⟨back, '\n' :: cs, endLines (pieces cs), rfl, hback, .inr (.inl ⟨cs, rfl⟩), ?_⟩
      rw [List.map_singleton, dropReturn, if_neg hreturn, List.singleton_append]

/-! ## Excerpts -/

/-- The characters in front of a caret: tabs are kept, and all others become spaces. -/
def padding (front : List Char) : List Char := front.map fun c => if c = '\t' then '\t' else ' '

/-- An excerpt shows the line of a character that is behind some others, with the caret under the
character. -/
def Shows (source : String) (before : List Char) (c : Char) (shown : String) : Prop :=
  ∃ earlier front rest ending, source.toList = earlier ++ front ++ c :: rest ++ ending ∧
    before = earlier ++ front ∧ StartsLine earlier ∧ '\n' ∉ front ++ c :: rest ∧
    EndsLine ending ∧
    shown = String.ofList (front ++ c :: rest) ++ "\n" ++ String.ofList (padding front) ++ "^"

theorem excerpt_behind {source : String} {before after : List Char} {c : Char}
    (hsource : source.toList = before ++ c :: after) (hc : c ≠ '\n' ∧ c ≠ '\r') :
    Shows source before c (excerpt source (.behind before)) := by
  obtain ⟨earlier, front, rfl, hearlier, hfront⟩ := exists_startsLine before
  obtain ⟨back, later, rfl, hback, hlater⟩ := exists_line_end after
  obtain ⟨rest, ending, more, hsplit, hrest, hending, hline⟩ :=
    endLines_pieces_line hfront hc hback hlater
  obtain ⟨above, habove, hlines⟩ :=
    endLines_pieces_append hearlier (front ++ c :: back ++ later)
  have htext : source.toList = earlier ++ (front ++ c :: back ++ later) := by
    rw [hsource]
    simp
  refine ⟨earlier, front, rest, ending, ?_, rfl, hearlier, ?_, hending, ?_⟩
  · rw [hsource, hsplit]
    simp
  · simpa using ⟨hfront, hc.1.symm, hrest⟩
  -- The line is found behind as many others as there are line feeds in front of it.
  have hfound : (lines source).getD (earlier.count '\n') "" =
      String.ofList (front ++ c :: rest) := by
    rw [lines, htext, hlines, hline, ← habove]
    simp
  simp only [excerpt, behind_append hearlier hfront, Nat.add_sub_cancel_left, hfound, padding,
    String.toList_ofList, List.take_left']

end Source

end Terse
