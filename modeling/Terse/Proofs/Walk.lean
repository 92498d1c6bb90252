import Mathlib.Data.String.Basic
import Terse.Proofs.Lines
import Terse.Token.Lexeme

/-!
# Walking over a source text

Reading a source text keeps two numbers, that of the line it has got to and the byte at which this
line starts.  They change in two places: at a line feed between tokens, and behind a text that goes
over several lines, where the last line feed of the text is looked for.  Everything else that is
read, and every character of more than one byte, leaves them alone.  A column is found by cutting
the source text at two bytes and counting the characters between them.

`tokensFrom` reads the same text as a walk that moves a position over every character.  The two
agree (`tokenize_eq_tokensFrom`), and everything else about tokens is shown of the walk.

The invariant is `Line.Ends before line`: the characters `before` end within the line.  That is,
they are cut at the beginning of a line, whose number and first byte are those that are kept.  Each
of the steps of reading leads it on:

* `Ends.append` over characters other than line feeds;
* `Ends.next` over a line feed between tokens;
* `Ends.behind` over a whole lexeme.

While the characters of a token are passed over, the line is already the one behind the token, so
that the invariant speaks of the characters up to there.  `Ends.position` turns it into the position
that the walk has.
-/

namespace Terse

namespace Lexeme

/-! ## The longest match -/

theorem Rule.better_spec {cs : List Char} {best : Option (Rule × Nat)} {rule : Rule}
    (hbest : ∀ r ∈ best, r.2 = r.1.length cs ∧ 0 < r.2) :
    ∀ r ∈ Rule.better cs best rule, r.2 = r.1.length cs ∧ 0 < r.2 := by
  unfold Rule.better
  cases best with
  | none =>
      simp only
      split
      · rename_i hlength
        exact fun r hr => Option.some.inj hr ▸ ⟨rfl, hlength⟩
      · simp
  | some kept =>
      simp only
      split
      · rename_i hlength
        exact fun r hr => Option.some.inj hr ▸ ⟨rfl, Nat.zero_lt_of_lt hlength⟩
      · exact hbest

/-- The longest match takes as many characters as its rule does, and at least one. -/
theorem longest?_spec {cs : List Char} {rule : Rule} {length : Nat}
    (h : longest? cs = some (rule, length)) : length = rule.length cs ∧ 0 < length := by
  have hfold : ∀ (rules : List Rule) (best : Option (Rule × Nat)),
      (∀ r ∈ best, r.2 = r.1.length cs ∧ 0 < r.2) →
      ∀ r ∈ rules.foldl (Rule.better cs) best, r.2 = r.1.length cs ∧ 0 < r.2 := by
    intro rules
    induction rules with
    | nil => exact fun _ hbest => hbest
    | cons rule rules ih => exact fun _ hbest => ih _ (Rule.better_spec hbest)
  exact hfold Rule.all none (by simp) (rule, length) h

theorem Rule.token_text_ne {rule : Rule} {lexeme : List Char} {position : Position}
    (hlexeme : lexeme ≠ []) (hkind : (rule.token lexeme position).kind = .name) :
    (rule.token lexeme position).text ≠ "" := by
  cases rule with
  | name => exact fun htext => hlexeme (String.ofList_eq_empty_iff.1 htext)
  | text => cases lexeme <;> cases hkind
  | numeral | symbol => cases hkind

/-! ## The walk -/

/-- The tokens of a text that starts at a position; its first `skip` characters belong to a token
that is already made. -/
def tokensFrom : Nat → Position → List Char → Except LexError (List Token)
  | _, _, [] => .ok []
  | skip + 1, position, c :: cs => tokensFrom skip (position.after c) cs
  | 0, position, c :: cs =>
    if isSpace c then tokensFrom 0 (position.after c) cs
    else match longest? (c :: cs) with
      | none => .error ⟨c, position⟩
      | some (rule, length) => do
        let rest ← tokensFrom (length - 1) (position.after c) cs
        .ok (rule.token ((c :: cs).take length) position :: rest)

theorem name_ne_of_tokensFrom {skip : Nat} {position : Position} {cs : List Char}
    {tokens : List Token} (h : tokensFrom skip position cs = .ok tokens) :
    ∀ token ∈ tokens, token.kind = .name → token.text ≠ "" := by
  fun_induction tokensFrom skip position cs generalizing tokens with
  | case1 =>
      cases h
      simp
  | case2 _ _ _ _ ih | case3 _ _ _ _ ih => exact ih h
  | case4 => cases h
  | case5 position c cs _ rule length hlongest ih =>
      cases hrest : tokensFrom (length - 1) (position.after c) cs with
      | error failure =>
          rw [hrest] at h
          cases h
      | ok rest =>
          rw [hrest] at h
          obtain rfl := Except.ok.inj h
          refine List.forall_mem_cons.2 ⟨Rule.token_text_ne ?_, ih hrest⟩
          rw [← Nat.succ_pred_eq_of_pos (longest?_spec hlongest).2]
          exact List.cons_ne_nil _ _

/-! ## Bytes -/

/-- The byte behind some characters. -/
def byteBehind (before : List Char) : String.Pos.Raw := ⟨String.utf8Len before⟩

theorem byteBehind_append (before : List Char) (c : Char) :
    byteBehind (before ++ [c]) = byteBehind before + c := by
  simp [byteBehind, String.Pos.Raw.ext_iff]

/-- Between two bytes of a text there are the characters that stand there. -/
theorem extract_byteBehind {source : String} {earlier front rest : List Char}
    (hsource : source.toList = earlier ++ front ++ rest) :
    String.Pos.Raw.extract source (byteBehind earlier) (byteBehind (earlier ++ front)) =
      String.ofList front := by
  have hcut := String.extract_of_valid earlier front rest
  rw [← hsource, String.ofList_toList] at hcut
  rw [byteBehind, byteBehind, String.utf8Len_append]
  exact hcut

/-- The last line feed, if there is one, has none behind it. -/
theorem lastBreak?_cases (cs : List Char) :
    (lastBreak? cs = none ∧ '\n' ∉ cs) ∨
      ∃ upto rest, cs = upto ++ '\n' :: rest ∧ '\n' ∉ rest ∧
        lastBreak? cs = some (String.utf8Len upto) := by
  induction cs with
  | nil => exact .inl ⟨rfl, List.not_mem_nil⟩
  | cons c cs ih =>
      rcases ih with ⟨hnone, hcs⟩ | ⟨upto, rest, rfl, hrest, hsome⟩
      · by_cases hc : c = '\n'
        · subst hc
          exact .inr ⟨[], cs, rfl, hcs, by rw [lastBreak?, hnone]; rfl⟩
        · refine .inl ⟨by rw [lastBreak?, hnone]; exact if_neg hc, ?_⟩
          simpa using ⟨Ne.symm hc, hcs⟩
      · refine .inr ⟨c :: upto, rest, rfl, hrest, ?_⟩
        rw [lastBreak?, hsome, String.utf8Len_cons, Nat.add_comm]

/-! ## The line that is kept -/

namespace Line

/-- Some characters end within a line: they are cut where it starts. -/
def Ends (before : List Char) (line : Line) : Prop :=
  ∃ earlier front, before = earlier ++ front ∧ Source.StartsLine earlier ∧ '\n' ∉ front ∧
    line = ⟨1 + earlier.count '\n', byteBehind earlier⟩

theorem ends_first : Ends [] first := ⟨[], [], rfl, .inl rfl, List.not_mem_nil, rfl⟩

namespace Ends

variable {source : String} {before after : List Char} {line : Line}

theorem append (h : Ends before line) {cs : List Char} (hcs : '\n' ∉ cs) :
    Ends (before ++ cs) line := by
  obtain ⟨earlier, front, rfl, hearlier, hfront, rfl⟩ := h
  refine ⟨earlier, front ++ cs, List.append_assoc _ _ _, hearlier, ?_, rfl⟩
  simpa using ⟨hfront, hcs⟩

/-- The number of the line counts all line feeds. -/
theorem number_eq (h : Ends before line) : line.number = 1 + before.count '\n' := by
  obtain ⟨earlier, front, rfl, -, hfront, rfl⟩ := h
  rw [List.count_append, List.count_eq_zero.2 hfront, Nat.add_zero]

/-- A new line starts behind a line feed. -/
theorem next (h : Ends before line) :
    Ends (before ++ ['\n']) (line.next (byteBehind (before ++ ['\n']))) := by
  refine ⟨before ++ ['\n'], [], (List.append_nil _).symm, .inr ⟨before, rfl⟩, List.not_mem_nil, ?_⟩
  rw [Line.next, h.number_eq, List.count_append, List.count_singleton_self, Nat.add_assoc]

/-- Behind a lexeme with line feeds, the line starts behind the last of them. -/
theorem behind (h : Ends before line) (lexeme : List Char) :
    Ends (before ++ lexeme) (line.behind (byteBehind before) lexeme) := by
  rcases lastBreak?_cases lexeme with ⟨hnone, hlexeme⟩ | ⟨upto, rest, rfl, hrest, hsome⟩
  · rw [Line.behind, hnone]
    exact h.append hlexeme
  · refine ⟨before ++ upto ++ ['\n'], rest, by simp, .inr ⟨before ++ upto, rfl⟩, hrest, ?_⟩
    have hstart : byteBehind (before ++ upto ++ ['\n']) =
        ⟨(byteBehind before).byteIdx + String.utf8Len upto + 1⟩ := by
      simp only [byteBehind, String.utf8Len_append]
      rfl
    have hcount : (upto ++ '\n' :: rest).count '\n' = upto.count '\n' + 1 := by
      rw [List.count_append, List.count_cons_self, List.count_eq_zero.2 hrest]
    rw [Line.behind, hsome, hstart, h.number_eq, hcount]
    simp only [List.count_append, List.count_singleton_self]
    congr 1
    omega

/-- The position of the character behind is that which counting gives. -/
theorem position (h : Ends before line) (hsource : source.toList = before ++ after) :
    line.position source (byteBehind before) = .behind before := by
  obtain ⟨earlier, front, rfl, hearlier, hfront, rfl⟩ := h
  rw [Line.position, extract_byteBehind hsource, Source.behind_append hearlier hfront,
    String.length_ofList, Nat.add_comm front.length]

end Ends

end Line

/-! ## Reading is walking -/

/-- From characters that end within the line that is kept, reading goes on as the walk does.  The
induction is on the characters that are left; the line is that behind the `skip` characters of the
token that is already made. -/
theorem scan_eq_tokensFrom {source : String} (cs : List Char) :
    ∀ {skip : Nat} {before : List Char} {line : Line}, source.toList = before ++ cs →
      line.Ends (before ++ cs.take skip) →
      scan source skip (byteBehind before) line cs = tokensFrom skip (.behind before) cs := by
  induction cs with
  | nil =>
      intro skip before line _ _
      rw [scan, tokensFrom]
  | cons c cs ih =>
      intro skip before line hsource hline
      have hrest : source.toList = before ++ [c] ++ cs := by simpa using hsource
      cases skip with
      | succ skip =>
          rw [scan, tokensFrom, ← byteBehind_append, Position.after_behind]
          exact ih hrest (by simpa using hline)
      | zero =>
          rw [List.take_zero, List.append_nil] at hline
          -- A gap: a line feed starts a line, and another space does not.
          by_cases hbreak : c = '\n'
          · subst hbreak
            have hspace : isSpace '\n' = true := rfl
            rw [scan, if_pos rfl, tokensFrom, if_pos hspace, ← byteBehind_append,
              Position.after_behind]
            exact ih hrest (by simpa using hline.next)
          by_cases hspace : isSpace c = true
          · have hone : '\n' ∉ [c] := by simpa using Ne.symm hbreak
            rw [scan, if_neg hbreak, if_pos hspace, tokensFrom, if_pos hspace, ← byteBehind_append,
              Position.after_behind]
            exact ih hrest (by simpa using hline.append hone)
          -- A token, or none: its position is taken where the lexeme starts.
          rw [scan, if_neg hbreak, if_neg hspace, tokensFrom, if_neg hspace, hline.position hsource]
          cases hlongest : longest? (c :: cs) with
          | none => rfl
          | some found =>
              obtain ⟨rule, length⟩ := found
              have hlexeme : (c :: cs).take length = c :: cs.take (length - 1) := by
                rw [← Nat.succ_pred_eq_of_pos (longest?_spec hlongest).2]
                rfl
              have hbehind : (line.behind (byteBehind before) ((c :: cs).take length)).Ends
                  (before ++ [c] ++ cs.take (length - 1)) := by
                rw [hlexeme, List.append_assoc, List.singleton_append]
                exact hline.behind (c :: cs.take (length - 1))
              simp only [← byteBehind_append, Position.after_behind, ih hrest hbehind]

end Lexeme

/-- The tokens of a source text are those that a walk over it finds. -/
theorem tokenize_eq_tokensFrom (source : String) :
    tokenize source = Lexeme.tokensFrom 0 .start source.toList :=
  @Lexeme.scan_eq_tokensFrom source source.toList 0 [] .first rfl Lexeme.Line.ends_first

/-- No token of a source text is a name without characters. -/
theorem name_ne_of_tokenize {source : String} {tokens : List Token}
    (h : tokenize source = .ok tokens) : ∀ token ∈ tokens, token.kind = .name → token.text ≠ "" :=
  Lexeme.name_ne_of_tokensFrom (tokenize_eq_tokensFrom source ▸ h)

end Terse
