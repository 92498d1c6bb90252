import Terse.Proofs.Walk

/-!
# Tokens cover a source text

A source text is cut into pieces, each of which is a gap of spaces and a lexeme, the characters that
a token was made of.  Behind the last piece there are only spaces, or spaces and a character at
which no token starts.

`Piece.Stands` says what holds of a piece between the characters in front of it and those behind it:
its lexeme is as long as any rule admits there, and the position of its token is that of the
lexeme's first character, counted from the beginning of the text.

## Strategy

* A rule takes only characters that are there (`Rule.length_le`), so the longest match is a lexeme
  and the rest of the text comes behind it (`exists_lexeme`).
* `Cut` is the shape that the induction builds: the characters in front, then one piece after
  another.  `Covers` is what is said in the end; a cut from the beginning on covers the text
  (`Cut.covers`).
* `covered_tokensFrom` is the walk over the text.  It has passed `before`, which ends with a piece,
  and then the spaces `gap`.  A space makes the gap longer; a lexeme makes a piece out of the gap
  and itself, and starts a new gap; a character at which no token starts ends the walk.

The tokens of this walk are those of `tokenize`, which keeps its place in other ways
(`Terse.Proofs.Walk`).
-/

namespace Terse

namespace Lexeme

/-! ## A rule takes only characters that are there -/

theorem bodyLength_le (closing cs : List Char) : bodyLength closing cs ≤ cs.length := by
  fun_induction bodyLength closing cs with
  | case1 => exact Nat.le_refl 0
  | case2 => simp
  | case3 _ cs _ ih =>
      simp only [List.length_cons]
      omega
  | case4 => simp
  | case5 c cs _ _ _ ih =>
      simp only [List.length_cons]
      omega

theorem digitsLength_le (cs : List Char) : digitsLength cs ≤ cs.length :=
  (List.takeWhile_prefix _).length_le

theorem mantissaLength_le (cs : List Char) : mantissaLength cs ≤ cs.length := by
  have hwhole := digitsLength_le cs
  unfold mantissaLength
  simp only
  split
  -- Behind a decimal point the digits of the fraction count too.
  · rename_i rest hrest
    have hfraction := digitsLength_le rest
    have hlength := congrArg List.length hrest
    simp only [List.length_drop, List.length_cons] at hlength
    split <;> omega
  · exact hwhole

theorem exponentLength_le (cs : List Char) : exponentLength cs ≤ cs.length := by
  unfold exponentLength
  split
  · rename_i cs
    have hdigits := digitsLength_le cs
    simp only [List.length_cons]
    split <;> omega
  · rename_i cs _
    have hdigits := digitsLength_le cs
    simp only [List.length_cons]
    split <;> omega
  · exact Nat.zero_le _

theorem bareExponentLength_le (cs : List Char) : bareExponentLength cs ≤ cs.length := by
  unfold bareExponentLength
  split
  · rename_i cs
    have hdigits := digitsLength_le cs
    simp only [List.length_cons]
    split <;> omega
  · exact Nat.zero_le _

theorem unsignedLength_le (cs : List Char) : unsignedLength cs ≤ cs.length := by
  have hmantissa := mantissaLength_le cs
  have hexponent := exponentLength_le (cs.drop (mantissaLength cs))
  rw [List.length_drop] at hexponent
  unfold unsignedLength
  simp only
  split
  · exact bareExponentLength_le cs
  · omega

theorem numeralLength_le (cs : List Char) : numeralLength cs ≤ cs.length := by
  unfold numeralLength
  split
  · rename_i cs
    have hlength := unsignedLength_le cs
    simp only [List.length_cons]
    split <;> omega
  · exact unsignedLength_le cs

theorem nameLength_le (cs : List Char) : nameLength cs ≤ cs.length := by
  cases cs with
  | nil => exact Nat.le_refl 0
  | cons c cs =>
      have hname : (cs.takeWhile continuesName).length ≤ cs.length :=
        (List.takeWhile_prefix _).length_le
      rw [nameLength, List.length_cons]
      split <;> omega

theorem symbolLength_le (cs : List Char) : symbolLength cs ≤ cs.length := by
  -- The symbols of two characters are tried first.
  have hlong : ∀ s ∈ longSymbols, s.toList.length = 2 := by decide
  have hshort : ∀ s ∈ shortSymbols, s.toList.length = 1 := by decide
  unfold symbolLength
  split
  · rename_i hany
    obtain ⟨s, hs, heq⟩ := List.any_eq_true.1 hany
    have hlength := hlong s hs
    rw [eq_of_beq heq, List.length_take] at hlength
    omega
  · split
    · rename_i hany
      obtain ⟨s, hs, heq⟩ := List.any_eq_true.1 hany
      have hlength := hshort s hs
      rw [eq_of_beq heq, List.length_take] at hlength
      omega
    · exact Nat.zero_le _

theorem Rule.length_le (rule : Rule) (cs : List Char) : rule.length cs ≤ cs.length := by
  cases rule with
  | text =>
      cases cs with
      | nil => exact Nat.le_refl 0
      | cons c cs =>
          simp only [Rule.length, List.length_cons]
          split
          · exact Nat.succ_le_succ (bodyLength_le _ cs)
          · exact Nat.zero_le _
  | numeral => exact numeralLength_le cs
  | name => exact nameLength_le cs
  | symbol => exact symbolLength_le cs

/-- The longest match is a lexeme at the front of the text. -/
theorem exists_lexeme {c : Char} {cs : List Char} {rule : Rule} {length : Nat}
    (h : longest? (c :: cs) = some (rule, length)) :
    ∃ front rest, cs = front ++ rest ∧ length = (c :: front).length := by
  obtain ⟨hlength, hpos⟩ := longest?_spec h
  have hle := rule.length_le (c :: cs)
  rw [← hlength, List.length_cons] at hle
  refine ⟨cs.take (length - 1), cs.drop (length - 1), (List.take_append_drop _ cs).symm, ?_⟩
  rw [List.length_cons, List.length_take]
  omega

/-! ## Pieces of a source text -/

/-- A token, the characters that it was made of, and the spaces in front of them. -/
structure Piece where
  gap : List Char
  lexeme : List Char
  rule : Rule
  token : Token

namespace Piece

/-- The characters of a piece. -/
def text (p : Piece) : List Char := p.gap ++ p.lexeme

/-- The characters of pieces that stand one behind another. -/
def written (pieces : List Piece) : List Char := pieces.flatMap text

@[simp] theorem written_nil : written [] = [] := rfl

@[simp] theorem written_cons (p : Piece) (pieces : List Piece) :
    written (p :: pieces) = p.text ++ written pieces := rfl

end Piece

/-- A position is that of a character behind some others: one more than the line feeds in front of
it, and one more than the characters since the last of them.  The excerpt marks the character. -/
structure Marks (source : String) (before : List Char) (c : Char) (position : Position) :
    Prop where
  line : position.line = 1 + before.count '\n'
  column : position.column = 1 + (before.reverse.takeWhile (· != '\n')).length
  shown : Source.Shows source before c (Source.excerpt source position)

/-- A piece stands in a source text between other characters: its gap consists of spaces, its rule
takes the lexeme and no rule takes more, and the position of its token is that of the first
character of the lexeme. -/
structure Piece.Stands (source : String) (before : List Char) (p : Piece) (after : List Char) :
    Prop where
  gap : ∀ c ∈ p.gap, isSpace c = true
  longest : longest? (p.lexeme ++ after) = some (p.rule, p.lexeme.length)
  token : ∃ position, p.token = p.rule.token p.lexeme position
  marks : ∃ c rest, p.lexeme = c :: rest ∧ Marks source (before ++ p.gap) c p.token.position

/-- A source text consists of pieces and what is behind them. -/
def Covers (source : String) (pieces : List Piece) (behind : List Char) : Prop :=
  source.toList = Piece.written pieces ++ behind ∧
    ∀ front p back, pieces = front ++ p :: back →
      p.Stands source (Piece.written front) (Piece.written back ++ behind)

/-- A source text is cut behind some of its characters into pieces, and what is behind those. -/
inductive Cut (source : String) (behind : List Char) : List Char → List Piece → Prop where
  | done {before : List Char} (hsource : source.toList = before ++ behind) :
      Cut source behind before []
  | piece {before : List Char} {p : Piece} {pieces : List Piece}
      (hp : p.Stands source before (Piece.written pieces ++ behind))
      (hrest : Cut source behind (before ++ p.text) pieces) : Cut source behind before (p :: pieces)

namespace Cut

variable {source : String} {before behind : List Char} {pieces : List Piece}

theorem source_eq (h : Cut source behind before pieces) :
    source.toList = before ++ Piece.written pieces ++ behind := by
  induction h with
  | done hsource => rw [hsource, Piece.written_nil, List.append_nil]
  | @piece before p pieces _ _ ih => rw [ih, Piece.written_cons, List.append_assoc before p.text]

theorem stands (h : Cut source behind before pieces) :
    ∀ front p back, pieces = front ++ p :: back →
      p.Stands source (before ++ Piece.written front) (Piece.written back ++ behind) := by
  induction h with
  | done _ => exact fun front p back heq => absurd heq (by simp)
  | @piece before p pieces hp _ ih =>
      intro front q back heq
      cases front with
      | nil =>
          obtain ⟨rfl, rfl⟩ := List.cons.inj heq
          rw [Piece.written_nil, List.append_nil]
          exact hp
      | cons first front =>
          obtain ⟨rfl, hpieces⟩ := List.cons.inj heq
          rw [Piece.written_cons, ← List.append_assoc]
          exact ih front q back hpieces

theorem covers (h : Cut source behind [] pieces) : Covers source pieces behind := by
  refine ⟨?_, fun front p back heq => ?_⟩
  · rw [h.source_eq, List.nil_append]
  · have hstands := h.stands front p back heq
    rwa [List.nil_append] at hstands

end Cut

/-! ## The walk over a source text -/

theorem marks_behind {source : String} {before after : List Char} {c : Char}
    (hsource : source.toList = before ++ c :: after) (hspace : isSpace c = false) :
    Marks source before c (.behind before) := by
  have hc : c ≠ '\n' ∧ c ≠ '\r' := by
    constructor
    · rintro rfl
      exact absurd hspace (by decide)
    · rintro rfl
      exact absurd hspace (by decide)
  exact ⟨rfl, rfl, Source.excerpt_behind hsource hc⟩

theorem Rule.token_position (rule : Rule) (lexeme : List Char) (position : Position) :
    (rule.token lexeme position).position = position := by
  cases rule with
  | text => cases lexeme <;> rfl
  | numeral | name | symbol => rfl

/-- The characters of a token that is already made are passed over. -/
theorem tokensFrom_skip (lexeme rest : List Char) (position : Position) :
    tokensFrom lexeme.length position (lexeme ++ rest) =
      tokensFrom 0 (position.afterAll lexeme) rest := by
  induction lexeme generalizing position with
  | nil => rfl
  | cons c lexeme ih =>
      rw [List.length_cons, List.cons_append, tokensFrom, ih]
      rfl

/-- A lexeme at the front makes a token in front of those of the rest. -/
theorem tokensFrom_lexeme {c : Char} {front rest : List Char} {rule : Rule} (position : Position)
    (hspace : isSpace c = false)
    (hlongest : longest? (c :: front ++ rest) = some (rule, (c :: front).length)) :
    tokensFrom 0 position (c :: front ++ rest) =
      (tokensFrom 0 (position.afterAll (c :: front)) rest).map
        (rule.token (c :: front) position :: ·) := by
  rw [List.cons_append] at hlongest ⊢
  rw [tokensFrom, hspace, if_neg (by simp), hlongest]
  simp only [List.length_cons, Nat.add_sub_cancel, tokensFrom_skip, Position.afterAll_cons]
  rw [← List.cons_append, List.take_left' (List.length_cons ..)]
  rfl

/-- A lexeme behind a gap is a piece. -/
theorem stands_lexeme {source : String} {before gap front rest : List Char} {c : Char} {rule : Rule}
    (hsource : source.toList = before ++ gap ++ (c :: front ++ rest))
    (hgap : ∀ c ∈ gap, isSpace c = true) (hspace : isSpace c = false)
    (hlongest : longest? (c :: front ++ rest) = some (rule, (c :: front).length)) :
    Piece.Stands source before
      ⟨gap, c :: front, rule, rule.token (c :: front) (.behind (before ++ gap))⟩ rest where
  gap := hgap
  longest := hlongest
  token := ⟨_, rfl⟩
  marks := by
    refine ⟨c, front, rfl, ?_⟩
    rw [Rule.token_position]
    exact marks_behind hsource hspace

/-- What the tokens of the rest of a source text, or the lack of them, say about it. -/
def Covered (source : String) (before : List Char) : Except LexError (List Token) → Prop
  | .ok tokens => ∃ pieces blank, tokens = pieces.map Piece.token ∧
      (∀ c ∈ blank, isSpace c = true) ∧ Cut source blank before pieces
  | .error e => ∃ pieces blank after, (∀ c ∈ blank, isSpace c = true) ∧
      Cut source (blank ++ e.char :: after) before pieces ∧ isSpace e.char = false ∧
      longest? (e.char :: after) = none ∧
      Marks source (before ++ Piece.written pieces ++ blank) e.char e.position

/-- A piece in front of what is covered. -/
theorem Covered.cons {source : String} {before rest : List Char} {p : Piece}
    {result : Except LexError (List Token)} (hsource : source.toList = before ++ p.text ++ rest)
    (hp : p.Stands source before rest) (h : Covered source (before ++ p.text) result) :
    Covered source before (result.map (p.token :: ·)) := by
  have hcut : ∀ {pieces behind}, Cut source behind (before ++ p.text) pieces →
      Cut source behind before (p :: pieces) := by
    intro pieces behind hrest
    have heq := hsource.symm.trans hrest.source_eq
    rw [List.append_assoc _ (Piece.written pieces)] at heq
    exact .piece (List.append_cancel_left heq ▸ hp) hrest
  cases result with
  | ok tokens =>
      obtain ⟨pieces, blank, rfl, hblank, hrest⟩ := h
      exact ⟨p :: pieces, blank, rfl, hblank, hcut hrest⟩
  | error e =>
      obtain ⟨pieces, blank, after, hblank, hrest, hspace, hnone, hmarks⟩ := h
      refine ⟨p :: pieces, blank, after, hblank, hcut hrest, hspace, hnone, ?_⟩
      rwa [Piece.written_cons, ← List.append_assoc before]

/-- The rest of a source text is covered.  The gap in front of the rest belongs to the next token;
the induction is on the number of characters that are left. -/
theorem covered_tokensFrom {source : String} (count : Nat) :
    ∀ {before gap rest : List Char}, rest.length ≤ count →
      source.toList = before ++ gap ++ rest → (∀ c ∈ gap, isSpace c = true) →
      Covered source before (tokensFrom 0 (.behind (before ++ gap)) rest) := by
  induction count with
  | zero =>
      intro before gap rest hlength hsource hgap
      obtain rfl := List.length_eq_zero_iff.1 (Nat.le_zero.1 hlength)
      exact ⟨[], gap, rfl, hgap, .done (by rw [hsource, List.append_nil])⟩
  | succ count ih =>
      intro before gap rest hlength hsource hgap
      cases rest with
      | nil => exact ⟨[], gap, rfl, hgap, .done (by rw [hsource, List.append_nil])⟩
      | cons c cs =>
          have hcs : cs.length ≤ count := Nat.le_of_succ_le_succ hlength
          by_cases hspace : isSpace c = true
          -- A space belongs to the gap.
          · rw [tokensFrom, if_pos hspace, Position.after_behind, List.append_assoc]
            refine ih hcs (by rw [hsource]; simp) fun c' hc' => ?_
            rcases List.mem_append.1 hc' with hc' | hc'
            · exact hgap c' hc'
            · rwa [List.mem_singleton.1 hc']
          have hspace : isSpace c = false := by simpa using hspace
          cases hlongest : longest? (c :: cs) with
          | none =>
              rw [tokensFrom, hspace, if_neg (by simp), hlongest]
              refine ⟨[], gap, cs, hgap, .done (by rw [hsource, List.append_assoc]), hspace,
                hlongest, ?_⟩
              rw [Piece.written_nil, List.append_nil]
              exact marks_behind hsource hspace
          | some found =>
              obtain ⟨rule, length⟩ := found
              obtain ⟨front, rest, rfl, rfl⟩ := exists_lexeme hlongest
              have hstands := stands_lexeme hsource hgap hspace hlongest
              have hbehind : before ++ gap ++ c :: front = before ++ (gap ++ c :: front) :=
                List.append_assoc _ _ _
              have hrest : source.toList = before ++ (gap ++ c :: front) ++ rest := by
                rw [hsource, ← hbehind, List.append_assoc _ (c :: front), List.cons_append]
              have hshorter : rest.length ≤ count := by
                rw [List.length_append] at hcs
                omega
              -- Behind the lexeme a new gap starts, so far without spaces.
              have hcovered : Covered source (before ++ (gap ++ c :: front))
                  (tokensFrom 0 (.behind (before ++ (gap ++ c :: front) ++ [])) rest) :=
                ih hshorter (by rw [hrest, List.append_nil]) fun c hc => absurd hc List.not_mem_nil
              rw [← List.cons_append, tokensFrom_lexeme _ hspace hlongest, Position.afterAll_behind,
                hbehind]
              rw [List.append_nil] at hcovered
              exact hcovered.cons hrest hstands

/-- What tokenizing gives, for the pieces of a text and what is behind them. -/
def Found (pieces : List Piece) (behind : List Char) : Except LexError (List Token) → Prop
  | .ok tokens => tokens = pieces.map Piece.token ∧ ∀ c ∈ behind, isSpace c = true
  | .error e => ∃ blank after, behind = blank ++ e.char :: after ∧
      (∀ c ∈ blank, isSpace c = true) ∧ isSpace e.char = false ∧ longest? (e.char :: after) = none

/-- All of a source text is covered, its tokens being those of the walk over it. -/
theorem covered_tokenize (source : String) : Covered source [] (tokenize source) := by
  rw [tokenize_eq_tokensFrom]
  exact @covered_tokensFrom source _ [] [] _ (Nat.le_refl _) rfl fun c hc =>
    absurd hc List.not_mem_nil

theorem exists_found (source : String) :
    ∃ pieces behind, Covers source pieces behind ∧ Found pieces behind (tokenize source) := by
  have hcovered := covered_tokenize source
  cases htokens : tokenize source with
  | ok tokens =>
      rw [htokens] at hcovered
      obtain ⟨pieces, blank, hmap, hblank, hcut⟩ := hcovered
      exact ⟨pieces, blank, hcut.covers, hmap, hblank⟩
  | error e =>
      rw [htokens] at hcovered
      obtain ⟨pieces, blank, after, hblank, hcut, hspace, hnone, _⟩ := hcovered
      exact ⟨pieces, _, hcut.covers, blank, after, rfl, hblank, hspace, hnone⟩

end Lexeme

/-- Every source text is covered by its tokens.  If it has tokens, it consists of pieces, one for
each token and in the same order, and of spaces behind them: each piece is a gap of spaces and the
lexeme of its token.  The line of a token is one more than the number of line feeds in front of the
lexeme, its column one more than the number of characters since the last of them, and the excerpt
for this position shows the line of the first character with the caret under it.  If a character
starts no token, everything in front of it is covered in the same way, and its position is counted
in the same way. -/
theorem tokenize_covers (source : String) :
    match tokenize source with
    | .ok tokens => ∃ pieces blank, tokens = pieces.map Lexeme.Piece.token ∧
        Lexeme.Covers source pieces blank ∧ ∀ c ∈ blank, Lexeme.isSpace c = true
    | .error e => ∃ pieces blank after, Lexeme.Covers source pieces (blank ++ e.char :: after) ∧
        (∀ c ∈ blank, Lexeme.isSpace c = true) ∧
        Lexeme.isSpace e.char = false ∧ Lexeme.longest? (e.char :: after) = none ∧
        Lexeme.Marks source (Lexeme.Piece.written pieces ++ blank) e.char e.position := by
  have hcovered := Lexeme.covered_tokenize source
  cases htokens : tokenize source with
  | ok tokens =>
      rw [htokens] at hcovered
      obtain ⟨pieces, blank, hmap, hblank, hcut⟩ := hcovered
      exact ⟨pieces, blank, hmap, hcut.covers, hblank⟩
  | error e =>
      rw [htokens] at hcovered
      obtain ⟨pieces, blank, after, hblank, hcut, hspace, hnone, hmarks⟩ := hcovered
      exact ⟨pieces, blank, after, hcut.covers, hblank, hspace, hnone, hmarks⟩

end Terse
