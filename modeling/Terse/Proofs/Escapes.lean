import Terse.Proofs.Behind

/-!
# Quoted texts and their escapes

A character of a quoted body is escaped if an odd number of backslashes stands right in front of it.
A body is meant to run through its first closing quote that is not escaped, or to the end of the
source: that many characters are its `extent`.  A lexeme has this extent unless an escaped line feed
lies in it; then the lexeme ends in front of the first such line feed.

The text of a token is `resolved` from the characters of its body one at a time.  Each of them is
kept, except that the closing quote and the backslash of an escape that stands for one character are
dropped, and that an escaped `n` in double quotes is a line feed.

## Strategy

The definitions here look at a body as a whole and count backslashes to the left of a character.
The tokenizer reads a body once, from the front, and lets a backslash take the next character with
it.  `escape_induction` is the induction that follows this reading.  For each of the indices, and
for the text, there are two lemmas that say how it changes when a pair or another character is put
in front, and all of them rest on `escaped_pair` and `escaped_cons`.

* `bodyLength_eq_min`: the body ends with its first closing quote, or in front of its first escaped
  line feed.
* `unescape_take_bodyLength`: the walk that resolves the escapes gives what the characters add one
  by one.

What holds of the body in front of a rest is carried over to the pieces of a source text by
`Terse.Proofs.Coverage`.
-/

namespace Terse

namespace Lexeme

/-! ## Escaped characters -/

/-- Whether the character at an index of a quoted body is escaped. -/
def escaped (body : List Char) (i : Nat) : Bool :=
  ((body.take i).reverse.takeWhile (· == '\\')).length % 2 == 1

/-- Whether a closing quote that is not escaped stands at an index. -/
def closesAt (quote : Quote) (body : List Char) (i : Nat) : Bool :=
  body[i]?.any (closers quote).contains && !escaped body i

/-- Whether an escaped line feed stands at an index. -/
def breaksAt (body : List Char) (i : Nat) : Bool :=
  body[i]? == some '\n' && escaped body i

/-- The least number below a bound for which something holds, the bound if there is none. -/
def firstBelow (bound : Nat) (p : Nat → Bool) : Nat := (List.range bound).findIdx p

/-- The index of the first closing quote that is not escaped, or the number of all characters. -/
def closeIndex (quote : Quote) (cs : List Char) : Nat := firstBelow cs.length (closesAt quote cs)

/-- The index of the first escaped line feed, or the number of all characters. -/
def breakIndex (cs : List Char) : Nat := firstBelow cs.length (breaksAt cs)

/-- The number of characters through the first closing quote that is not escaped, or of all of them
if there is none. -/
def extent (quote : Quote) (cs : List Char) : Nat := min (closeIndex quote cs + 1) cs.length

/-- Whether a character behind a backslash makes an escape with it that stands for one character. -/
def resolves (quote : Quote) (c : Char) : Bool :=
  (closers quote).contains c || quote == .double && c == 'n'

/-- What the character at an index of a body adds to the text. -/
def share (quote : Quote) (body : List Char) (i : Nat) : List Char :=
  match body[i]? with
  | none => []
  | some c =>
    if escaped body i then if quote == .double && c == 'n' then ['\n'] else [c]
    else if (closers quote).contains c then []
    else if c == '\\' && body[i + 1]?.any (resolves quote) then []
    else [c]

/-- The text of a quoted body. -/
def resolved (quote : Quote) (body : List Char) : List Char :=
  (List.range body.length).flatMap (share quote body)

theorem escaped_zero (body : List Char) : escaped body 0 = false := rfl

theorem escaped_one (c : Char) (cs : List Char) : escaped ('\\' :: c :: cs) 1 = true := rfl

theorem length_takeWhile_append (p : Char → Bool) (front back : List Char) :
    ((front ++ back).takeWhile p).length = (front.takeWhile p).length +
      if front.all p then (back.takeWhile p).length else 0 := by
  induction front with
  | nil => simp
  | cons c front ih =>
      cases hc : p c with
      | true =>
          simp only [List.cons_append, List.takeWhile_cons, hc, if_true, List.length_cons, ih,
            List.all_cons, Bool.true_and]
          omega
      | false => simp [hc]

/-- A backslash and the character behind it do not change what is escaped behind them: if all
characters in between are backslashes, two more of them or none are counted. -/
theorem escaped_pair (c : Char) (cs : List Char) (i : Nat) :
    escaped ('\\' :: c :: cs) (i + 2) = escaped cs i := by
  -- Seen from the right, the pair is `c` and the backslash in front of it.
  have hpair : ([c, '\\'].takeWhile (· == '\\')).length % 2 = 0 := by
    by_cases hc : c = '\\'
    · subst hc
      rfl
    · simp [hc]
  simp only [escaped, List.take_succ_cons, List.reverse_cons, List.append_assoc,
    List.singleton_append, length_takeWhile_append]
  split
  · rw [Nat.add_mod, hpair, Nat.add_zero, Nat.mod_mod]
  · rw [Nat.add_zero]

theorem escaped_cons {c : Char} (hc : c ≠ '\\') (cs : List Char) (i : Nat) :
    escaped (c :: cs) (i + 1) = escaped cs i := by
  have hsingle : ([c].takeWhile (· == '\\')).length = 0 := by simp [hc]
  simp only [escaped, List.take_succ_cons, List.reverse_cons, length_takeWhile_append, hsingle,
    ite_self, Nat.add_zero]

theorem backslash_notMem_closers (quote : Quote) : '\\' ∉ closers quote := by
  cases quote <;> decide

theorem n_notMem_closers (quote : Quote) : 'n' ∉ closers quote := by
  cases quote <;> decide

/-- A body is read from the front: a backslash takes the next character with it, if there is one. -/
@[elab_as_elim]
theorem escape_induction {motive : List Char → Prop} (nil : motive []) (lone : motive ['\\'])
    (pair : ∀ c cs, motive cs → motive ('\\' :: c :: cs))
    (other : ∀ c cs, c ≠ '\\' → motive cs → motive (c :: cs)) : ∀ cs, motive cs
  | [] => nil
  | [c] => if hc : c = '\\' then hc ▸ lone else other c [] hc nil
  | c :: next :: cs =>
    if hc : c = '\\' then hc ▸ pair next cs (escape_induction nil lone pair other cs)
    else other c (next :: cs) hc (escape_induction nil lone pair other (next :: cs))

/-! ## The extent of a body -/

theorem firstBelow_succ (bound : Nat) (p : Nat → Bool) :
    firstBelow (bound + 1) p = if p 0 then 0 else firstBelow bound (fun i => p (i + 1)) + 1 := by
  rw [firstBelow, List.range_succ_eq_map, List.findIdx_cons, List.findIdx_map]
  cases p 0 <;> rfl

theorem firstBelow_le (bound : Nat) (p : Nat → Bool) : firstBelow bound p ≤ bound := by
  have hle : firstBelow bound p ≤ (List.range bound).length := List.findIdx_le_length
  rwa [List.length_range] at hle

theorem firstBelow_spec {bound : Nat} {p : Nat → Bool} (h : firstBelow bound p < bound) :
    p (firstBelow bound p) = true := by
  have hfound : (List.range bound).findIdx p < (List.range bound).length := by
    rwa [List.length_range]
  have hp : p ((List.range bound).get ⟨_, hfound⟩) = true := List.findIdx_getElem
  rwa [List.get_eq_getElem, List.getElem_range] at hp

theorem le_firstBelow_iff {bound n : Nat} {p : Nat → Bool} (hn : n ≤ bound) :
    n ≤ firstBelow bound p ↔ ∀ i < n, p i = false := by
  constructor
  · intro hle i hi
    have hnot := List.not_of_lt_findIdx (Nat.lt_of_lt_of_le hi hle)
    simpa using hnot
  · intro hnone
    refine Nat.le_of_not_lt fun hlt => ?_
    have hp := firstBelow_spec (Nat.lt_of_lt_of_le hlt hn)
    rw [hnone _ hlt] at hp
    cases hp

section Indices

variable (quote : Quote) (c : Char) (cs : List Char)

theorem breakIndex_pair :
    breakIndex ('\\' :: c :: cs) = if c = '\n' then 1 else breakIndex cs + 2 := by
  have hone : breaksAt ('\\' :: c :: cs) 1 = (c == '\n') := by simp [breaksAt, escaped_one]
  have hrest : ∀ i, breaksAt ('\\' :: c :: cs) (i + 2) = breaksAt cs i := by
    intro i
    simp only [breaksAt, escaped_pair, List.getElem?_cons_succ]
  have hzero : breaksAt ('\\' :: c :: cs) 0 = false := rfl
  rw [breakIndex, List.length_cons, List.length_cons, firstBelow_succ, firstBelow_succ, hzero,
    if_neg (by simp)]
  simp only [Nat.zero_add, hone, hrest, beq_iff_eq]
  split <;> rfl

theorem closeIndex_pair :
    closeIndex quote ('\\' :: c :: cs) = closeIndex quote cs + 2 := by
  have hone : closesAt quote ('\\' :: c :: cs) 1 = false := by simp [closesAt, escaped_one]
  have hrest : ∀ i, closesAt quote ('\\' :: c :: cs) (i + 2) = closesAt quote cs i := by
    intro i
    simp only [closesAt, escaped_pair, List.getElem?_cons_succ]
  have hzero : closesAt quote ('\\' :: c :: cs) 0 = false := by
    simp [closesAt, backslash_notMem_closers]
  rw [closeIndex, List.length_cons, List.length_cons, firstBelow_succ, firstBelow_succ, hzero]
  simp only [Nat.zero_add, hone, hrest]
  rfl

variable {c}

theorem breakIndex_cons (hc : c ≠ '\\') : breakIndex (c :: cs) = breakIndex cs + 1 := by
  have hrest : ∀ i, breaksAt (c :: cs) (i + 1) = breaksAt cs i := by
    intro i
    simp only [breaksAt, escaped_cons hc, List.getElem?_cons_succ]
  have hzero : breaksAt (c :: cs) 0 = false := by simp [breaksAt, escaped_zero]
  rw [breakIndex, List.length_cons, firstBelow_succ, hzero]
  simp only [hrest]
  rfl

theorem closeIndex_cons (hc : c ≠ '\\') :
    closeIndex quote (c :: cs) =
      if (closers quote).contains c then 0 else closeIndex quote cs + 1 := by
  have hzero : closesAt quote (c :: cs) 0 = (closers quote).contains c := by
    simp [closesAt, escaped_zero]
  have hrest : ∀ i, closesAt quote (c :: cs) (i + 1) = closesAt quote cs i := by
    intro i
    simp only [closesAt, escaped_cons hc, List.getElem?_cons_succ]
  rw [closeIndex, List.length_cons, firstBelow_succ, hzero]
  simp only [hrest]
  rfl

end Indices

theorem bodyLength_pair (closing : List Char) (c : Char) (cs : List Char) :
    bodyLength closing ('\\' :: c :: cs) =
      if c = '\n' then 1 else bodyLength closing cs + 2 := by
  by_cases hc : c = '\n'
  · subst hc
    rfl
  · rw [if_neg hc, bodyLength]
    exact hc

/-- A body ends with its first closing quote or in front of its first escaped line feed, whichever
comes first. -/
theorem bodyLength_eq_min (quote : Quote) (cs : List Char) :
    bodyLength (closers quote) cs = min (closeIndex quote cs + 1) (breakIndex cs) := by
  induction cs using escape_induction with
  | nil => rfl
  | lone => cases quote <;> rfl
  | pair c cs ih =>
      rw [bodyLength_pair, closeIndex_pair, breakIndex_pair]
      split <;> omega
  | other c cs hc ih =>
      rw [bodyLength_cons _ hc, closeIndex_cons _ _ hc, breakIndex_cons _ hc]
      split <;> omega

/-! ## The text of a body -/

theorem resolved_pair (quote : Quote) (c : Char) (body : List Char) :
    resolved quote ('\\' :: c :: body) =
      (if (closers quote).contains c then [c]
        else if quote == .double && c == 'n' then ['\n'] else ['\\', c]) ++
        resolved quote body := by
  have hzero : share quote ('\\' :: c :: body) 0 = if resolves quote c then [] else ['\\'] := by
    simp [share, escaped_zero, backslash_notMem_closers]
  have hone : share quote ('\\' :: c :: body) 1 =
      if quote == .double && c == 'n' then ['\n'] else [c] := by
    simp [share, escaped_one]
  have hrest : ∀ i, share quote ('\\' :: c :: body) (i + 2) = share quote body i := by
    intro i
    simp only [share, escaped_pair, List.getElem?_cons_succ]
  have hshares : resolved quote ('\\' :: c :: body) =
      share quote ('\\' :: c :: body) 0 ++ share quote ('\\' :: c :: body) 1 ++
        resolved quote body := by
    simp [resolved, List.range_succ_eq_map, List.flatMap_map, hrest]
  rw [hshares, hzero, hone]
  congr 1
  unfold resolves
  -- An `n` is no closing quote, so the two escapes exclude each other.
  cases hn : quote == .double && c == 'n' with
  | true =>
      have hc := eq_of_beq (Bool.and_eq_true_iff.1 hn).2
      simp [hc, n_notMem_closers]
  | false => cases (closers quote).contains c <;> rfl

theorem resolved_cons (quote : Quote) {c : Char} (hc : c ≠ '\\') (body : List Char) :
    resolved quote (c :: body) =
      (if (closers quote).contains c then [] else [c]) ++ resolved quote body := by
  have hzero : share quote (c :: body) 0 = if (closers quote).contains c then [] else [c] := by
    simp [share, escaped_zero, hc]
  have hrest : ∀ i, share quote (c :: body) (i + 1) = share quote body i := by
    intro i
    simp only [share, escaped_cons hc, List.getElem?_cons_succ]
  rw [← hzero]
  simp [resolved, List.range_succ_eq_map, List.flatMap_map, hrest]

theorem unescape_cons (closing : List Char) (breaks : Bool) {c : Char} (hc : c ≠ '\\')
    (cs : List Char) :
    unescape closing breaks (c :: cs) =
      if closing.contains c then [] else c :: unescape closing breaks cs := by
  rw [unescape]
  exact fun _ _ heq _ => hc heq

/-- The walk over the body of a lexeme, which stops at a closing quote, gives what all characters of
the body add to the text. -/
theorem unescape_take_bodyLength (quote : Quote) (cs : List Char) :
    unescape (closers quote) (quote == .double) (cs.take (bodyLength (closers quote) cs)) =
      resolved quote (cs.take (bodyLength (closers quote) cs)) := by
  induction cs using escape_induction with
  | nil => rfl
  | lone => cases quote <;> rfl
  | pair c cs ih =>
      rw [bodyLength_pair]
      -- In front of an escaped line feed the body ends with the backslash.
      split
      · cases quote <;> rfl
      · rw [List.take_succ_cons, List.take_succ_cons, unescape, resolved_pair, ih]
        split <;> [rfl; split <;> rfl]
  | other c cs hc ih =>
      rw [bodyLength_cons _ hc]
      split
      · rename_i hclose
        rw [List.take_succ_cons, List.take_zero, unescape_cons _ _ hc, resolved_cons _ hc,
          if_pos hclose, if_pos hclose]
        rfl
      · rename_i hopen
        rw [List.take_succ_cons, unescape_cons _ _ hc, resolved_cons _ hc, if_neg hopen,
          if_neg hopen, ih]
        rfl

/-! ## Texts of a source -/

/-- A body in front of some characters is that of a quoted text.  It has its extent exactly if no
escaped line feed lies in it, and otherwise it ends in front of the first such line feed; its text
is resolved from its characters. -/
structure Literal (quote : Quote) (body after : List Char) (text : String) : Prop where
  whole : body.length = extent quote (body ++ after) ↔
    ∀ i < extent quote (body ++ after), breaksAt (body ++ after) i = false
  broken : ∀ i < extent quote (body ++ after), breaksAt (body ++ after) i = true →
    (∀ j < i, breaksAt (body ++ after) j = false) → body.length = i
  text : text = String.ofList (resolved quote body)

theorem literal_of_bodyLength {quote : Quote} {body after : List Char}
    (h : body.length = bodyLength (closers quote) (body ++ after)) :
    Literal quote body after
      (String.ofList (unescape (closers quote) (quote == .double) body)) where
  whole := by
    have hextent : extent quote (body ++ after) ≤ (body ++ after).length := Nat.min_le_right _ _
    have hbreak : breakIndex (body ++ after) ≤ (body ++ after).length := firstBelow_le _ _
    rw [← le_firstBelow_iff hextent, ← breakIndex, h, bodyLength_eq_min]
    unfold extent
    omega
  broken := by
    intro i hi hbreak hfirst
    have hlength : i < (body ++ after).length := Nat.lt_of_lt_of_le hi (Nat.min_le_right _ _)
    have hle : i ≤ breakIndex (body ++ after) := (le_firstBelow_iff hlength.le).2 hfirst
    have hnotLt : ¬ i + 1 ≤ breakIndex (body ++ after) := by
      intro hlt
      have hnone := (le_firstBelow_iff hlength).1 hlt i (Nat.lt_succ_self i)
      rw [hbreak] at hnone
      cases hnone
    unfold extent at hi
    rw [h, bodyLength_eq_min]
    omega
  text := by
    have htake : (body ++ after).take (bodyLength (closers quote) (body ++ after)) = body := by
      rw [← h, List.take_left]
    have htext := unescape_take_bodyLength quote (body ++ after)
    rw [htake] at htext
    rw [htext]

/-- A piece is a quoted text exactly if its lexeme starts with a quote. -/
theorem Piece.Stands.kind_iff {source : String} {before after body : List Char} {p : Piece}
    {c : Char} (h : p.Stands source before after) (hlexeme : p.lexeme = c :: body) (quote : Quote) :
    p.token.kind = .text quote ↔ quote? c = some quote := by
  obtain ⟨position, htoken⟩ := h.token
  have hlongest := h.longest
  rw [hlexeme, List.cons_append] at hlongest
  rw [htoken, hlexeme]
  cases hquote : quote? c with
  | some other =>
      rw [longest?_quote hquote] at hlongest
      obtain ⟨hrule, _⟩ := Prod.mk.inj (Option.some.inj hlongest)
      simp [← hrule, Rule.token, hquote]
  | none =>
      -- Without a quote at its start the rule for texts takes nothing.
      have hrule : p.rule ≠ .text := by
        intro hrule
        obtain ⟨hlength, hpos⟩ := longest?_spec hlongest
        simp only [hrule, Rule.length, hquote] at hlength
        omega
      cases hp : p.rule with
      | text => exact absurd hp hrule
      | numeral | name | symbol => simp [Rule.token]

theorem Piece.Stands.literal {source : String} {before after body : List Char} {p : Piece}
    {c : Char} {quote : Quote} (h : p.Stands source before after) (hlexeme : p.lexeme = c :: body)
    (hquote : quote? c = some quote) : Literal quote body after p.token.text := by
  obtain ⟨position, htoken⟩ := h.token
  have hlongest := h.longest
  rw [hlexeme, List.cons_append, longest?_quote hquote] at hlongest
  obtain ⟨hrule, hlength⟩ := Prod.mk.inj (Option.some.inj hlongest)
  have htext : p.token.text =
      String.ofList (unescape (closers quote) (quote == .double) body) := by
    rw [htoken, ← hrule, hlexeme]
    simp [Rule.token, hquote]
  rw [htext]
  exact literal_of_bodyLength (Nat.succ.inj hlength).symm

end Lexeme

/-- In every source text, whether it is tokenized or rejected at some character, the lexemes that
start with a quote are the texts.  A text runs through its first closing quote that is not escaped,
or to the end of the source, exactly if no escaped line feed lies in between; otherwise it ends in
front of the first escaped line feed.  The text of the token is that of its characters with the
escapes resolved. -/
theorem tokenize_literals (source : String) :
    ∃ pieces behind, Lexeme.Covers source pieces behind ∧
      Lexeme.Found pieces behind (tokenize source) ∧
      ∀ front p back c body quote, pieces = front ++ p :: back → p.lexeme = c :: body →
        (p.token.kind = .text quote ↔ Lexeme.quote? c = some quote) ∧
        (Lexeme.quote? c = some quote →
          Lexeme.Literal quote body (Lexeme.Piece.written back ++ behind) p.token.text) := by
  obtain ⟨pieces, behind, hcovers, hfound⟩ := Lexeme.exists_found source
  refine ⟨pieces, behind, hcovers, hfound, ?_⟩
  intro front p back c body quote hpieces hlexeme
  have hstands := hcovers.2 front p back hpieces
  exact ⟨hstands.kind_iff hlexeme quote, hstands.literal hlexeme⟩

/-- A text with an escaped line feed in front of its closing quote is cut at the backslash, though
its extent is all of it. -/
theorem tokenize_escaped_line_feed :
    Lexeme.extent .double ['a', '\\', '\n', 'b', '\x22'] = 5 ∧
      Lexeme.resolved .double ['a', '\\', '\n', 'b', '\x22'] = ['a', '\\', '\n', 'b'] ∧
      tokenize "\"a\\\nb\"" ≠ .ok [⟨.text .double, "a\\\nb", ⟨1, 1⟩⟩] ∧
      tokenize "\"a\\\nb\"" = .ok [⟨.text .double, "a\\", ⟨1, 1⟩⟩, ⟨.name, "b", ⟨2, 1⟩⟩,
        ⟨.text .double, "", ⟨2, 2⟩⟩] := by
  decide

end Terse
