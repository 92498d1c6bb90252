import Terse.Proofs.Label

/-!
# What the store says about a sequence

The store is read through `find?`; the first lemmas say what `add`, `push` and `discard` do to it.

A value can be used at a site if every sequence in it is stored, with the very contents that the
value carries, and was made before the site (`Known`).  A store is contained if the captured scope
and the elements of each stored sequence can be used where the sequence stands (`Contained`), so
that no chain of references leads back to a sequence that is still being made.

A *fact* is an element behind the first ones, together with the elements in front of it: what one
run of a generator has contributed.

## Strategy

Each of the three operations changes the store at some labels only, so each of them has one lemma
that says where a label of the new store comes from (`cases_find?_add`, `cases_find?_push`,
`cases_find?_discard`).  That values stay known follows from one lemma on two stores and two sites
(`Known.mono`): what is known at a label depends only on the sequences before that label.

* Adding a sequence needs a label that is not in use; otherwise an old sequence would be hidden.
* A new element may refer to sequences that were made during its production.  They have labels below
  its own place, and are known from the next place on.
* Discarding a frame takes away what was made in it.  What is before the frame does not refer to it
  (`Known.discard`).

Containedness of a store without a frame is not shown here, as it also needs what the production of
the element has left unchanged (`Terse.Proofs.Invariant`).
-/

namespace Terse

namespace Store

variable {store : Store} {label other : Label} {progress : Progress}

theorem find?_add (store : Store) (sequence : Sequence) (label : Label) :
    (store.add sequence).find? label =
      if sequence.label = label then some (.start sequence) else store.find? label :=
  rfl

theorem find?_push (store : Store) (label other : Label) (value : Value) :
    (store.push label value).find? other =
      if other = label then (store.find? other).map (·.push value) else store.find? other := by
  induction store with
  | nil => simp [push, find?]
  | cons first rest ih =>
      -- Only the first entry with the label gets the element, and only that one is found.
      by_cases hfirst : first.sequence.label = label
      · subst hfirst
        by_cases hother : other = first.sequence.label
        · simp [push, find?, hother, Progress.push]
        · have hne : ¬ first.sequence.label = other := fun h => hother h.symm
          simp [push, find?, hother, hne, Progress.push]
      · by_cases hother : first.sequence.label = other
        · have hne : ¬ other = label := fun h => hfirst (hother.trans h)
          simp [push, find?, hother, hne]
        · simp only [push, hfirst, if_false, find?, hother, ih]

theorem find?_discard (store : Store) (frame label : Label) :
    (store.discard frame).find? label = if frame <+: label then none else store.find? label := by
  induction store with
  | nil => simp [discard, find?]
  | cons first rest ih =>
      unfold discard at ih ⊢
      by_cases hfirst : frame <+: first.sequence.label
      · rw [List.filter_cons_of_neg (by simpa [List.isPrefixOf_iff_prefix] using hfirst), ih]
        by_cases hlabel : first.sequence.label = label
        · simp [← hlabel, hfirst]
        · simp [find?, hlabel]
      · rw [List.filter_cons_of_pos (by
          simpa [List.isPrefixOf_iff_prefix, ← Bool.not_eq_true] using hfirst)]
        by_cases hlabel : first.sequence.label = label
        · simp [find?, ← hlabel, hfirst]
        · simp only [find?, hlabel, if_false, ih]

theorem progress_of_find? {sequence : Sequence}
    (hfind : store.find? sequence.label = some progress) :
    store.progress sequence = progress := by
  simp [Store.progress, hfind]

end Store

/-! ## Values that can be used -/

/-- The sequences in a value are stored as they are, and were made before `cut`. -/
inductive Known (store : Store) (cut : Label) : Value → Prop where
  | text (text : String) : Known store cut (.text text)
  | number (number : Decimal) : Known store cut (.number number)
  | array {items : List Value} (hitems : ∀ v ∈ items, Known store cut v) :
      Known store cut (.array items)
  | sequence {progress : Progress} (hfind : store.find? progress.sequence.label = some progress)
      (hbefore : Before progress.sequence.label cut) :
      Known store cut (.sequence progress.sequence)

namespace Known

variable {store store' : Store} {cut cut' : Label}

theorem array_iff {items : List Value} :
    Known store cut (.array items) ↔ ∀ v ∈ items, Known store cut v := by
  refine ⟨fun h => ?_, .array⟩
  cases h with
  | array hitems => exact hitems

theorem sequence_iff {sequence : Sequence} :
    Known store cut (.sequence sequence) ↔
      (∃ p, store.find? sequence.label = some p ∧ p.sequence = sequence) ∧
        Before sequence.label cut := by
  constructor
  · intro h
    cases h with
    | sequence hfind hbefore => exact ⟨⟨_, hfind, rfl⟩, hbefore⟩
  · rintro ⟨⟨p, hfind, rfl⟩, hbefore⟩
    exact .sequence hfind hbefore

/-- Known values stay known where more sequences are stored and a later site is reached.  It is
enough to look at the sequences that were made before the earlier site. -/
theorem mono {v : Value} (h : Known store cut v)
    (hstore : ∀ label p, store.find? label = some p → Before label cut →
      ∃ p', store'.find? label = some p' ∧ p'.sequence = p.sequence)
    (hcut : ∀ label, Before label cut → Before label cut') : Known store' cut' v := by
  induction h with
  | text s => exact .text s
  | number n => exact .number n
  | array _ ih => exact .array ih
  | sequence hfind hbefore =>
      obtain ⟨p', hfind', hsame⟩ := hstore _ _ hfind hbefore
      exact sequence_iff.2 ⟨⟨p', hfind', hsame⟩, hcut _ hbefore⟩

theorem later {v : Value} (h : Known store cut v)
    (hcut : ∀ label, Before label cut → Before label cut') : Known store cut' v :=
  h.mono (fun _ p hfind _ => ⟨p, hfind, rfl⟩) hcut

end Known

/-! ## Progress -/

namespace Progress

/-- The same sequence with the same elements and possibly more. -/
structure Extends (later earlier : Progress) : Prop where
  sequence : later.sequence = earlier.sequence
  elements : earlier.elements.toList <+: later.elements.toList

theorem Extends.refl (p : Progress) : p.Extends p := ⟨rfl, List.prefix_rfl⟩

theorem Extends.trans {p q r : Progress} (hqp : q.Extends p) (hrq : r.Extends q) : r.Extends p :=
  ⟨hrq.sequence.trans hqp.sequence, hqp.elements.trans hrq.elements⟩

theorem extends_push (p : Progress) (v : Value) : (p.push v).Extends p :=
  ⟨rfl, by simp [push]⟩

/-- The elements are the first ones and what the generator produced, within the length. -/
structure Coherent (p : Progress) : Prop where
  seeds : p.sequence.seeds <+: p.elements.toList
  size : p.elements.size = p.sequence.seeds.length + p.runs
  bound : ∀ n, p.sequence.length = some n → p.elements.size ≤ max n p.sequence.seeds.length

theorem coherent_start (s : Sequence) : (start s).Coherent :=
  ⟨by simp [start], by simp [start], fun n _ => by simp only [start, List.size_toArray]; omega⟩

theorem Coherent.push {p : Progress} (h : p.Coherent) (v : Value)
    (hroom : ∀ n, p.sequence.length = some n → p.elements.size < n) : (p.push v).Coherent := by
  refine ⟨h.seeds.trans (p.extends_push v).elements, ?_, fun n hn => ?_⟩
  · simp only [Progress.push, Array.size_push, h.size]
    omega
  · have := hroom n hn
    simp only [Progress.push, Array.size_push]
    omega

end Progress

/-- What the stored sequences refer to can be used where they stand; what element `j` refers to
can be used from element `j + 1` on. -/
structure Store.Contained (store : Store) : Prop where
  coherent : ∀ label p, store.find? label = some p → p.Coherent
  scope : ∀ label p, store.find? label = some p → ∀ name v,
    p.sequence.scope.lookup name = some v → Known store label v
  elements : ∀ label p, store.find? label = some p → ∀ (j : Nat) v,
    p.elements[j]? = some v → Known store (label ++ [j + 1]) v

namespace Store

variable {store : Store} {label other frame : Label} {s : Sequence} {p q : Progress}

theorem cases_find?_add (hfind : (store.add s).find? label = some q) :
    label = s.label ∧ q = .start s ∨ store.find? label = some q := by
  rw [find?_add] at hfind
  split at hfind
  · rename_i heq
    exact .inl ⟨heq.symm, (Option.some.inj hfind).symm⟩
  · exact .inr hfind

theorem find?_add_of_find? (hfree : store.find? s.label = none)
    (hfind : store.find? label = some p) : (store.add s).find? label = some p := by
  rw [find?_add, if_neg, hfind]
  rintro rfl
  rw [hfree] at hfind
  cases hfind

theorem cases_find?_push {v : Value} (hp : store.find? label = some p)
    (hfind : (store.push label v).find? other = some q) :
    other = label ∧ q = p.push v ∨ other ≠ label ∧ store.find? other = some q := by
  rw [find?_push] at hfind
  split at hfind
  · rename_i heq
    subst heq
    rw [hp, Option.map_some] at hfind
    exact .inl ⟨rfl, (Option.some.inj hfind).symm⟩
  · exact .inr ⟨‹_›, hfind⟩

theorem extends_find?_push (label : Label) (v : Value) (hfind : store.find? other = some q) :
    ∃ q', (store.push label v).find? other = some q' ∧ q'.Extends q ∧
      (other ≠ label → q' = q) := by
  rw [find?_push]
  split
  · exact ⟨q.push v, by rw [hfind, Option.map_some], q.extends_push v, fun hne => absurd ‹_› hne⟩
  · exact ⟨q, hfind, .refl q, fun _ => rfl⟩

theorem cases_find?_discard (hfind : (store.discard frame).find? label = some q) :
    ¬ frame <+: label ∧ store.find? label = some q := by
  rw [find?_discard] at hfind
  split at hfind
  · cases hfind
  · exact ⟨‹_›, hfind⟩

theorem find?_discard_of_not_prefix (hnot : ¬ frame <+: label)
    (hfind : store.find? label = some q) :
    (store.discard frame).find? label = some q := by
  rw [find?_discard, if_neg hnot, hfind]

end Store

namespace Known

variable {store : Store} {cut : Label} {v : Value}

theorem add {s : Sequence} (hfree : store.find? s.label = none) (h : Known store cut v) :
    Known (store.add s) cut v :=
  h.mono (fun _ p hfind _ => ⟨p, Store.find?_add_of_find? hfree hfind, rfl⟩) fun _ hb => hb

theorem push (label : Label) (new : Value) (h : Known store cut v) :
    Known (store.push label new) cut v := by
  refine h.mono (fun other p hfind _ => ?_) fun _ hb => hb
  obtain ⟨p', hfind', hextends, -⟩ := Store.extends_find?_push label new hfind
  exact ⟨p', hfind', hextends.sequence⟩

/-- What can be used before a frame does not refer to anything that was made in the frame. -/
theorem discard {label frame z : Label} (hframe : Before label frame)
    (h : Known store (label ++ z) v) : Known (store.discard frame) (label ++ z) v := by
  refine h.mono (fun x p hfind hx => ⟨p, ?_, rfl⟩) fun _ hb => hb
  refine Store.find?_discard_of_not_prefix (fun hpre => ?_) hfind
  -- A label in the frame would be behind the site, and not before it.
  have hback : Before (label ++ z) x := (hframe.append z []).of_prefix_right (by simpa using hpre)
  exact hx.asymm hback

end Known

namespace Store.Contained

variable {store : Store}

/-- A new sequence refers to values that are known at its label. -/
theorem add (h : store.Contained) {s : Sequence} (hfree : store.find? s.label = none)
    (hscope : ∀ name v, s.scope.lookup name = some v → Known store s.label v)
    (hseeds : ∀ v ∈ s.seeds, Known store s.label v) : (store.add s).Contained where
  coherent label p hfind := by
    rcases cases_find?_add hfind with ⟨-, rfl⟩ | hfind
    · exact Progress.coherent_start s
    · exact h.coherent label p hfind
  scope label p hfind name v hlookup := by
    rcases cases_find?_add hfind with ⟨rfl, rfl⟩ | hfind
    · exact (hscope name v hlookup).add hfree
    · exact (h.scope label p hfind name v hlookup).add hfree
  elements label p hfind j v hv := by
    rcases cases_find?_add hfind with ⟨rfl, rfl⟩ | hfind
    · rw [Progress.start, List.getElem?_toArray] at hv
      refine ((hseeds v (List.mem_of_getElem? hv)).later fun x hx => ?_).add hfree
      exact hx.of_prefix_right (List.prefix_append _ _)
    · exact (h.elements label p hfind j v hv).add hfree

/-- A new element is known behind its place. -/
theorem push (h : store.Contained) {label : Label} {p : Progress}
    (hp : store.find? label = some p)
    (hroom : ∀ n, p.sequence.length = some n → p.elements.size < n) {v : Value}
    (hv : Known store (label ++ [p.elements.size + 1]) v) : (store.push label v).Contained where
  coherent other q hfind := by
    rcases cases_find?_push hp hfind with ⟨-, rfl⟩ | ⟨-, hfind⟩
    · exact (h.coherent label p hp).push v hroom
    · exact h.coherent other q hfind
  scope other q hfind name w hlookup := by
    rcases cases_find?_push hp hfind with ⟨rfl, rfl⟩ | ⟨-, hfind⟩
    · exact (h.scope other p hp name w hlookup).push other v
    · exact (h.scope other q hfind name w hlookup).push label v
  elements other q hfind j w hw := by
    rcases cases_find?_push hp hfind with ⟨rfl, rfl⟩ | ⟨-, hfind⟩
    · rw [Progress.push, Array.getElem?_push] at hw
      split at hw
      · rename_i hj
        obtain rfl := Option.some.inj hw
        rw [hj]
        exact hv.push other v
      · exact (h.elements other p hp j w hw).push other v
    · exact (h.elements other q hfind j w hw).push label v

end Store.Contained

/-! ## Facts -/

/-- The store has `v` as an element of a sequence, behind the elements `history`, and the
generator produced it. -/
def Fact (store : Store) (sequence : Sequence) (history : List Value) (v : Value) : Prop :=
  ∃ p rest, store.find? sequence.label = some p ∧ p.sequence = sequence ∧
    sequence.seeds.length ≤ history.length ∧ p.elements.toList = history ++ v :: rest

namespace Fact

variable {store : Store} {sequence : Sequence} {history : List Value} {v : Value}

/-- A sequence that was just made has no facts. -/
theorem of_add {new : Sequence} (h : Fact (store.add new) sequence history v) :
    Fact store sequence history v := by
  obtain ⟨p, rest, hfind, hsame, hseeds, helements⟩ := h
  rcases Store.cases_find?_add hfind with ⟨-, rfl⟩ | hfind
  · have hlength := congrArg List.length helements
    simp only [Progress.start] at hsame
    subst hsame
    simp only [Progress.start, List.length_append, List.length_cons] at hlength
    omega
  · exact ⟨p, rest, hfind, hsame, hseeds, helements⟩

theorem of_discard {frame : Label} (h : Fact (store.discard frame) sequence history v) :
    Fact store sequence history v := by
  obtain ⟨p, rest, hfind, hrest⟩ := h
  exact ⟨p, rest, (Store.cases_find?_discard hfind).2, hrest⟩

/-- A push adds one fact: its value behind all elements that were there. -/
theorem of_push {label : Label} {new : Value} (h : Fact (store.push label new) sequence history v) :
    Fact store sequence history v ∨
      ∃ p, store.find? label = some p ∧ p.sequence = sequence ∧ history = p.elements.toList ∧
        v = new := by
  obtain ⟨p, rest, hfind, hsame, hseeds, helements⟩ := h
  rw [Store.find?_push] at hfind
  split at hfind
  · rename_i hlabel
    obtain ⟨q, hq, rfl⟩ := Option.map_eq_some_iff.1 hfind
    simp only [Progress.push, Array.toList_push] at helements hsame
    -- The fact is the new element if nothing stands behind it, and an old one otherwise.
    rcases List.eq_nil_or_concat' rest with rfl | ⟨front, last, rfl⟩
    · obtain ⟨hhistory, hv⟩ := List.append_inj' helements rfl
      exact .inr ⟨q, hlabel ▸ hq, hsame, hhistory.symm, (List.cons.inj hv).1.symm⟩
    · have hinit : q.elements.toList = history ++ v :: front := by
        have hconcat : q.elements.toList ++ [new] = (history ++ v :: front) ++ [last] := by
          rw [helements]
          simp
        exact (List.append_inj' hconcat rfl).1
      exact .inl ⟨q, front, hq, hsame, hseeds, hinit⟩
  · exact .inl ⟨p, rest, hfind, hsame, hseeds, helements⟩

end Fact

end Terse
