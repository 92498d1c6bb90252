import Terse.Evaluation.Sequence
import Terse.Proofs.Store

/-!
# The invariant of the machine

`Machine.Sound` says that a machine only refers to sequences that are stored and were made before
the site, that the site hands out labels that are not in use, and that sequences made during the
production of an element stand below an element that exists.  The sequences that are being produced
at the moment are not before the site, so nothing can reach them.

`Grows` is what every step of evaluation does to a machine, whether it succeeds or fails: stored
sequences stay and only get more elements, and those that are not before the site do not change at
all.

The three steps that need an argument about labels are making a sequence, starting the production of
an element, and ending it, with an element or with a failure.

## Strategy

* Making a sequence (`Machine.Sound.make`) uses the label of the site, which nothing continues as
  the machine is sound.  Behind it the site is one further, so the new sequence is before it.
* `Producing` is a machine in front of a production.  Inside, the site has the label of the sequence
  and the number of the new element as its frame.  What was before the sequence or is an element of
  it is before that frame (`Producing.enter`), and the sequence itself is not: it cannot ask for the
  element that it is producing.
* At the end of a production, the machine is the one outside with another store.  What has grown
  inside has grown outside (`Producing.grows_reenter`), as all that is before the site inside is
  also before the site outside.
* What stands below an element of some sequence after the production stands below one that existed,
  or below the new one (`Producing.below_inner`).  With a success the new one exists
  (`Producing.succeed`), and with a failure all that stands below it is discarded
  (`Producing.fail`).
-/

namespace Terse

/-- What holds of a machine whenever a node is evaluated. -/
structure Machine.Sound (M : Machine) : Prop where
  scope : ∀ name v, M.scope.lookup name = some v → Known M.store M.site.label v
  history : ∀ v ∈ M.lookback.history, Known M.store M.site.label v
  store : M.store.Contained
  /-- The site hands out labels that are not in use. -/
  fresh : ∀ label p k, M.store.find? label = some p → M.site.made ≤ k →
    ¬ M.site.frame ++ [k] <+: label
  /-- What was made during a production stands below an element that exists. -/
  below : ∀ label p x q j, M.store.find? label = some p → Before label M.site.label →
    M.store.find? x = some q → label ++ [j] <+: x → j < p.elements.size

/-- What a step of evaluation may do to a machine. -/
structure Grows (M M' : Machine) : Prop where
  frame : M'.site.frame = M.site.frame
  made : M.site.made ≤ M'.site.made
  kept : ∀ label p, M.store.find? label = some p → ∃ p', M'.store.find? label = some p' ∧
    p'.Extends p ∧ (¬ Before label M'.site.label → p' = p)
  new : ∀ label p', M'.store.find? label = some p' →
    (∃ p, M.store.find? label = some p) ∨ Before label M'.site.label
  unlimited : M'.output.room = none ↔ M.output.room = none

namespace Grows

variable {M M' M'' : Machine}

/-- Steps that neither make sequences nor produce elements. -/
theorem of_same (hsite : M'.site = M.site) (hstore : M'.store = M.store)
    (hunlimited : M'.output.room = none ↔ M.output.room = none) : Grows M M' where
  frame := by rw [hsite]
  made := Nat.le_of_eq (congrArg Site.made hsite.symm)
  kept label p hfind := ⟨p, by rw [hstore, hfind], .refl p, fun _ => rfl⟩
  new label p' hfind := .inl ⟨p', by rw [← hstore, hfind]⟩
  unlimited := hunlimited

theorem refl (M : Machine) : Grows M M := of_same rfl rfl .rfl

/-- Scopes do not matter. -/
theorem of_scopes {inner : Scope} (h : Grows { M with scope := inner } M') (outer : Scope) :
    Grows M { M' with scope := outer } :=
  ⟨h.frame, h.made, h.kept, h.new, h.unlimited⟩

/-- What was before the site stays before the site. -/
theorem before (h : Grows M M') {label : Label} (hbefore : Before label M.site.label) :
    Before label M'.site.label := by
  unfold Site.label at hbefore ⊢
  rw [h.frame]
  exact hbefore.mono h.made

theorem trans (h : Grows M M') (h' : Grows M' M'') : Grows M M'' where
  frame := h'.frame.trans h.frame
  made := Nat.le_trans h.made h'.made
  kept label p hfind := by
    obtain ⟨p', hfind', hextends, hsame⟩ := h.kept label p hfind
    obtain ⟨p'', hfind'', hextends', hsame'⟩ := h'.kept label p' hfind'
    refine ⟨p'', hfind'', hextends.trans hextends', fun hnot => ?_⟩
    rw [hsame' hnot, hsame fun hbefore => hnot (h'.before hbefore)]
  new label p'' hfind := by
    rcases h'.new label p'' hfind with ⟨p', hfind'⟩ | hbefore
    · rcases h.new label p' hfind' with hold | hbefore
      · exact .inl hold
      · exact .inr (h'.before hbefore)
    · exact .inr hbefore
  unlimited := h'.unlimited.trans h.unlimited

/-- Known values stay known. -/
theorem known (h : Grows M M') {v : Value} (hknown : Known M.store M.site.label v) :
    Known M'.store M'.site.label v := by
  refine hknown.mono (fun label p hfind _ => ?_) fun label hbefore => h.before hbefore
  obtain ⟨p', hfind', hextends, -⟩ := h.kept label p hfind
  exact ⟨p', hfind', hextends.sequence⟩

/-- Values that a stored sequence refers to stay known where it stands. -/
theorem known_at (h : Grows M M') {v : Value} {cut : Label} (hknown : Known M.store cut v) :
    Known M'.store cut v := by
  refine hknown.mono (fun label p hfind _ => ?_) fun label hbefore => hbefore
  obtain ⟨p', hfind', hextends, -⟩ := h.kept label p hfind
  exact ⟨p', hfind', hextends.sequence⟩

/-- A sequence that is not before the site did not change. -/
theorem find_of_not_before (h : Grows M M') {label : Label} {q : Progress}
    (hfind : M'.store.find? label = some q) (hnot : ¬ Before label M'.site.label) :
    M.store.find? label = some q := by
  obtain ⟨p, hp⟩ := (h.new label q hfind).resolve_right hnot
  obtain ⟨p', hp', -, hsame⟩ := h.kept label p hp
  rw [hp, ← hsame hnot, ← hp', hfind]

end Grows

namespace Machine.Sound

variable {M : Machine}

/-- Another scope, lookback and output on the same store and site. -/
theorem update (hsound : M.Sound) {scope : Scope} {lookback : Lookback} {output : Output}
    (hscope : ∀ name v, scope.lookup name = some v → Known M.store M.site.label v)
    (hhistory : ∀ v ∈ lookback.history, Known M.store M.site.label v) :
    Sound { M with scope := scope, lookback := lookback, output := output } where
  scope := hscope
  history := hhistory
  store := hsound.store
  fresh := hsound.fresh
  below := hsound.below

/-- The sequence that a site makes next. -/
theorem make (hsound : M.Sound) {s : Sequence} (hlabel : s.label = M.site.label)
    (hseeds : ∀ v ∈ s.seeds, Known M.store M.site.label v) (hscope : s.scope = M.scope) :
    let M' := { M with store := M.store.add s, site := M.site.next }
    M'.Sound ∧ Grows M M' ∧ Known M'.store M'.site.label (.sequence s) := by
  intro M'
  -- Neither the label nor anything that continues it is in use.
  have hunused : ∀ label p, M.store.find? label = some p → ¬ s.label <+: label := by
    intro label p hfind
    rw [hlabel]
    exact hsound.fresh label p M.site.made hfind (Nat.le_refl _)
  have hfree : M.store.find? s.label = none := by
    cases hfind : M.store.find? s.label with
    | none => rfl
    | some p => exact absurd List.prefix_rfl (hunused _ p hfind)
  have hbefore : Before s.label M'.site.label := by
    rw [hlabel]
    exact M.site.label_before_next
  have hgrows : Grows M M' := by
    refine ⟨rfl, Nat.le_succ _,
      fun label p h => ⟨p, Store.find?_add_of_find? hfree h, .refl p, fun _ => rfl⟩,
      fun label p' h => ?_, .rfl⟩
    rcases Store.cases_find?_add h with ⟨rfl, -⟩ | h
    · exact .inr hbefore
    · exact .inl ⟨p', h⟩
  have hstore : M'.store.Contained := by
    refine hsound.store.add hfree (fun name v hv => ?_) (hlabel ▸ hseeds)
    rw [hlabel]
    exact hsound.scope name v (hscope ▸ hv)
  have hnew : Known M'.store M'.site.label (.sequence s) :=
    Known.sequence_iff.2 ⟨⟨.start s, by rw [Store.find?_add, if_pos rfl], rfl⟩, hbefore⟩
  refine ⟨⟨fun name v hlookup => hgrows.known (hsound.scope name v hlookup),
    fun v hv => hgrows.known (hsound.history v hv), hstore, ?_, ?_⟩, hgrows, hnew⟩
  · intro label p k h hk hpre
    rcases Store.cases_find?_add h with ⟨rfl, -⟩ | h
    · rw [hlabel] at hpre
      exact M.site.label_before_next.not_prefix_snoc hk hpre
    · exact hsound.fresh label p k h (Nat.le_of_succ_le hk) hpre
  · intro label p x q j h hlt hx hpre
    rcases Store.cases_find?_add hx with ⟨rfl, -⟩ | hx
    · -- Only front parts of the frame are continued by the new label, and these are not before it.
      exfalso
      rw [hlabel] at hpre
      have hframe : label <+: M.site.frame :=
        List.prefix_of_prefix_length_le ((List.prefix_append _ _).trans hpre)
          (List.prefix_append _ _) (by simpa [Site.label] using hpre.length_le)
      exact hlt.not_prefix (hframe.trans (List.prefix_append _ _))
    · rcases Store.cases_find?_add h with ⟨rfl, -⟩ | h
      · exact absurd ((List.prefix_append _ _).trans hpre) (hunused x q hx)
      · rcases hlt.of_succ with hlt | hcontinues
        · exact hsound.below label p x q j h hlt hx hpre
        · exact absurd hcontinues (hsound.fresh label p _ h (Nat.le_refl _))

end Machine.Sound

/-! ## Production of an element -/

/-- In the scope of a production a name stands for the newest element or for what was captured. -/
theorem Sequence.lookup_nextScope {s : Sequence} {elements : Array Value} {name : String}
    {v : Value} (hlookup : (s.nextScope elements).lookup name = some v) :
    elements.back? = some v ∨ s.scope.lookup name = some v := by
  unfold nextScope at hlookup
  cases hback : elements.back? with
  | none =>
      rw [hback] at hlookup
      exact .inr hlookup
  | some newest =>
      rw [hback] at hlookup
      simp only [Scope.lookup, Scope.lookBackBy, Scope.set, Bindings.find?_insert] at hlookup
      split at hlookup
      · exact .inl hlookup
      · exact .inr hlookup

/-- A machine that is about to produce the next element of a sequence. -/
structure Producing (M : Machine) (s : Sequence) (p : Progress) : Prop where
  sound : M.Sound
  find : M.store.find? s.label = some p
  same : p.sequence = s
  before : Before s.label M.site.label

namespace Producing

variable {M F : Machine} {s : Sequence} {p : Progress}

/-- Nothing stands below the element that is about to be produced. -/
theorem unused (h : Producing M s p) {x : Label} {q : Progress} (hx : M.store.find? x = some q) :
    ¬ s.label ++ [p.elements.size] <+: x := by
  intro hpre
  exact Nat.lt_irrefl _ (h.sound.below _ p x q _ h.find h.before hx hpre)

/-- What can be used during the production can be used after it. -/
theorem before_outer (h : Producing M s p) {x z : Label} (hx : Before x (s.label ++ z)) :
    Before x M.site.label := by
  rcases hx.or_prefix with hx | hx
  · exact hx.trans h.before
  · exact h.before.of_prefix_left hx

/-- Elements that exist can be used during the production. -/
theorem known_element (h : Producing M s p) {v : Value} {j : Nat}
    (hv : p.elements[j]? = some v) : Known M.store (M.enter s p.elements).site.label v := by
  refine (h.sound.store.elements _ p h.find j v hv).later fun x hx => ?_
  have hj : j + 1 ≤ p.elements.size := (Array.getElem?_eq_some_iff.1 hv).1
  exact (hx.mono hj).of_prefix_right (List.prefix_append _ _)

/-- What the sequence captured can be used during the production. -/
theorem known_captured (h : Producing M s p) {name : String} {v : Value}
    (hv : s.scope.lookup name = some v) :
    Known M.store (M.enter s p.elements).site.label v := by
  rw [← h.same] at hv
  refine (h.sound.store.scope _ p h.find name v hv).later fun x hx => ?_
  exact (hx.of_prefix_right (List.prefix_append _ _)).of_prefix_right (List.prefix_append _ _)

/-- Elements that exist can be used outside. -/
theorem known_outside (h : Producing M s p) {v : Value} {j : Nat}
    (hv : p.elements[j]? = some v) : Known M.store M.site.label v :=
  (h.sound.store.elements _ p h.find j v hv).later fun _ hx => h.before_outer hx

/-- The production of an element starts in a sound machine. -/
theorem enter (h : Producing M s p) : (M.enter s p.elements).Sound where
  scope name v hlookup := by
    rcases Sequence.lookup_nextScope hlookup with hback | hcaptured
    · rw [Array.back?_eq_getElem?] at hback
      exact h.known_element hback
    · exact h.known_captured hcaptured
  history v hv := by
    obtain ⟨j, hj⟩ := Array.getElem?_of_mem hv
    exact h.known_element hj
  store := h.sound.store
  fresh label q k hfind _ hpre := h.unused hfind ((List.prefix_append _ _).trans hpre)
  below label q x r j hfind hlt hx hpre := by
    refine h.sound.below label q x r j hfind (h.before_outer (z := [p.elements.size, 0]) ?_) hx hpre
    simpa [Machine.enter, Site.ofElement, Site.label] using hlt

/-! ### The end of a production

`F` is the machine in which the run of the generator ended. -/

/-- The frame of a production. -/
theorem site_label (hgrows : Grows (M.enter s p.elements) F) :
    F.site.label = s.label ++ ([p.elements.size] ++ [F.site.made]) := by
  unfold Site.label
  rw [hgrows.frame]
  simp [Machine.enter, Site.ofElement]

theorem before_of_inner (h : Producing M s p) (hgrows : Grows (M.enter s p.elements) F) {x : Label}
    (hx : Before x F.site.label) : Before x M.site.label := by
  rw [site_label hgrows] at hx
  exact h.before_outer hx

/-- The sequence does not change while it produces an element. -/
theorem find_inner (h : Producing M s p) (hgrows : Grows (M.enter s p.elements) F) :
    F.store.find? s.label = some p := by
  obtain ⟨p', hfind, -, hsame⟩ := hgrows.kept s.label p h.find
  rw [hfind, hsame]
  intro hbefore
  rw [site_label hgrows] at hbefore
  exact hbefore.not_prefix (List.prefix_append _ _)

/-- What was made below an element during the production stands below an element that exists, or
below the one that is being produced. -/
theorem below_inner (h : Producing M s p) (hF : F.Sound) (hgrows : Grows (M.enter s p.elements) F)
    {label x : Label} {q r : Progress} {j : Nat} (hfind : F.store.find? label = some q)
    (hlt : Before label M.site.label) (hx : F.store.find? x = some r)
    (hpre : label ++ [j] <+: x) :
    j < q.elements.size ∨ label = s.label ∧ j ≤ p.elements.size := by
  by_cases hinner : Before label F.site.label
  · exact .inl (hF.below label q x r j hfind hinner hx hpre)
  -- The sequence is not touched by the production, so it was there before with these elements.
  have hq : M.store.find? label = some q := hgrows.find_of_not_before hfind hinner
  rcases hgrows.new x r hx with ⟨r', hr'⟩ | hxbefore
  · exact .inl (h.sound.below label q x r' j hq hlt hr' hpre)
  have hcut := site_label hgrows
  have hlabel : label <+: F.site.label :=
    (hxbefore.front ((List.prefix_append _ _).trans hpre)).resolve_left hinner
  have hs : s.label <+: F.site.label := by
    rw [hcut]
    exact List.prefix_append _ _
  by_cases heq : label = s.label
  · subst heq
    refine .inr ⟨rfl, hxbefore.index_le hpre ?_⟩
    rw [hcut, ← List.append_assoc]
    exact List.prefix_append _ _
  rcases List.prefix_or_prefix_of_prefix hlabel hs with ⟨tail, htail⟩ | ⟨tail, rfl⟩
  · -- The production is nested in one of `label`, whose element number `j'` exists.
    cases tail with
    | nil => exact absurd (by simpa using htail) heq
    | cons j' tail =>
        have hj' : label ++ [j'] <+: s.label := ⟨tail, by simpa using htail⟩
        have hlt' := h.sound.below label q s.label p j' hq hlt h.find hj'
        have hle' := hxbefore.index_le hpre (hj'.trans hs)
        exact .inl (Nat.lt_of_le_of_lt hle' hlt')
  · rw [hcut, List.prefix_append_right_inj] at hlabel
    cases tail with
    | nil => exact absurd (by simp) heq
    | cons i tail =>
        obtain ⟨rfl, -⟩ := List.cons_prefix_cons.1 hlabel
        exact absurd ⟨tail, by simp⟩ (h.unused hq)

/-- Outside of the sequence itself, the production leaves behind a grown machine. -/
theorem grows_reenter (h : Producing M s p) (hgrows : Grows (M.enter s p.elements) F)
    {store : Store}
    (hkept : ∀ label q, F.store.find? label = some q → (∃ q₀, M.store.find? label = some q₀) →
      ∃ q', store.find? label = some q' ∧ q'.Extends q ∧ (label ≠ s.label → q' = q))
    (hnew : ∀ label q', store.find? label = some q' → ∃ q, F.store.find? label = some q) :
    Grows M (M.reenter store F.output) where
  frame := rfl
  made := Nat.le_refl _
  kept label q hfind := by
    obtain ⟨q', hfind', hextends, hsame⟩ := hgrows.kept label q hfind
    obtain ⟨q'', hfind'', hextends', hsame'⟩ := hkept label q' hfind' ⟨q, hfind⟩
    refine ⟨q'', hfind'', hextends.trans hextends', fun hnot => ?_⟩
    rw [hsame' fun heq => hnot (heq ▸ h.before), hsame fun hb => hnot (h.before_of_inner hgrows hb)]
  new label q' hfind := by
    obtain ⟨q, hq⟩ := hnew label q' hfind
    exact (hgrows.new label q hq).imp id fun hb => h.before_of_inner hgrows hb
  unlimited := hgrows.unlimited

/-- What is stored after a production is sound if the store is contained and nothing stands below
an element that does not exist. -/
theorem sound_reenter (h : Producing M s p) {store : Store} {output : Output}
    (hgrows : Grows M (M.reenter store output)) (hstore : store.Contained)
    (hbelow : ∀ label q x r j, store.find? label = some q → Before label M.site.label →
      store.find? x = some r → label ++ [j] <+: x → j < q.elements.size) :
    (M.reenter store output).Sound where
  scope name v hlookup := hgrows.known (h.sound.scope name v hlookup)
  history v hv := hgrows.known (h.sound.history v hv)
  store := hstore
  fresh label q k hfind hk hpre := by
    rcases hgrows.new label q hfind with ⟨q₀, hq₀⟩ | hbefore
    · exact h.sound.fresh label q₀ k hq₀ hk hpre
    · exact hbefore.not_prefix_snoc hk hpre
  below := hbelow

/-- What the production gives can be used behind the new element. -/
theorem known_result (hgrows : Grows (M.enter s p.elements) F) {v : Value}
    (hv : Known F.store F.site.label v) : Known F.store (s.label ++ [p.elements.size + 1]) v := by
  refine hv.later fun x hx => ?_
  rw [site_label hgrows, ← List.append_assoc] at hx
  rcases hx.or_prefix with hx | hx
  · exact hx.mono (Nat.le_succ _)
  · exact (Before.snoc_iff.2 (Nat.lt_succ_self _)).of_prefix_left hx

/-- A production that succeeds appends its value. -/
theorem succeed (h : Producing M s p) (hroom : ∀ n, s.length = some n → p.elements.size < n)
    (hF : F.Sound) (hgrows : Grows (M.enter s p.elements) F) {v : Value}
    (hv : Known F.store F.site.label v) :
    (M.reenter (F.store.push s.label v) F.output).Sound ∧
      Grows M (M.reenter (F.store.push s.label v) F.output) := by
  have hp := h.find_inner hgrows
  have hstored : ∀ label q, (F.store.push s.label v).find? label = some q →
      ∃ q', F.store.find? label = some q' := by
    intro label q hfind
    rcases Store.cases_find?_push hp hfind with ⟨rfl, -⟩ | ⟨-, hfind⟩
    · exact ⟨p, hp⟩
    · exact ⟨q, hfind⟩
  have hgrown : Grows M (M.reenter (F.store.push s.label v) F.output) :=
    h.grows_reenter hgrows (fun _ _ hfind _ => Store.extends_find?_push s.label v hfind) hstored
  have hstore : (F.store.push s.label v).Contained :=
    hF.store.push hp (h.same ▸ hroom) (known_result hgrows hv)
  refine ⟨h.sound_reenter hgrown hstore fun label q x r j hfind hlt hx hpre => ?_, hgrown⟩
  obtain ⟨r', hr'⟩ := hstored x r hx
  rcases Store.cases_find?_push hp hfind with ⟨rfl, rfl⟩ | ⟨hne, hfind⟩
  -- The sequence has one element more, so the one that was produced exists.
  · have hj : j ≤ p.elements.size := by
      rcases h.below_inner hF hgrows hp hlt hr' hpre with hj | ⟨-, hj⟩
      · exact Nat.le_of_lt hj
      · exact hj
    rw [Progress.push, Array.size_push]
    omega
  · exact (h.below_inner hF hgrows hfind hlt hr' hpre).resolve_right fun hs => hne hs.1

/-- What is left after a production that fails refers to nothing that the production made: a
sequence before the frame refers to labels before the frame, and any other one did not change. -/
theorem contained_discard (h : Producing M s p) (hF : F.Sound)
    (hgrows : Grows (M.enter s p.elements) F)
    (hgrown : Grows M (M.reenter (F.store.discard (s.label ++ [p.elements.size])) F.output)) :
    (F.store.discard (s.label ++ [p.elements.size])).Contained := by
  -- What is left and is before the site inside is before the frame.
  have hframe : ∀ label, ¬ s.label ++ [p.elements.size] <+: label → Before label F.site.label →
      Before label (s.label ++ [p.elements.size]) := by
    intro label hnot hlt
    rw [site_label hgrows, ← List.append_assoc] at hlt
    exact hlt.or_prefix.resolve_right hnot
  refine ⟨fun label q hfind => hF.store.coherent label q (Store.cases_find?_discard hfind).2,
    fun label q hfind name w hlookup => ?_, fun label q hfind j w hw => ?_⟩
  · obtain ⟨hnot, hfind⟩ := Store.cases_find?_discard hfind
    by_cases hlt : Before label F.site.label
    · have hknown := hF.store.scope label q hfind name w hlookup
      rw [← List.append_nil label] at hknown ⊢
      exact hknown.discard (hframe label hnot hlt)
    · have hold := hgrows.find_of_not_before hfind hlt
      exact hgrown.known_at (h.sound.store.scope label q hold name w hlookup)
  · obtain ⟨hnot, hfind⟩ := Store.cases_find?_discard hfind
    by_cases hlt : Before label F.site.label
    · exact (hF.store.elements label q hfind j w hw).discard (hframe label hnot hlt)
    · have hold := hgrows.find_of_not_before hfind hlt
      exact hgrown.known_at (h.sound.store.elements label q hold j w hw)

/-- A production that fails is undone, except for what it made other sequences produce. -/
theorem fail (h : Producing M s p) (hF : F.Sound) (hgrows : Grows (M.enter s p.elements) F) :
    (M.reenter (F.store.discard (s.label ++ [p.elements.size])) F.output).Sound ∧
      Grows M (M.reenter (F.store.discard (s.label ++ [p.elements.size])) F.output) := by
  have hgrown : Grows M (M.reenter (F.store.discard (s.label ++ [p.elements.size])) F.output) := by
    refine h.grows_reenter hgrows (fun label q hfind hold => ?_)
      fun label q' hfind => ⟨q', (Store.cases_find?_discard hfind).2⟩
    obtain ⟨q₀, hq₀⟩ := hold
    exact ⟨q, Store.find?_discard_of_not_prefix (h.unused hq₀) hfind, .refl q, fun _ => rfl⟩
  have hstore := h.contained_discard hF hgrows hgrown
  refine ⟨h.sound_reenter hgrown hstore fun label q x r j hfind hlt hx hpre => ?_, hgrown⟩
  obtain ⟨-, hfind⟩ := Store.cases_find?_discard hfind
  obtain ⟨hnot, hx⟩ := Store.cases_find?_discard hx
  rcases h.below_inner hF hgrows hfind hlt hx hpre with hj | ⟨rfl, hj⟩
  · exact hj
  · -- Nothing is left below the element that was being produced.
    obtain rfl : q = p := Option.some.inj (hfind.symm.trans (h.find_inner hgrows))
    refine Nat.lt_of_le_of_ne hj fun heq => hnot ?_
    rw [← heq]
    exact hpre

end Producing

end Terse
