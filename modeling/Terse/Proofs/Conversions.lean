import Terse.Proofs.Honest

/-!
# Loops, conversions and collections are honest

One lemma for each function that the operators are made of: loops over lists and sequences,
conversions between kinds of values, and folds, filters and zips.

* A loop over a list is honest if its step is, for each element and with everything that is known by
  then (`mapM_length`, `foldlM`).  A loop over a sequence asks for one element after the other; what
  holds of its state before a visit has to hold after it (`walk`), and the collecting loops are
  instances for the state that lists known values.
* A conversion looks into a value, through as many levels as the settings allow.  It is an induction
  on this number: elements of a known array are known, and an element of a known sequence is known
  when it is asked for.
* Numbers are known if they are in the exponent range.  Results of arithmetic are brought into it
  (`number`), and counts and truth values lie in it.

Nothing here depends on the discipline: blocks and combinators that are applied come with the
hypothesis that the discipline allows them.
-/

namespace Terse

/-! ## Numbers in the exponent range -/

namespace Decimal

theorem inRange_of_bounded {d n : Decimal} (h : d.bounded = .ok n) : n.inRange = true := by
  rw [inRange, decide_eq_true_iff]
  unfold bounded at h
  split at h
  · cases h
  · split at h
    · obtain rfl := Except.ok.inj h
      decide
    · obtain rfl := Except.ok.inj h
      omega

theorem lengthFrom_le (n tries estimate : Nat) :
    Digits.lengthFrom n tries estimate ≤ estimate + tries := by
  induction tries generalizing estimate with
  | zero => exact Nat.le_refl _
  | succ tries ih =>
      have hnext := ih (estimate + 1)
      rw [Digits.lengthFrom]
      split <;> omega

/-- The integers that fit into a word are in the exponent range. -/
theorem inRange_ofInt {n : Int} (hn : n.natAbs < Word.count) : (ofInt n).inRange = true := by
  have hlog : n.natAbs.log2 < 64 := by
    rcases Nat.eq_zero_or_pos n.natAbs with hzero | hpos
    · rw [hzero]
      decide
    · exact (Nat.log2_lt (Nat.pos_iff_ne_zero.1 hpos)).2 hn
  have hlength : Digits.decimalLength n.natAbs ≤ 128 := by
    have hle := lengthFrom_le n.natAbs (n.natAbs.log2 + 1) (max 1 (n.natAbs.log2 * 59 / 196))
    rw [Digits.decimalLength]
    omega
  rw [inRange, magnitude, decide_eq_true_iff]
  split
  · decide
  · simp only [digitCount, ofInt, maxExponent]
    omega

theorem inRange_ofBool (b : Bool) : (ofBool b).inRange = true := by
  cases b <;> decide

end Decimal

namespace Knowledge

variable {wide : Prop} (K : Knowledge wide)

theorem truth (b : Bool) : K.has (.ofBool b) := K.number _ (.inl (Decimal.inRange_ofBool b))

theorem count (n : Nat) : K.has (.ofNat n) := by
  refine K.number _ (.inl (Decimal.inRange_ofInt ?_))
  rw [Int.natAbs_natCast]
  exact Nat.mod_lt _ (by decide)

end Knowledge

namespace Honest

variable {wide : Prop} {D : Discipline} {K : Knowledge wide}

/-! ## Loops -/

/-- A step for each element of a list, with as many results as there are elements. -/
theorem mapM_length {α β : Type} {items : List α} {f : Evaluator → α → Eval β}
    {P : Knowledge wide → β → Prop} (hP : ∀ K K' b, K ≤ K' → P K b → P K' b)
    (hf : ∀ K' a, K ≤ K' → a ∈ items → Honest D K' (fun run => f run a) P) :
    Honest D K (fun run => items.mapM (f run)) fun K' results =>
      results.length = items.length ∧ ∀ b ∈ results, P K' b := by
  induction items generalizing K with
  | nil =>
      simp only [List.mapM_nil]
      exact .pure (by simp)
  | cons a rest ih =>
      simp only [List.mapM_cons]
      refine .bind (hf K a le_rfl List.mem_cons_self) fun K₁ b h₁ hb => ?_
      refine .bind (ih fun K' a' h' ha' => hf K' a' (h₁.trans h') (List.mem_cons_of_mem _ ha'))
        fun K₂ results h₂ hresults => .pure ?_
      obtain ⟨hlength, hresults⟩ := hresults
      exact ⟨congrArg (· + 1) hlength, List.forall_mem_cons.2 ⟨hP K₁ K₂ b h₂ hb, hresults⟩⟩

/-- A step for each element of a list. -/
theorem mapM {α β : Type} {items : List α} {f : Evaluator → α → Eval β}
    {P : Knowledge wide → β → Prop} (hP : ∀ K K' b, K ≤ K' → P K b → P K' b)
    (hf : ∀ K' a, K ≤ K' → a ∈ items → Honest D K' (fun run => f run a) P) :
    Honest D K (fun run => items.mapM (f run)) fun K' results => ∀ b ∈ results, P K' b :=
  .weaken (mapM_length hP hf) fun _ _ _ hresults => hresults.2

/-- A step for each element of a list that yields values. -/
theorem mapValues {α : Type} {items : List α} {f : Evaluator → α → Eval Value}
    (hf : ∀ K' a, K ≤ K' → a ∈ items → Honest D K' (fun run => f run a) Knowledge.has) :
    Honest D K (fun run => items.mapM (f run)) Knowledge.all :=
  mapM (fun _ _ b h hb => h b hb) hf

/-- A step for each known value of a list that yields something that is not a value. -/
theorem mapResults {β : Type} {items : List Value} {f : Evaluator → Value → Eval β}
    (hitems : K.all items)
    (hf : ∀ K' v, K ≤ K' → K'.has v → Honest D K' (fun run => f run v) fun _ _ => True) :
    Honest D K (fun run => items.mapM (f run)) fun _ _ => True :=
  .weaken (mapM (fun _ _ _ _ _ => trivial) fun K' v h hv => hf K' v h (h v (hitems v hv)))
    fun _ _ _ _ => trivial

/-- A step that carries a value from one element of a list to the next. -/
theorem foldlM {α : Type} {items : List α} {f : Evaluator → Value → α → Eval Value} {v : Value}
    (hv : K.has v)
    (hf : ∀ K' v a, K ≤ K' → K'.has v → a ∈ items →
      Honest D K' (fun run => f run v a) Knowledge.has) :
    Honest D K (fun run => items.foldlM (f run) v) Knowledge.has := by
  induction items generalizing K v with
  | nil =>
      simp only [List.foldlM_nil]
      exact .pure hv
  | cons a rest ih =>
      simp only [List.foldlM_cons]
      refine .bind (hf K v a le_rfl hv List.mem_cons_self) fun K₁ w h₁ hw => ?_
      exact ih hw fun K' v' a' h' hv' ha' =>
        hf K' v' a' (h₁.trans h') hv' (List.mem_cons_of_mem a ha')

/-- A walk through a sequence: what holds of the state before each visit holds after it. -/
theorem walk {σ : Type} {s : Sequence} {visit : Evaluator → σ → Value → Eval (Bool × σ)}
    {I : Knowledge wide → σ → Prop} (hI : ∀ K K' state, K ≤ K' → I K state → I K' state)
    (hvisit : ∀ K' state v, K ≤ K' → I K' state → K'.has v →
      Honest D K' (fun run => visit run state v) fun K'' result => I K'' result.2)
    {count index : Nat} {state : σ} (hs : K.has (.sequence s)) (hstate : I K state) :
    Honest D K (fun run => Eval.walk run s (visit run) count index state) I := by
  -- The invariant is carried over what becomes known while an element is produced.
  induction count generalizing K index state with
  | zero =>
      simp only [Eval.walk]
      exact .pure hstate
  | succ count ih =>
      simp only [Eval.walk]
      refine .bind (.element index hs) fun K₁ element h₁ helement => ?_
      cases element with
      | none => exact .pure (hI K K₁ state h₁ hstate)
      | some v =>
          have hvisited := hvisit K₁ state v h₁ (hI K K₁ state h₁ hstate) (helement v rfl)
          refine .bind hvisited fun K₂ result h₂ hresult => ?_
          obtain ⟨more, state'⟩ := result
          cases more with
          | false => exact .pure hresult
          | true =>
              have h₁₂ := h₁.trans h₂
              exact ih (fun K' state v h' => hvisit K' state v (h₁₂.trans h')) (h₁₂ _ hs) hresult

/-! ## Errors and numbers -/

theorem ofArithmetic {α : Type} (result : Except Decimal.Fault α) (position : Position) :
    Honest D K (fun _ => Eval.ofArithmetic result position) fun _ a => result = .ok a := by
  cases result with
  | ok value => exact .pure rfl
  | error cause => exact .fail (.inl trivial)

theorem ofConversion {α : Type} (result : Except Decimal.Misfit α) (position : Position) :
    Honest D K (fun _ => Eval.ofConversion result position) fun _ _ => True := by
  cases result with
  | ok value => exact .pure trivial
  | error cause => exact .fail (.inl trivial)

theorem number (d : Decimal) (position : Position) :
    Honest D K (fun _ => Eval.number d position) Knowledge.has :=
  .bind .settings fun _ _ _ _ =>
    .bind (ofArithmetic _ position) fun K' n _ hn =>
      .pure (K'.number n (.inl (Decimal.inRange_of_bounded hn)))

/-! ## Sequences as a whole -/

section Sequence

variable {s : Sequence} (position : Position)

theorem requireLength (action : WholeAction) :
    Honest D K (fun _ => Eval.requireLength s action position) fun _ _ => True := by
  unfold Eval.requireLength
  cases s.length with
  | some length => exact .pure trivial
  | none => exact .fail (.inl trivial)

/-- A walk that collects known values, the last one first. -/
theorem collect {visit : Evaluator → List Value → Value → Eval (Bool × List Value)} {count : Nat}
    (hs : K.has (.sequence s))
    (hvisit : ∀ K' made v, K ≤ K' → K'.all made → K'.has v →
      Honest D K' (fun run => visit run made v) fun K'' result => K''.all result.2) :
    Honest D K
      (fun run => Eval.walk run s (visit run) count 0 [] >>= fun made => Pure.pure made.reverse)
      Knowledge.all := by
  refine .bind (walk (I := Knowledge.all) (fun _ _ _ h => Knowledge.all_mono h) hvisit hs
    (fun v hv => absurd hv List.not_mem_nil)) fun _ _ _ hmade => ?_
  exact .pure (Knowledge.all_reverse hmade)

theorem takeElements (hs : K.has (.sequence s)) (count : Nat) :
    Honest D K (fun run => Eval.takeElements run s count) Knowledge.all :=
  collect hs fun _ _ _ _ hmade hv => .pure (Knowledge.all_cons hv hmade)

theorem allElements (hs : K.has (.sequence s)) :
    Honest D K (fun run => Eval.allElements run s position) Knowledge.all :=
  .bind (requireLength position .materialize) fun _ count h _ => takeElements (h _ hs) count

theorem mapElements {step : Evaluator → Value → Eval Value} (hs : K.has (.sequence s))
    (hstep : ∀ K' v, K ≤ K' → K'.has v → Honest D K' (fun run => step run v) Knowledge.has) :
    Honest D K (fun run => Eval.mapElements run s position (step run)) Knowledge.all := by
  refine .bind (requireLength position .map) fun K₁ _ h₁ _ => ?_
  refine collect (h₁ _ hs) fun K₂ made v h₂ hmade hv => ?_
  refine .bind (hstep K₂ v (h₁.trans h₂) hv) fun K₃ w h₃ hw => ?_
  exact .pure (Knowledge.all_cons hw (Knowledge.all_mono h₃ hmade))

theorem filterElements {keep : Evaluator → Value → Eval Bool} (hs : K.has (.sequence s))
    (hkeep : ∀ K' v, K ≤ K' → K'.has v → Honest D K' (fun run => keep run v) fun _ _ => True) :
    Honest D K (fun run => Eval.filterElements run s position (keep run)) Knowledge.all := by
  refine .bind (requireLength position .filter) fun K₁ _ h₁ _ => ?_
  refine collect (h₁ _ hs) fun K₂ made v h₂ hmade hv => ?_
  refine .bind (hkeep K₂ v (h₁.trans h₂) hv) fun K₃ kept h₃ _ => .pure ?_
  cases kept with
  | false => exact Knowledge.all_mono h₃ hmade
  | true => exact Knowledge.all_cons (h₃ v hv) (Knowledge.all_mono h₃ hmade)

theorem anyElement {test : Evaluator → Value → Eval Bool} (hs : K.has (.sequence s))
    (htest : ∀ K' v, K ≤ K' → K'.has v → Honest D K' (fun run => test run v) fun _ _ => True) :
    Honest D K (fun run => Eval.anyElement run s position (test run)) fun _ _ => True := by
  refine .bind (requireLength position .filter) fun K₁ _ h₁ _ => ?_
  refine walk (fun _ _ _ _ _ => trivial) (fun K₂ _ v h₂ _ hv => ?_) (h₁ _ hs) trivial
  exact .bind (htest K₂ v (h₁.trans h₂) hv) fun _ _ _ _ => .pure trivial

theorem joinElements {toText : Evaluator → Value → Eval String} (separator : String)
    (hs : K.has (.sequence s))
    (htext : ∀ K' v, K ≤ K' → K'.has v → Honest D K' (fun run => toText run v) fun _ _ => True) :
    Honest D K (fun run => Eval.joinElements run s separator position (toText run))
      fun _ _ => True := by
  refine .bind (requireLength position .join) fun K₁ _ h₁ _ => ?_
  refine .bind (walk (I := fun _ _ => True) (fun _ _ _ _ _ => trivial) (fun K₂ _ v h₂ _ hv => ?_)
    (h₁ _ hs) trivial) fun _ _ _ _ => .pure trivial
  exact .bind (htext K₂ v (h₁.trans h₂) hv) fun _ _ _ _ => .pure trivial

end Sequence

/-! ## Conversions -/

section Coercion

variable {v : Value} (position : Position)

/-- A text is read or refused at once, however deep it is. -/
theorem numberWithin_text (depth : Nat) (s : String) :
    Honest D K (fun run => Eval.numberWithin run position depth (.text s)) fun _ _ => True := by
  simp only [Eval.numberWithin]
  cases Decimal.ofText? s with
  | none => exact .fail (.inl trivial)
  | some n => exact .pure trivial

theorem numberWithin (depth : Nat) (hv : K.has v) :
    Honest D K (fun run => Eval.numberWithin run position depth v) fun _ _ => True := by
  -- By induction on how deep the value is looked into; only the first element matters.
  induction depth generalizing K v with
  | zero =>
      cases v with
      | number n => exact .pure trivial
      | text s => exact numberWithin_text position _ s
      | array items =>
          cases items with
          | nil => exact .fail (.inl trivial)
          | cons first rest => exact .exhaust
      | sequence s => exact .exhaust
  | succ depth ih =>
      cases v with
      | number n => exact .pure trivial
      | text s => exact numberWithin_text position _ s
      | array items =>
          cases items with
          | nil => exact .fail (.inl trivial)
          | cons first rest => exact ih (K.array_iff.1 hv first List.mem_cons_self)
      | sequence s =>
          refine .bind (.element 0 hv) fun K₁ element _ helement => ?_
          cases element with
          | none => exact .fail (.inl trivial)
          | some first => exact ih (helement first rfl)

theorem toNumber (hv : K.has v) :
    Honest D K (fun run => Eval.toNumber run v position) fun _ _ => True :=
  .bind .settings fun _ _ h _ => numberWithin position _ (h v hv)

theorem textWithin (depth : Nat) (hv : K.has v) :
    Honest D K (fun run => Eval.textWithin run depth v) fun _ _ => True := by
  induction depth generalizing K v with
  | zero =>
      cases v with
      | number n => exact .pure trivial
      | text s => exact .pure trivial
      | array items =>
          cases items with
          | nil => exact .pure trivial
          | cons first rest => exact .exhaust
      | sequence s => exact .exhaust
  | succ depth ih =>
      cases v with
      | number n => exact .pure trivial
      | text s => exact .pure trivial
      | array items =>
          cases items with
          | nil => exact .pure trivial
          | cons first rest => exact ih (K.array_iff.1 hv first List.mem_cons_self)
      | sequence s =>
          refine .bind (.element 0 hv) fun K₁ element _ helement => ?_
          cases element with
          | none => exact .pure trivial
          | some first => exact ih (helement first rfl)

theorem toText (hv : K.has v) : Honest D K (fun run => Eval.toText run v) fun _ _ => True :=
  .bind .settings fun _ _ h _ => textWithin _ (h v hv)

theorem toList (hv : K.has v) :
    Honest D K (fun run => Eval.toList run v position) Knowledge.all := by
  cases v with
  | text s => exact .pure (K.texts _)
  | number n => exact .pure (K.texts _)
  | array items => exact .pure (K.array_iff.1 hv)
  | sequence s => exact allElements position hv

theorem settle (hv : K.has v) :
    Honest D K (fun run => Eval.settle run v position) Knowledge.has := by
  cases v with
  | text s => exact .pure hv
  | number n => exact .pure hv
  | array items => exact .pure hv
  | sequence s =>
      simp only [Eval.settle]
      split
      · exact .bind (allElements position hv) fun K' _ _ hitems => .pure (K'.array_iff.2 hitems)
      · exact .pure hv

/-- What is settled has no sequences. -/
theorem settleWithin (depth : Nat) (hv : K.has v) :
    Honest D K (fun run => Eval.settleWithin run position depth v) fun _ w => w.Plain := by
  induction depth generalizing K v with
  | zero =>
      cases v with
      | text s => exact .pure (.text s)
      | number n => exact .pure (.number n)
      | array items => exact .exhaust
      | sequence s => exact .exhaust
  | succ depth ih =>
      -- The elements are settled one level below, for arrays and for sequences that have a length.
      have hitems : ∀ {K : Knowledge wide} {items : List Value}, K.all items →
          Honest D K (fun run => items.mapM fun item => Eval.settleWithin run position depth item)
            fun _ settled => ∀ w ∈ settled, w.Plain :=
        fun hitems => mapM (P := fun _ => Value.Plain) (fun _ _ _ _ hw => hw)
          fun K' item h hitem => ih (h item (hitems item hitem))
      cases v with
      | text s => exact .pure (.text s)
      | number n => exact .pure (.number n)
      | array items =>
          exact .bind (hitems (K.array_iff.1 hv)) fun _ _ _ hsettled => .pure (.array hsettled)
      | sequence s =>
          simp only [Eval.settleWithin]
          split
          · refine .bind (allElements position hv) fun K₁ items _ hknown => ?_
            exact .bind (hitems hknown) fun _ _ _ hsettled => .pure (.array hsettled)
          · exact .fail (.inl trivial)

/-- The text of a value without sequences does not depend on the machine. -/
theorem inlineWithin (depth : Nat) (hv : v.Plain) :
    Honest D K (fun _ => Eval.inlineWithin depth v) fun _ _ => True := by
  induction depth generalizing K v with
  | zero =>
      cases hv with
      | text s =>
          simp only [Eval.inlineWithin]
          exact .pure trivial
      | number n =>
          simp only [Eval.inlineWithin]
          exact .pure trivial
      | array hitems =>
          simp only [Eval.inlineWithin]
          exact .exhaust
  | succ depth ih =>
      cases hv with
      | text s =>
          simp only [Eval.inlineWithin]
          exact .pure trivial
      | number n =>
          simp only [Eval.inlineWithin]
          exact .pure trivial
      | array hitems =>
          simp only [Eval.inlineWithin]
          refine .bind (mapM (P := fun _ _ => True) (fun _ _ _ _ _ => trivial)
            fun K' item _ hitem => ?_) fun _ _ _ _ => .pure trivial
          simp only [Eval.inlineWithin.entry]
          exact .bind (ih (hitems item hitem)) fun _ _ _ _ => .pure trivial

theorem inline (hv : v.Plain) : Honest D K (fun _ => Eval.inline v) fun _ _ => True :=
  .bind .settings fun _ _ _ _ => inlineWithin _ hv

theorem serialize (hv : K.has v) :
    Honest D K (fun run => Eval.serialize run v position) fun _ _ => True := by
  refine .bind .settings fun K₁ settings h₁ _ => ?_
  refine .bind (settleWithin position _ (h₁ v hv)) fun K₂ settled _ hplain => ?_
  cases hplain with
  | text s => exact inline (.text s)
  | number n => exact inline (.number n)
  | array hitems =>
      exact .bind (mapM (P := fun _ _ => True) (fun _ _ _ _ _ => trivial)
        fun K' item _ hitem => inline (hitems item hitem)) fun _ _ _ _ => .pure trivial

end Coercion

/-! ## Folds, filters and zips -/

section Collection

variable {v w : Value} (position : Position)

theorem foldElements {map : Option Block} (hv : K.has v) (hmap : ∀ b ∈ map, D.block b) :
    Honest D K (fun run => Eval.foldElements run v map position) Knowledge.all := by
  -- All values but sequences are listed first; a sequence is mapped element by element.
  have hlist : ∀ block, map = some block →
      Honest D K (fun run => Eval.toList run v position >>= List.mapM (Eval.applyBlock run block))
        Knowledge.all := by
    intro block hblock
    refine .bind (toList position hv) fun K₁ items h₁ hitems => ?_
    exact mapValues fun K' item h hitem => .block (hmap block hblock) (h item (hitems item hitem))
  cases map with
  | none =>
      cases v with
      | sequence s => exact allElements position hv
      | _ => exact toList position hv
  | some block =>
      cases v with
      | sequence s =>
          exact mapElements position hv fun K' item h hitem => .block (hmap block rfl) hitem
      | _ => exact hlist block rfl

theorem combine {combinator : Combinator} {rest : List Value} (hc : D.combinator combinator)
    (hv : K.has v) (hrest : K.all rest) :
    Honest D K (fun run => Eval.combine run combinator v rest) Knowledge.has := by
  induction rest generalizing K v with
  | nil => exact .pure hv
  | cons next rest ih =>
      refine .bind (.combinator hc hv (hrest next List.mem_cons_self)) fun K₁ w h₁ hw => ?_
      exact ih hw fun item hitem => h₁ item (hrest item (List.mem_cons_of_mem _ hitem))

theorem fold {map : Option Block} {combinator : Option Combinator} (hv : K.has v)
    (hmap : ∀ b ∈ map, D.block b) (hcombinator : ∀ c ∈ combinator, D.combinator c) :
    Honest D K (fun run => Eval.fold run v map combinator position) Knowledge.has := by
  have harray : Honest D K
      (fun run => Eval.foldElements run v map position >>= fun items => Pure.pure (.array items))
      Knowledge.has :=
    .bind (foldElements position hv hmap) fun K' _ _ hitems => .pure (K'.array_iff.2 hitems)
  -- Without elements, a fold with a combinator is the empty text; without a combinator it is an
  -- array, or the sequence itself if nothing is to be mapped.
  cases combinator with
  | some c =>
      simp only [Eval.fold]
      refine .bind (foldElements position hv hmap) fun K₁ items _ hitems => ?_
      cases items with
      | nil => exact .pure K₁.empty
      | cons first rest =>
          exact combine (hcombinator c rfl) (hitems first List.mem_cons_self)
            fun item hitem => hitems item (List.mem_cons_of_mem _ hitem)
  | none =>
      cases map with
      | some block => cases v <;> exact harray
      | none =>
          cases v with
          | sequence s => exact .pure hv
          | _ => exact harray

theorem holds {block : Block} (hb : D.block block) (hv : K.has v) :
    Honest D K (fun run => Eval.holds run block v) fun _ _ => True :=
  .bind (.block hb hv) fun _ _ _ _ => .pure trivial

theorem filterList {keep : Evaluator → Value → Eval Bool} {items : List Value}
    (hitems : K.all items)
    (hkeep : ∀ K' v, K ≤ K' → K'.has v → Honest D K' (fun run => keep run v) fun _ _ => True) :
    Honest D K (fun run => Eval.filterList (keep run) items) Knowledge.all := by
  induction items generalizing K with
  | nil => exact .pure fun v hv => absurd hv List.not_mem_nil
  | cons v rest ih =>
      refine .bind (hkeep K v le_rfl (hitems v List.mem_cons_self)) fun K₁ kept h₁ _ => ?_
      have hrest : Honest D K₁ (fun run => Eval.filterList (keep run) rest) Knowledge.all :=
        ih (fun w hw => h₁ w (hitems w (List.mem_cons_of_mem _ hw)))
          fun K' w h' => hkeep K' w (h₁.trans h')
      cases kept with
      | false => exact hrest
      | true =>
          refine .bind hrest fun K₂ others h₂ hothers => .pure ?_
          exact Knowledge.all_cons (h₂ v (h₁ v (hitems v List.mem_cons_self))) hothers

theorem anyOfList {test : Evaluator → Value → Eval Bool} {items : List Value}
    (hitems : K.all items)
    (htest : ∀ K' v, K ≤ K' → K'.has v → Honest D K' (fun run => test run v) fun _ _ => True) :
    Honest D K (fun run => Eval.anyOfList (test run) items) fun _ _ => True := by
  induction items generalizing K with
  | nil => exact .pure trivial
  | cons v rest ih =>
      refine .bind (htest K v le_rfl (hitems v List.mem_cons_self)) fun K₁ found h₁ _ => ?_
      cases found with
      | true => exact .pure trivial
      | false =>
          exact ih (fun w hw => h₁ w (hitems w (List.mem_cons_of_mem _ hw)))
            fun K' w h' => htest K' w (h₁.trans h')

theorem filter {block : Block} (hb : D.block block) (hv : K.has v) :
    Honest D K (fun run => Eval.filter run block v position) Knowledge.has := by
  have hlist : Honest D K
      (fun run => Eval.toList run v position >>= fun items =>
        Eval.filterList (Eval.holds run block) items >>= fun kept => Pure.pure (.array kept))
      Knowledge.has := by
    refine .bind (toList position hv) fun K₁ items _ hitems => ?_
    refine .bind (filterList hitems fun K' v _ hv => holds hb hv) fun K₂ kept _ hkept => ?_
    exact .pure (K₂.array_iff.2 hkept)
  cases v with
  | sequence s =>
      refine .bind (filterElements position hv fun K' v _ hv => holds hb hv)
        fun K' kept _ hkept => ?_
      exact .pure (K'.array_iff.2 hkept)
  | _ => exact hlist

theorem any {block : Block} (hb : D.block block) (hv : K.has v) :
    Honest D K (fun run => Eval.any run block v position) Knowledge.has := by
  have hlist : Honest D K
      (fun run => Eval.toList run v position >>= fun items =>
        Eval.anyOfList (Eval.holds run block) items >>= fun found => Pure.pure (.ofBool found))
      Knowledge.has := by
    refine .bind (toList position hv) fun K₁ items _ hitems => ?_
    exact .bind (anyOfList hitems fun K' v _ hv => holds hb hv) fun K' _ _ _ =>
      .pure (K'.truth _)
  cases v with
  | sequence s =>
      exact .bind (anyElement position hv fun K' v _ hv => holds hb hv) fun K' _ _ _ =>
        .pure (K'.truth _)
  | _ => exact hlist

theorem take (hv : K.has v) (count : Nat) :
    Honest D K (fun run => Eval.take run v count position) Knowledge.all := by
  have hlist : Honest D K
      (fun run => Eval.toList run v position >>= fun items => Pure.pure (items.take count))
      Knowledge.all :=
    .bind (toList position hv) fun _ _ _ hitems =>
      .pure (Knowledge.all_subset hitems fun _ => List.mem_of_mem_take)
  cases v with
  | sequence s => exact takeElements hv count
  | _ => exact hlist

theorem zipOperands (hv : K.has v) (hw : K.has w) :
    Honest D K (fun run => Eval.zipOperands run v w position)
      fun K' operands => K'.all operands.1 ∧ K'.all operands.2 := by
  -- A sequence without a length is taken as far as the other operand goes.
  unfold Eval.zipOperands
  split
  · exact .fail (.inl trivial)
  · refine .bind (toList position hw) fun K₁ rights h₁ hrights => ?_
    refine .bind (take position (h₁ v hv) _) fun K₂ lefts h₂ hlefts => .pure ?_
    exact ⟨hlefts, Knowledge.all_mono h₂ hrights⟩
  · refine .bind (toList position hv) fun K₁ lefts h₁ hlefts => ?_
    refine .bind (take position (h₁ w hw) _) fun K₂ rights h₂ hrights => .pure ?_
    exact ⟨Knowledge.all_mono h₂ hlefts, hrights⟩
  · refine .bind (toList position hv) fun K₁ lefts h₁ hlefts => ?_
    refine .bind (toList position (h₁ w hw)) fun K₂ rights h₂ hrights => .pure ?_
    exact ⟨Knowledge.all_mono h₂ hlefts, hrights⟩

theorem zip {combinator : Option Combinator} (hv : K.has v) (hw : K.has w)
    (hcombinator : ∀ c ∈ combinator, D.combinator c) :
    Honest D K (fun run => Eval.zip run v w combinator position) Knowledge.has := by
  refine .bind (zipOperands position hv hw) fun K₁ operands _ hoperands => ?_
  obtain ⟨lefts, rights⟩ := operands
  refine .bind (mapValues fun K' pair h hpair => ?_) fun K' _ _ hitems =>
    .pure (K'.array_iff.2 hitems)
  have hleft : K'.has pair.1 := h _ (hoperands.1 _ (List.of_mem_zip hpair).1)
  have hright : K'.has pair.2 := h _ (hoperands.2 _ (List.of_mem_zip hpair).2)
  cases combinator with
  | some c => exact .combinator (hcombinator c rfl) hleft hright
  | none =>
      refine .pure (K'.array_iff.2 ?_)
      simp only [List.mem_cons, List.not_mem_nil, or_false, forall_eq_or_imp, forall_eq]
      exact ⟨hleft, hright⟩

end Collection

end Honest

end Terse
