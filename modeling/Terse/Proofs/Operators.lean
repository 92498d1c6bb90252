import Terse.Proofs.Conversions

/-!
# The evaluator is honest

One lemma for each operator and each kind of node, up to `Honest.eval`: the evaluation of a node is
honest in every closed discipline that allows the node.

A lemma follows the definition that it is about, step by step.  Each step is one of the ways in
which the evaluator touches the machine, or one of the functions of `Terse.Proofs.Conversions`; it
is entered with `Honest.bind`, which gives the result together with what is known from then on.  A
value that was known before stays known, so an operand is carried along with the order between
knowledges, and only the last step has to show that its result is known.

* Operators that need values only (`applyLeading`, `applyBinary`, `applyTrailing`) are honest in
  every discipline.  They differ in how they take values apart; a part of a known value is known,
  and what is not a part of one is a text, a truth value, a count, or a result of arithmetic.
* Operators that look at their operands as syntax need the discipline.  An assignment needs that its
  variable may be bound, a call needs its number of arguments, a fold needs its blocks and
  combinators.  That the discipline is closed under these is what `Discipline.Closed` says.
* A filter that does not carry its block fails, with an error that the discipline has to allow for
  such a node.
-/

namespace Terse

/-! ## Lists of values -/

theorem mem_of_mem_sortValues {descending : Bool} {values : List Value} {v : Value}
    (hv : v ∈ sortValues descending values) : v ∈ values := by
  simp only [sortValues, List.mem_map, List.mem_mergeSort] at hv
  obtain ⟨_, ⟨w, hw, rfl⟩, rfl⟩ := hv
  exact hw

theorem mem_of_mem_addToGroups {value : Value} {groups : List (List Value)} {group : List Value}
    {v : Value} (hgroup : group ∈ addToGroups value groups) (hv : v ∈ group) :
    v = value ∨ ∃ old ∈ groups, v ∈ old := by
  induction groups with
  | nil =>
      simp only [addToGroups, List.mem_singleton] at hgroup
      subst hgroup
      exact .inl (List.mem_singleton.1 hv)
  | cons first rest ih =>
      -- The value joins the first group whose head it equals, or goes on to the groups behind.
      unfold addToGroups at hgroup
      split at hgroup
      · rcases List.mem_cons.1 hgroup with rfl | hrest
        · rcases List.mem_append.1 hv with hv | hv
          · exact .inr ⟨first, List.mem_cons_self, hv⟩
          · exact .inl (List.mem_singleton.1 hv)
        · exact .inr ⟨group, List.mem_cons_of_mem _ hrest, hv⟩
      · rcases List.mem_cons.1 hgroup with rfl | hrest
        · exact .inr ⟨group, List.mem_cons_self, hv⟩
        · refine (ih hrest).imp id ?_
          rintro ⟨old, hold, hv⟩
          exact ⟨old, List.mem_cons_of_mem _ hold, hv⟩

/-- Groups hold nothing but the values that were grouped. -/
theorem mem_of_mem_groupValues {values group : List Value} {v : Value}
    (hgroup : group ∈ groupValues values) (hv : v ∈ group) : v ∈ values := by
  -- Generalized to the groups that there are already, which hold nothing new either.
  have hfold : ∀ (values : List Value) (groups : List (List Value)),
      group ∈ values.foldl (fun groups value => addToGroups value groups) groups →
      v ∈ values ∨ ∃ old ∈ groups, v ∈ old := by
    intro values
    induction values with
    | nil => exact fun groups h => .inr ⟨group, h, hv⟩
    | cons value rest ih =>
        intro groups h
        rcases ih _ h with hrest | ⟨old, hold, hmem⟩
        · exact .inl (List.mem_cons_of_mem _ hrest)
        · rcases mem_of_mem_addToGroups hold hmem with rfl | hgroups
          · exact .inl List.mem_cons_self
          · exact .inr hgroups
  rcases hfold values [] hgroup with h | ⟨old, hold, -⟩
  · exact h
  · exact absurd hold List.not_mem_nil

namespace Honest

variable {wide : Prop} {D : Discipline} {K : Knowledge wide}

/-! ## Leading operators -/

section Leading

variable {v : Value} (position : Position)

theorem rangeFrom (stop : Decimal) (closed : Bool) (count : Nat) (start : Decimal)
    {made : List Value} (hmade : K.all made) :
    Honest D K (fun _ => Eval.rangeFrom stop closed position count start made) Knowledge.all := by
  induction count generalizing K start made with
  | zero => exact .pure (Knowledge.all_reverse hmade)
  | succ count ih =>
      simp only [Eval.rangeFrom]
      split
      · refine .bind (number start position) fun K₁ w h₁ hw => ?_
        exact ih _ (Knowledge.all_cons hw (Knowledge.all_mono h₁ hmade))
      · exact .pure (Knowledge.all_reverse hmade)

theorem range (start stop : Decimal) (closed : Bool) :
    Honest D K (fun _ => Eval.range start stop closed position) Knowledge.has :=
  .bind (rangeFrom position stop closed _ start fun _ hv => absurd hv List.not_mem_nil)
    fun K' _ _ hitems => .pure (K'.array_iff.2 hitems)

theorem sort (hv : K.has v) (descending : Bool) :
    Honest D K (fun run => Eval.sort run v descending position) Knowledge.has :=
  .bind (toList position hv) fun K' _ _ hitems =>
    .pure (K'.array_iff.2 (Knowledge.all_subset hitems fun _ => mem_of_mem_sortValues))

theorem applyLeading (op : LeadingOp) (hv : K.has v) :
    Honest D K (fun run => Eval.applyLeading run op v position) Knowledge.has := by
  -- The operators that are not listed take a number to a number.
  have hnumber : Honest D K
      (fun run => Eval.toNumber run v position >>= fun n =>
        Eval.ofArithmetic (Eval.leadingNumber op n) position >>= fun d => Eval.number d position)
      Knowledge.has :=
    .bind (toNumber position hv) fun _ _ _ _ =>
      .bind (ofArithmetic _ position) fun _ _ _ _ => number _ position
  cases op with
  | not => exact .pure (K.truth _)
  | reverse => exact .bind (toText hv) fun K' _ _ _ => .pure (K'.text _)
  | palindrome =>
      exact .bind (toText hv) fun K' _ _ _ => .pure (K'.array_iff.2 (K'.texts [_, _]))
  | sortAscending => exact sort position hv false
  | sortDescending => exact sort position hv true
  | oneRange => exact .bind (toNumber position hv) fun _ _ _ _ => range position _ _ true
  | _ => exact hnumber

theorem stepBy (delta : Decimal) (hv : K.has v) :
    Honest D K (fun run => Eval.stepBy run delta v position) Knowledge.has := by
  have hstep : ∀ {K : Knowledge wide} {v : Value}, K.has v → Honest D K
      (fun run => Eval.toNumber run v position >>= fun n => Eval.number (n + delta) position)
      Knowledge.has :=
    fun hv => .bind (toNumber position hv) fun _ _ _ _ => number _ position
  cases v with
  | array items =>
      refine .bind (mapValues fun K' item h hitem => ?_) fun K' _ _ hitems =>
        .pure (K'.array_iff.2 hitems)
      exact hstep (h item (K.array_iff.1 hv item hitem))
  | _ => exact hstep hv

theorem step {arg : Node} (delta : Decimal) (harg : D.node arg)
    (htarget : ∀ name namePosition, arg = .var name namePosition → D.target name) :
    Honest D K (fun run => Eval.step run delta arg position) Knowledge.has := by
  refine .bind (.node harg) fun K₁ v _ hv => ?_
  refine .bind (stepBy position delta hv) fun K₂ stepped _ hstepped => ?_
  -- The result is bound if the operand is a variable; the discipline allows it as a target.
  cases arg with
  | var name namePosition =>
      exact .bind (.assign (htarget name namePosition rfl) hstepped)
        fun _ _ h _ => .pure (h _ hstepped)
  | _ => exact .pure hstepped

theorem leading (hD : D.Closed) {op : LeadingOp} {arg : Node} {extra : Extra}
    (hn : D.node (.leading op arg extra position)) :
    Honest D K (fun run => Eval.leading run op arg extra position) Knowledge.has := by
  have harg : D.node arg := hD.operand hn List.mem_cons_self
  have hplain : Honest D K
      (fun run => run arg >>= fun v => Eval.applyLeading run op v position) Knowledge.has :=
    .bind (.node harg) fun _ _ _ hv => applyLeading position op hv
  -- Only these operators look at what they carry, or at their operand before it is evaluated.
  cases op with
  | fold =>
      cases extra with
      | fold map combinator =>
          exact .bind (.node harg) fun _ _ _ hv => fold position hv
            (fun b hb => hD.block hn (Option.mem_toList.2 hb))
            fun c hc => hD.combinator hn (Option.mem_toList.2 hc)
      | _ =>
          exact .bind (.node harg) fun _ _ _ hv => fold position hv (by simp) (by simp)
  | filter =>
      cases extra with
      | filter block =>
          exact .bind (.node harg) fun _ _ _ hv =>
            filter position (hD.block hn List.mem_cons_self) hv
      | _ => exact .fail (.inr (hD.noBlock hn rfl))
  | any =>
      cases extra with
      | filter block =>
          exact .bind (.node harg) fun _ _ _ hv =>
            any position (hD.block hn List.mem_cons_self) hv
      | _ => exact .fail (.inr (hD.noBlock hn rfl))
  | increment =>
      refine step position _ harg ?_
      rintro name namePosition rfl
      exact hD.target hn rfl
  | decrement =>
      refine step position _ harg ?_
      rintro name namePosition rfl
      exact hD.target hn rfl
  | _ =>
      simp only [Eval.leading]
      exact hplain

end Leading

/-! ## Calls and hooks -/

section Call

variable (position : Position)

theorem call {name : String} {args : List Node} {receiver : Option Value}
    (hargs : ∀ arg ∈ args, D.node arg) (hreceiver : K.option receiver)
    (hcall : D.call name (receiver.toList.length + args.length)) :
    Honest D K (fun run => Eval.call run name args receiver position) Knowledge.has := by
  refine .bind (mapM_length (fun _ _ v h hv => h v hv) fun K' arg _ harg => .node (hargs arg harg))
    fun K₁ values h₁ hvalues => ?_
  obtain ⟨hlength, hvalues⟩ := hvalues
  refine .invoke name position (fun v hv => ?_) (by rwa [List.length_append, hlength])
  -- A value of the call is the receiver or comes from an argument.
  rcases List.mem_append.1 hv with hv | hv
  · exact h₁ v (hreceiver v (Option.mem_toList.1 hv))
  · exact hvalues v hv

theorem hook (h : Hook) : Honest D K (fun run => Eval.hook run h position) Knowledge.has := by
  cases h with
  | print =>
      refine .bind (.current _) fun K₁ v _ hv => ?_
      refine .bind (serialize position hv) fun K₂ text h₂ _ => ?_
      exact .bind (.writeLine text) fun _ _ h₃ _ => .pure (h₃ v (h₂ v hv))
  | input => exact .bind .settings fun _ _ _ hinput => .pure hinput
  | take =>
      refine .bind (.current _) fun K₁ collection _ hcollection => ?_
      refine .bind (.current _) fun K₂ n h₂ hn => ?_
      refine .bind (toNumber position hn) fun K₃ d h₃ _ => ?_
      refine .bind (ofConversion _ position) fun K₄ count h₄ _ => ?_
      refine .bind (take position (h₄ _ (h₃ _ (h₂ _ hcollection))) count)
        fun K₅ items _ hitems => ?_
      exact .pure (K₅.array_iff.2 hitems)

end Call

/-! ## Binary operators -/

section Binary

variable {v w : Value} (position : Position)

theorem sequencePlace {s : Sequence} (i : Int) :
    Honest D K (fun _ => Eval.sequencePlace s i position) fun _ _ => True := by
  unfold Eval.sequencePlace
  split
  · exact .bind (requireLength position _) fun _ _ _ _ => .pure trivial
  · exact .pure trivial

theorem index (hv : K.has v) (hw : K.has w) :
    Honest D K (fun run => Eval.index run v w position) Knowledge.has := by
  refine .bind (toNumber position hw) fun K₁ n h₁ _ => ?_
  refine .bind (ofConversion _ position) fun K₂ i h₂ _ => ?_
  have hv : K₂.has v := h₂ v (h₁ v hv)
  have hlist : Honest D K₂
      (fun run => Eval.toList run v position >>= fun items =>
        Pure.pure (((Eval.resolveIndex i items.length).bind (items[·]?)).getD .empty))
      Knowledge.has := by
    refine .bind (toList position hv) fun K₃ items _ hitems => .pure (Knowledge.getD_option ?_)
    intro item hitem
    obtain ⟨place, -, hplace⟩ := Option.bind_eq_some_iff.1 hitem
    exact hitems item (List.mem_of_getElem? hplace)
  -- Of a sequence only the element asked for is produced; other values are listed.
  cases v with
  | sequence s =>
      refine .bind (sequencePlace position i) fun K₃ place h₃ _ => ?_
      cases place with
      | none => exact .pure K₃.empty
      | some place =>
          exact .bind (.element place (h₃ _ hv)) fun _ _ _ helement =>
            .pure (Knowledge.getD_option helement)
  | _ => exact hlist

theorem join (hv : K.has v) (separator : String) :
    Honest D K (fun run => Eval.join run v separator position) Knowledge.has := by
  have hlist : Honest D K
      (fun run => Eval.toList run v position >>= fun items =>
        items.mapM (Eval.toText run) >>= fun texts =>
          Pure.pure (.text (String.intercalate separator texts)))
      Knowledge.has := by
    refine .bind (toList position hv) fun K₁ items _ hitems => ?_
    exact .bind (mapResults hitems fun _ _ _ => toText) fun K' _ _ _ => .pure (K'.text _)
  cases v with
  | sequence s =>
      exact .bind (joinElements position separator hv fun _ _ _ => toText) fun K' _ _ _ =>
        .pure (K'.text _)
  | _ => exact hlist

/-- Two numbers, and what follows from them. -/
theorem withNumbers {α : Type} {f : Decimal → Decimal → Evaluator → Eval α}
    {P : Knowledge wide → α → Prop} (hv : K.has v) (hw : K.has w)
    (hf : ∀ K' a b, K ≤ K' → Honest D K' (f a b) P) :
    Honest D K
      (fun run => Eval.toNumber run v position >>= fun a =>
        Eval.toNumber run w position >>= fun b => f a b run) P :=
  .bind (toNumber position hv) fun _ a h₁ _ =>
    .bind (toNumber position (h₁ w hw)) fun K' b h₂ _ => hf K' a b (h₁.trans h₂)

/-- Two texts, and what follows from them. -/
theorem withTexts {α : Type} {f : String → String → Evaluator → Eval α}
    {P : Knowledge wide → α → Prop} (hv : K.has v) (hw : K.has w)
    (hf : ∀ K' a b, K ≤ K' → Honest D K' (f a b) P) :
    Honest D K
      (fun run => Eval.toText run v >>= fun a => Eval.toText run w >>= fun b => f a b run) P :=
  .bind (toText hv) fun _ a h₁ _ =>
    .bind (toText (h₁ w hw)) fun K' b h₂ _ => hf K' a b (h₁.trans h₂)

theorem applyBinary {op : BinaryOp} (hop : op.strict = true) (hv : K.has v) (hw : K.has w) :
    Honest D K (fun run => Eval.applyBinary run op v w position) Knowledge.has := by
  -- Three patterns cover most operators: arithmetic, equality, and order.
  have harithmetic : Honest D K
      (fun run => Eval.toNumber run v position >>= fun a =>
        Eval.toNumber run w position >>= fun b => read >>= fun settings =>
          Eval.ofArithmetic (Eval.arithmetic op a b settings.precision) position >>= fun d =>
            Eval.number d position)
      Knowledge.has :=
    withNumbers position hv hw fun _ _ _ _ => .bind .settings fun _ _ _ _ =>
      .bind (ofArithmetic _ position) fun _ _ _ _ => number _ position
  have hequal : Honest D K
      (fun run => Eval.settle run v position >>= fun a => Eval.settle run w position >>= fun b =>
        Pure.pure (.ofBool (a.looseEq b == (op == .equal))))
      Knowledge.has :=
    .bind (settle position hv) fun _ _ h _ =>
      .bind (settle position (h w hw)) fun K' _ _ _ => .pure (K'.truth _)
  have hordered : Honest D K
      (fun run => Eval.toNumber run v position >>= fun a =>
        Eval.toNumber run w position >>= fun b =>
          Pure.pure (.ofBool (Eval.ordered op (a.compare b))))
      Knowledge.has :=
    withNumbers position hv hw fun K' _ _ _ => .pure (K'.truth _)
  cases op with
  | power =>
      cases v with
      | text text =>
          refine .bind (toNumber position hw) fun _ _ _ _ => ?_
          exact .bind (ofConversion _ position) fun K' _ _ _ => .pure (K'.text _)
      | _ => exact harithmetic
  | multiply => exact harithmetic
  | divide => exact harithmetic
  | modulo => exact harithmetic
  | add => exact harithmetic
  | subtract => exact harithmetic
  | join => exact .bind (toText hw) fun _ _ h _ => join position (h v hv) _
  | split =>
      exact withTexts hv hw fun K' _ _ _ => .pure (K'.array_iff.2 (K'.texts _))
  | concat => exact withTexts hv hw fun K' _ _ _ => .pure (K'.text _)
  | range => exact withNumbers position hv hw fun _ _ _ _ => range position _ _ _
  | closedRange => exact withNumbers position hv hw fun _ _ _ _ => range position _ _ _
  | index => exact index position hv hw
  | indexOf =>
      refine .bind (toList position hv) fun K' items _ _ => .pure ?_
      cases items.findIdx? (·.looseEq w) with
      | some place => exact K'.count place
      | none => exact K'.number _ (.inl (Decimal.inRange_ofInt (by decide)))
  | contains => exact .bind (toList position hv) fun K' _ _ _ => .pure (K'.truth _)
  | equal => exact hequal
  | notEqual => exact hequal
  | less => exact hordered
  | lessEqual => exact hordered
  | greater => exact hordered
  | greaterEqual => exact hordered
  | _ => cases hop

theorem store {target value : Node} (hvalue : D.node value)
    (htarget : ∀ name namePosition, target = .var name namePosition → D.target name) :
    Honest D K (fun run => Eval.store run target value) Knowledge.has := by
  cases target with
  | var name namePosition =>
      refine .bind (.node hvalue) fun K₁ v _ hv => ?_
      exact .bind (.assign (htarget name namePosition rfl) hv) fun _ _ h _ => .pure (h v hv)
  | _ => exact .fail (.inl trivial)

theorem remove {target value : Node} (hvalue : D.node value)
    (htarget : ∀ name namePosition, target = .var name namePosition → D.target name) :
    Honest D K (fun run => Eval.remove run target value position) Knowledge.has := by
  cases target with
  | var name namePosition =>
      refine .bind (.readVariable name namePosition) fun K₁ v _ hv => ?_
      refine .bind (.node hvalue) fun K₂ unwanted h₂ _ => ?_
      refine .bind (toList position (h₂ v hv)) fun K₃ items _ hitems => ?_
      have hupdated : K₃.has (.array (items.eraseP (·.looseEq unwanted))) :=
        K₃.array_iff.2 (Knowledge.all_subset hitems fun _ => List.mem_of_mem_eraseP)
      exact .bind (.assign (htarget name namePosition rfl) hupdated) fun _ _ h _ =>
        .pure (h _ hupdated)
  | _ => exact .fail (.inl trivial)

theorem binary (hD : D.Closed) {op : BinaryOp} {left right : Node} {extra : Extra}
    (hn : D.node (.binary op left right extra position)) :
    Honest D K (fun run => Eval.binary run op left right extra position) Knowledge.has := by
  have hleft : D.node left := hD.operand hn (Node.left_mem_evaluated _ _ _ _ _)
  have hright (hop : op ≠ .call) : D.node right :=
    hD.operand hn (Node.right_mem_evaluated hop _ _ _ _)
  -- The right operand of `and` and `or` is evaluated only if the left one leaves it open.
  have hshort (hop : op ≠ .call) : Honest D K
      (fun run => run left >>= fun first =>
        if first.isTruthy == (op == .and) then run right else Pure.pure first)
      Knowledge.has := by
    refine .bind (.node hleft) fun K₁ first _ hfirst => ?_
    split
    · exact .node (hright hop)
    · exact .pure hfirst
  have hplain (hcall : op ≠ .call) (hop : op.strict = true) : Honest D K
      (fun run => run left >>= fun first => run right >>= fun second =>
        Eval.applyBinary run op first second position)
      Knowledge.has :=
    .bind (.node hleft) fun _ first _ hfirst => .bind (.node (hright hcall)) fun _ _ h hsecond =>
      applyBinary position hop (h first hfirst) hsecond
  cases op with
  | assign =>
      refine store (hright (by decide)) ?_
      rintro name namePosition rfl
      exact hD.target hn rfl
  | remove =>
      refine remove position (hright (by decide)) ?_
      rintro name namePosition rfl
      exact hD.target hn rfl
  | and => exact hshort (by decide)
  | or => exact hshort (by decide)
  | call =>
      refine .bind (.node hleft) fun K₁ receiver _ hreceiver => ?_
      cases right with
      -- The call behind a dot is not evaluated as a node: its arguments are, behind the receiver.
      | call name args callPosition =>
          refine call callPosition (fun arg harg => hD.operand hn (List.mem_cons_of_mem _ harg))
            (fun v hv => Option.some.inj hv ▸ hreceiver) ?_
          rw [Option.toList_some, List.length_singleton, Nat.add_comm]
          exact hD.dot hn
      | _ => exact .node (hD.operand hn (List.mem_cons_of_mem _ List.mem_cons_self))
  | zip =>
      refine .bind (.node hleft) fun K₁ first _ hfirst => ?_
      refine .bind (.node (hright (by decide))) fun K₂ second h₂ hsecond => ?_
      refine zip position (h₂ first hfirst) hsecond fun c hc => hD.combinator hn ?_
      cases extra with
      | zip combinator =>
          obtain rfl := Option.some.inj hc
          exact List.mem_cons_self
      | _ => exact absurd hc (by simp)
  | _ => exact hplain (by decide) rfl

end Binary

/-! ## Trailing operators -/

section Trailing

variable {v : Value} (position : Position)

theorem length (hv : K.has v) :
    Honest D K (fun run => Eval.length run v position) Knowledge.has := by
  cases v with
  | sequence s =>
      exact .bind (requireLength position .measure) fun K' _ _ _ => .pure (K'.count _)
  | _ => exact .bind (toList position hv) fun K' _ _ _ => .pure (K'.count _)

theorem convertBy (width : Nat) {code : BaseCode} (hcode : code.reads = true → wide)
    (hv : K.has v) :
    Honest D K (fun run => Eval.convertBy run width position v code) Knowledge.has := by
  cases code with
  | format radix =>
      refine .bind (toNumber position hv) fun _ _ _ _ => ?_
      exact .bind (ofConversion _ position) fun K' _ _ _ => .pure (K'.text _)
  | parse radix =>
      refine .bind (toText hv) fun _ _ _ _ => ?_
      exact .bind (ofConversion _ position) fun K' n _ _ => .pure (K'.number n (.inr (hcode rfl)))
  | decimal => exact .bind (toNumber position hv) fun _ _ _ _ => number _ position

theorem flattenWithin (depth : Nat) (hv : K.has v) :
    Honest D K (fun run => Eval.flattenWithin run position depth v) Knowledge.all := by
  have hsingle : ∀ {K : Knowledge wide} {v : Value}, K.has v → K.all [v] :=
    fun hv w hw => List.mem_singleton.1 hw ▸ hv
  -- By induction on how deep arrays may be nested.
  induction depth generalizing K v with
  | zero =>
      cases v with
      | text s => exact .pure (hsingle hv)
      | number n => exact .pure (hsingle hv)
      | array items => exact .exhaust
      | sequence s => exact .exhaust
  | succ depth ih =>
      have hflatten : ∀ {K : Knowledge wide} {items : List Value}, K.all items →
          Honest D K
            (fun run => items.mapM (fun item => Eval.flattenWithin run position depth item) >>=
              fun parts => Pure.pure parts.flatten)
            Knowledge.all := by
        intro K items hitems
        refine .bind (mapM (P := Knowledge.all) (fun _ _ _ h => Knowledge.all_mono h)
          fun K' item h hitem => ih (h item (hitems item hitem))) fun _ parts _ hparts => .pure ?_
        intro w hw
        obtain ⟨part, hpart, hw⟩ := List.mem_flatten.1 hw
        exact hparts part hpart w hw
      cases v with
      | text s => exact .pure (hsingle hv)
      | number n => exact .pure (hsingle hv)
      | array items => exact hflatten (K.array_iff.1 hv)
      | sequence s => exact .bind (allElements position hv) fun _ _ _ hitems => hflatten hitems

theorem head (hv : K.has v) :
    Honest D K (fun run => Eval.head run v position) Knowledge.has := by
  cases v with
  | sequence s =>
      exact .bind (.element 0 hv) fun _ _ _ helement => .pure (Knowledge.getD_option helement)
  | _ =>
      exact .bind (toList position hv) fun _ _ _ hitems =>
        .pure (Knowledge.getD_option fun w hw => hitems w (List.mem_of_mem_head? hw))

theorem applyTrailing (op : TrailingOp) (extra : Extra) (hv : K.has v)
    (hextra : extra.readsBase = true → wide := by intros; trivial) :
    Honest D K (fun run => Eval.applyTrailing run op extra v position) Knowledge.has := by
  have hpart : ∀ {part : List Value → List Value}, (∀ items, ∀ w ∈ part items, w ∈ items) →
      Honest D K
        (fun run => Eval.toList run v position >>= fun items => Pure.pure (.array (part items)))
        Knowledge.has :=
    fun hsub => .bind (toList position hv) fun K' items _ hitems =>
      .pure (K'.array_iff.2 (Knowledge.all_subset hitems (hsub items)))
  cases op with
  | length => exact length position hv
  | base =>
      cases extra with
      | base width codes =>
          exact foldlM hv fun _ _ code _ hw hcode => convertBy position width
            (fun hreads => hextra (List.any_eq_true.2 ⟨code, hcode, hreads⟩)) hw
      | _ => exact .pure hv
  | abs => exact .bind (toNumber position hv) fun _ _ _ _ => number _ position
  | lines => exact .bind (toText hv) fun K' _ _ _ => .pure (K'.array_iff.2 (K'.texts _))
  | words => exact .bind (toText hv) fun K' _ _ _ => .pure (K'.array_iff.2 (K'.texts _))
  | head => exact head position hv
  | last =>
      exact .bind (toList position hv) fun _ _ _ hitems =>
        .pure (Knowledge.getD_option fun w hw => hitems w (List.mem_of_mem_getLast? hw))
  | tail => exact hpart fun _ _ => List.mem_of_mem_drop
  | init => exact hpart fun items _ hw => (List.dropLast_sublist items).subset hw
  | group =>
      refine .bind (toList position hv) fun K' items _ hitems => .pure (K'.array_iff.2 ?_)
      intro group hgroup
      obtain ⟨values, hvalues, rfl⟩ := List.mem_map.1 hgroup
      exact K'.array_iff.2 fun w hw => hitems w (mem_of_mem_groupValues hvalues hw)
  | isSquare => exact .bind (toNumber position hv) fun K' _ _ _ => .pure (K'.truth _)
  | flatten =>
      refine .bind .settings fun K₁ _ h₁ _ => ?_
      exact .bind (flattenWithin position _ (h₁ v hv)) fun K' _ _ hitems =>
        .pure (K'.array_iff.2 hitems)

end Trailing

/-! ## Nodes -/

theorem text (text : String) (quote : Quote) :
    Honest D K (fun _ => Eval.text text quote) Knowledge.has :=
  .bind .settings fun K' _ _ _ => .pure (K'.text _)

theorem numeral (text : String) (position : Position) :
    Honest D K (fun _ => Eval.numeral text position) Knowledge.has := by
  unfold Eval.numeral
  cases Decimal.numeral? text with
  | some n => exact number n position
  | none => exact .fail (.inl trivial)

theorem items {nodes : List Node} {last : Value} (hnodes : ∀ n ∈ nodes, D.node n)
    (hlast : K.has last) : Honest D K (fun run => Eval.items run nodes last) Knowledge.has := by
  induction nodes generalizing K last with
  | nil => exact .pure hlast
  | cons n rest ih =>
      refine .bind (.node (hnodes n List.mem_cons_self)) fun _ _ _ hv => ?_
      exact ih (fun m hm => hnodes m (List.mem_cons_of_mem _ hm)) hv

theorem program {body : Program} (hbody : ∀ n ∈ body.items, D.node n) :
    Honest D K (fun run => Eval.program run body) Knowledge.has :=
  items hbody K.empty

theorem declaredLength {stop : Node} (hstop : D.node stop) (closed : Bool) :
    Honest D K (fun run => Eval.declaredLength run stop closed) fun _ _ => True :=
  .bind (.node hstop) fun _ _ _ hv => .bind (toNumber _ hv) fun _ _ _ _ =>
    .bind (ofConversion _ _) fun _ _ _ _ => .pure trivial

theorem mem_evaluated_of_declaration? {n stop : Node} {closed : Bool}
    (h : Eval.declaration? n = some (stop, closed)) : stop ∈ n.evaluated := by
  unfold Eval.declaration? at h
  split at h
  · split at h
    · obtain ⟨rfl, -⟩ := Prod.mk.inj (Option.some.inj h)
      exact List.mem_cons_of_mem _ List.mem_cons_self
    · cases h
  · split at h
    · obtain ⟨rfl, -⟩ := Prod.mk.inj (Option.some.inj h)
      exact List.mem_cons_of_mem _ List.mem_cons_self
    · cases h
  · cases h

theorem seeds (hD : D.Closed) {nodes : List Node} {made : List Value} {length : Option Nat}
    (hnodes : ∀ n ∈ nodes, D.node n) (hmade : K.all made) :
    Honest D K (fun run => Eval.seeds run nodes made length) fun K' result => K'.all result.1 := by
  induction nodes generalizing K made length with
  | nil => exact .pure (Knowledge.all_reverse hmade)
  | cons n rest ih =>
      have hn : D.node n := hnodes n List.mem_cons_self
      have hrest : ∀ m ∈ rest, D.node m := fun m hm => hnodes m (List.mem_cons_of_mem _ hm)
      have hseed : Honest D K
          (fun run => run n >>= fun v => Eval.seeds run rest (v :: made) length)
          fun K' result => K'.all result.1 :=
        .bind (.node hn) fun _ _ h hv =>
          ih hrest (Knowledge.all_cons hv (Knowledge.all_mono h hmade))
      -- An item is the generator, declares the length, or is a seed.
      simp only [Eval.seeds]
      split
      · exact ih hrest hmade
      · split
        · rename_i stop closed hdeclared
          have hstop : D.node stop := hD.operand hn (mem_evaluated_of_declaration? hdeclared)
          exact .bind (declaredLength hstop closed) fun _ _ h _ =>
            ih hrest (Knowledge.all_mono h hmade)
        · exact hseed

theorem array (hD : D.Closed) {body : Program} {position : Position}
    (hn : D.node (.array body position)) :
    Honest D K (fun run => Eval.array run body) Knowledge.has := by
  have hbody : ∀ n ∈ body.items, D.node n := fun n hm => hD.operand hn hm
  unfold Eval.array
  cases hgenerator : body.block? with
  | none =>
      exact .bind (mapValues fun _ n _ hn => .node (hbody n hn)) fun K' _ _ hitems =>
        .pure (K'.array_iff.2 hitems)
  | some generator =>
      refine .bind (seeds hD hbody fun _ hv => absurd hv List.not_mem_nil)
        fun _ result _ hseeds => ?_
      exact .makeSequence hseeds (hD.generator hn hgenerator)

/-- The evaluation of a node is honest. -/
theorem eval (hD : D.Closed) {n : Node} (hn : D.node n)
    (hwide : D.wide → wide := by first | exact id | exact fun _ => trivial) :
    Honest D K (fun run => Eval.node run n) Knowledge.has := by
  cases n with
  | text s quote _ => exact text s quote
  | numeral s position => exact numeral s position
  | var name position => exact .readVariable name position
  | call name args position =>
      refine call position (fun arg harg => hD.operand hn harg) (fun v hv => absurd hv (by simp)) ?_
      rw [Option.toList_none, List.length_nil, Nat.zero_add]
      exact hD.call hn
  | define name params body _ =>
      exact .bind (.define (hD.function hn)) fun K' _ _ _ => .pure K'.empty
  | group body _ => exact program fun m hm => hD.operand hn hm
  | block b =>
      exact .bind (.current implicitName) fun _ _ _ hv => .block (hD.block hn List.mem_cons_self) hv
  | array body _ => exact array hD hn
  | leading op arg extra position => exact leading position hD hn
  | binary op left right extra position => exact binary position hD hn
  | trailing op arg extra position =>
      exact .bind (.node (hD.operand hn List.mem_cons_self)) fun _ _ _ hv =>
        applyTrailing position op extra hv fun hextra => hwide (hD.wide hn hextra)
  | hook h position => exact hook position h

end Honest

end Terse
