import Terse.Proofs.Honest
import Terse.Proofs.Runs

/-!
# Operators on values do not look at the scope

An operator that needs only the values of its operands may ask sequences for elements, but their
generators run in scopes of their own.  So it gives the same result in every scope, and leaves the
scope as it is.  `ScopeFree` says this of a computation; there is one lemma for each function that
the operators are made of.

The property is closed under `bind`, so most of these lemmas follow the text of the function.  Two
kinds of lemmas need an argument:

* `generate` says that the machine in which a generator starts does not depend on the scope in which
  the element is asked for;
* loops and conversions go by induction on what bounds them, the number of elements that are left or
  the depth of the value.

`applyBinary` puts them together.  Operators that share a definition, such as the arithmetic ones,
share the fact that it does not look at the scope.
-/

namespace Terse

namespace Eval

/-- The end of a run, with another scope. -/
def rescope {α : Type} (scope : Scope) :
    EStateM.Result Halt Machine α → EStateM.Result Halt Machine α
  | .ok a M => .ok a { M with scope := scope }
  | .error halt M => .error halt { M with scope := scope }

end Eval

/-- A computation that does not look at the scope and leaves it as it is. -/
def ScopeFree {α : Type} (x : Eval α) : Prop :=
  ∀ (settings : Settings) (M : Machine) (scope : Scope),
    x settings { M with scope := scope } = Eval.rescope scope (x settings M)

namespace ScopeFree

variable {α β : Type} {run : Evaluator}

theorem pure (a : α) : ScopeFree (Pure.pure a : Eval α) := fun _ _ _ => rfl

theorem fail (error : EvalError) : ScopeFree (Eval.fail error : Eval α) := fun _ _ _ => rfl

theorem exhaust : ScopeFree (Eval.exhaust : Eval α) := fun _ _ _ => rfl

theorem settings : ScopeFree (read : Eval Settings) := fun _ _ _ => rfl

theorem bind {x : Eval α} {f : α → Eval β} (hx : ScopeFree x) (hf : ∀ a, ScopeFree (f a)) :
    ScopeFree (x >>= f) := by
  intro settings M scope
  have hrun := hx settings M scope
  cases hfirst : x settings M with
  | ok a M' =>
      rw [hfirst] at hrun
      rw [Eval.bind_ok hrun, Eval.bind_ok hfirst]
      exact hf a settings M' scope
  | error halt M' =>
      rw [hfirst] at hrun
      rw [Eval.bind_error hrun, Eval.bind_error hfirst]
      rfl

/-! ## Elements -/

theorem progress (s : Sequence) : ScopeFree (Eval.progress s) := fun _ _ _ => rfl

/-- The generator runs in a scope of the sequence, wherever the element is asked for. -/
theorem generate (s : Sequence) : ScopeFree (Eval.generate run s) := by
  refine bind (progress s) fun p => bind ?_ fun v => fun _ _ _ => rfl
  intro settings M scope
  -- The scope is replaced on entering, and restored on leaving.
  have hsame : Machine.enter { M with scope := scope } s p.elements = M.enter s p.elements := rfl
  simp only [Eval.producing, hsame]
  cases Eval.program run s.generator.body settings (M.enter s p.elements) <;> rfl

theorem fill (s : Sequence) (index count : Nat) : ScopeFree (Eval.fill run s index count) := by
  induction count with
  | zero => exact pure ()
  | succ count ih =>
      refine bind (progress s) fun p => ?_
      split
      · exact bind (generate s) fun _ => ih
      · exact pure ()

theorem elementAt (s : Sequence) (index : Nat) : ScopeFree (Eval.elementAt run s index) := by
  unfold Eval.elementAt
  split
  · exact pure none
  · refine bind (progress s) fun _ => bind (fill s index _) fun _ => ?_
    exact bind (progress s) fun _ => pure _

theorem walk {σ : Type} (s : Sequence) {visit : σ → Value → Eval (Bool × σ)}
    (hvisit : ∀ state v, ScopeFree (visit state v)) (count index : Nat) (state : σ) :
    ScopeFree (Eval.walk run s visit count index state) := by
  induction count generalizing index state with
  | zero => exact pure state
  | succ count ih =>
      refine bind (elementAt s index) fun element => ?_
      cases element with
      | none => exact pure state
      | some v =>
          refine bind (hvisit state v) fun result => ?_
          obtain ⟨more, state'⟩ := result
          cases more with
          | false => exact pure state'
          | true => exact ih (index + 1) state'

theorem requireLength (s : Sequence) (action : WholeAction) (position : Position) :
    ScopeFree (Eval.requireLength s action position) := by
  unfold Eval.requireLength
  cases s.length with
  | some length => exact pure length
  | none => exact fail _

theorem allElements (s : Sequence) (position : Position) :
    ScopeFree (Eval.allElements run s position) :=
  bind (requireLength s .materialize position) fun count =>
    bind (walk s (fun _ _ => pure _) count 0 []) fun _ => pure _

theorem joinElements (s : Sequence) (separator : String) (position : Position)
    {toText : Value → Eval String} (htext : ∀ v, ScopeFree (toText v)) :
    ScopeFree (Eval.joinElements run s separator position toText) := by
  refine bind (requireLength s .join position) fun count => ?_
  refine bind (walk s (fun _ v => ?_) count 0 []) fun _ => pure _
  exact bind (htext v) fun _ => pure _

/-! ## Conversions -/

theorem ofArithmetic (result : Except Decimal.Fault α) (position : Position) :
    ScopeFree (Eval.ofArithmetic result position) := by
  cases result with
  | ok value => exact pure value
  | error cause => exact fail _

theorem ofConversion (result : Except Decimal.Misfit α) (position : Position) :
    ScopeFree (Eval.ofConversion result position) := by
  cases result with
  | ok value => exact pure value
  | error cause => exact fail _

theorem number (d : Decimal) (position : Position) : ScopeFree (Eval.number d position) :=
  bind settings fun _ => bind (ofArithmetic _ position) fun _ => pure _

theorem numberWithin (position : Position) (depth : Nat) (v : Value) :
    ScopeFree (Eval.numberWithin run position depth v) := by
  -- A text is read as a number at every depth.
  have htext : ∀ (depth : Nat) (s : String),
      ScopeFree (Eval.numberWithin run position depth (.text s)) := by
    intro depth s
    unfold Eval.numberWithin
    cases Decimal.ofText? s with
    | some n => exact pure n
    | none => exact fail _
  induction depth generalizing v with
  | zero =>
      cases v with
      | number n => exact pure n
      | text s => exact htext 0 s
      | array items =>
          cases items with
          | nil => exact fail _
          | cons first rest => exact exhaust
      | sequence s => exact exhaust
  | succ depth ih =>
      cases v with
      | number n => exact pure n
      | text s => exact htext (depth + 1) s
      | array items =>
          cases items with
          | nil => exact fail _
          | cons first rest => exact ih first
      | sequence s =>
          refine bind (elementAt s 0) fun element => ?_
          cases element with
          | none => exact fail _
          | some first => exact ih first

theorem toNumber (v : Value) (position : Position) : ScopeFree (Eval.toNumber run v position) :=
  bind settings fun _ => numberWithin position _ v

theorem textWithin (depth : Nat) (v : Value) : ScopeFree (Eval.textWithin run depth v) := by
  induction depth generalizing v with
  | zero =>
      cases v with
      | number n => exact pure _
      | text s => exact pure s
      | array items =>
          cases items with
          | nil => exact pure ""
          | cons first rest => exact exhaust
      | sequence s => exact exhaust
  | succ depth ih =>
      cases v with
      | number n => exact pure _
      | text s => exact pure s
      | array items =>
          cases items with
          | nil => exact pure ""
          | cons first rest => exact ih first
      | sequence s =>
          refine bind (elementAt s 0) fun element => ?_
          cases element with
          | none => exact pure ""
          | some first => exact ih first

theorem toText (v : Value) : ScopeFree (Eval.toText run v) :=
  bind settings fun _ => textWithin _ v

theorem toList (v : Value) (position : Position) : ScopeFree (Eval.toList run v position) := by
  cases v with
  | sequence s => exact allElements s position
  | array items => exact pure items
  | text s => exact pure _
  | number n => exact pure _

theorem settle (v : Value) (position : Position) : ScopeFree (Eval.settle run v position) := by
  cases v with
  | sequence s =>
      simp only [Eval.settle]
      split
      · exact bind (allElements s position) fun _ => pure _
      · exact pure _
  | _ => exact pure _

theorem mapM {γ : Type} (items : List γ) {f : γ → Eval α} (hf : ∀ item, ScopeFree (f item)) :
    ScopeFree (items.mapM f) := by
  induction items with
  | nil => exact pure []
  | cons first rest ih =>
      rw [List.mapM_cons]
      exact bind (hf first) fun _ => bind ih fun _ => pure _

theorem foldlM {γ : Type} (items : List γ) {f : α → γ → Eval α}
    (hf : ∀ a item, ScopeFree (f a item)) (a : α) : ScopeFree (items.foldlM f a) := by
  induction items generalizing a with
  | nil => exact pure a
  | cons first rest ih =>
      rw [List.foldlM_cons]
      exact bind (hf a first) ih

/-! ## Operators -/

theorem index (v w : Value) (position : Position) : ScopeFree (Eval.index run v w position) := by
  refine bind (toNumber w position) fun n => bind (ofConversion _ position) fun i => ?_
  cases v with
  | sequence s =>
      refine bind ?_ fun place => ?_
      · unfold Eval.sequencePlace
        split
        · exact bind (requireLength s _ position) fun _ => pure _
        · exact pure _
      · cases place with
        | none => exact pure _
        | some place => exact bind (elementAt s place) fun _ => pure _
  | _ => exact bind (toList _ position) fun _ => pure _

theorem join (v : Value) (separator : String) (position : Position) :
    ScopeFree (Eval.join run v separator position) := by
  cases v with
  | sequence s => exact bind (joinElements s separator position toText) fun _ => pure _
  | _ => exact bind (toList _ position) fun _ => bind (mapM _ toText) fun _ => pure _

theorem range (start stop : Decimal) (closed : Bool) (position : Position) :
    ScopeFree (Eval.range start stop closed position) := by
  have hfrom : ∀ (count : Nat) (current : Decimal) (made : List Value),
      ScopeFree (Eval.rangeFrom stop closed position count current made) := by
    intro count
    induction count with
    | zero => exact fun _ _ => pure _
    | succ count ih =>
        intro current made
        unfold Eval.rangeFrom
        simp only
        split
        · exact bind (number current position) fun _ => ih _ _
        · exact pure _
  exact bind (hfrom _ start []) fun _ => pure _

/-- Two numbers, and what follows from them. -/
theorem withNumbers {f : Decimal → Decimal → Eval α} (v w : Value) (position : Position)
    (hf : ∀ a b, ScopeFree (f a b)) :
    ScopeFree (Eval.toNumber run v position >>= fun a =>
      Eval.toNumber run w position >>= fun b => f a b) :=
  bind (toNumber v position) fun a => bind (toNumber w position) fun b => hf a b

/-- Two texts, and what follows from them. -/
theorem withTexts {f : String → String → Eval α} (v w : Value) (hf : ∀ a b, ScopeFree (f a b)) :
    ScopeFree (Eval.toText run v >>= fun a => Eval.toText run w >>= fun b => f a b) :=
  bind (toText v) fun a => bind (toText w) fun b => hf a b

theorem applyBinary (op : BinaryOp) (v w : Value) (position : Position) :
    ScopeFree (Eval.applyBinary run op v w position) := by
  have harithmetic : ScopeFree (Eval.toNumber run v position >>= fun a =>
      Eval.toNumber run w position >>= fun b => read >>= fun settings =>
        Eval.ofArithmetic (Eval.arithmetic op a b settings.precision) position >>= fun d =>
          Eval.number d position) :=
    withNumbers v w position fun _ _ => bind settings fun _ =>
      bind (ofArithmetic _ position) fun _ => number _ position
  have hequal : ScopeFree (Eval.settle run v position >>= fun a =>
      Eval.settle run w position >>= fun b =>
        Pure.pure (Value.ofBool (a.looseEq b == (op == .equal)))) :=
    bind (settle v position) fun _ => bind (settle w position) fun _ => pure _
  have hordered : ScopeFree (Eval.toNumber run v position >>= fun a =>
      Eval.toNumber run w position >>= fun b =>
        Pure.pure (Value.ofBool (Eval.ordered op (a.compare b)))) :=
    withNumbers v w position fun _ _ => pure _
  cases op with
  | power =>
      cases v with
      | text text =>
          exact bind (toNumber w position) fun _ => bind (ofConversion _ position) fun _ => pure _
      | _ => exact harithmetic
  | multiply | divide | modulo | add | subtract => exact harithmetic
  | join => exact bind (toText w) fun _ => join v _ position
  | split | concat => exact withTexts v w fun _ _ => pure _
  | range | closedRange => exact withNumbers v w position fun _ _ => range _ _ _ position
  | index => exact index v w position
  | indexOf | contains => exact bind (toList v position) fun _ => pure _
  | equal | notEqual => exact hequal
  | less | lessEqual | greater | greaterEqual => exact hordered
  | assign | remove | and | or | call | zip => exact fail _

end ScopeFree

end Terse
