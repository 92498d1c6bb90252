import Terse.Evaluation.Node

/-!
# How the basic steps run

Equations for the steps of evaluation that look into the machine, with settings and machine given.
Later proofs use these instead of opening the definitions, so that a change to how a step is written
is a change to its equation only.

* A run ends with a result or with the reason for having none, and in both cases with a machine.
  `final` is that machine and `outcome` is the rest; statements about what is left behind hold of
  `final`, whether or not the run succeeded.
* A block, a combinator and a function body run in an inner scope, all with `inChild`.  If the run
  succeeds, the outer scope takes over what was changed, and if it fails, the outer scope is as it
  was.
* Elements of a sequence are produced by `generate`, one at a time; `fill` repeats it until an index
  is reached.  The generator runs in a scope of its own, so the machine is at the same place of the
  program afterwards (`SamePlace`): only the store and the output have changed.
-/

namespace Terse.Eval

variable {α β : Type} {settings : Settings} {M M' : Machine} {run : Evaluator}

theorem bind_ok {x : Eval α} {f : α → Eval β} {a : α} (hrun : x settings M = .ok a M') :
    (x >>= f) settings M = f a settings M' := by
  simp only [Bind.bind, ReaderT.bind, EStateM.bind, hrun]

theorem bind_error {x : Eval α} {f : α → Eval β} {halt : Halt}
    (hrun : x settings M = .error halt M') : (x >>= f) settings M = .error halt M' := by
  simp only [Bind.bind, ReaderT.bind, EStateM.bind, hrun]

/-- The machine that a run ends in, whether it succeeds or fails. -/
def final (x : Eval α) (settings : Settings) (M : Machine) : Machine :=
  match x settings M with
  | .ok _ M' => M'
  | .error _ M' => M'

theorem final_ok {x : Eval α} {a : α} (hrun : x settings M = .ok a M') :
    final x settings M = M' := by
  rw [final, hrun]

theorem final_error {x : Eval α} {halt : Halt} (hrun : x settings M = .error halt M') :
    final x settings M = M' := by
  rw [final, hrun]

theorem final_bind_ok {x : Eval α} {f : α → Eval β} {a : α} (hrun : x settings M = .ok a M') :
    final (x >>= f) settings M = final (f a) settings M' := by
  rw [final, bind_ok hrun, final]

theorem final_bind_error {x : Eval α} {f : α → Eval β} {halt : Halt}
    (hrun : x settings M = .error halt M') : final (x >>= f) settings M = M' :=
  final_error (bind_error hrun)

/-- What a run gives: a result, or the reason for having none. -/
def outcome (x : Eval α) (settings : Settings) (M : Machine) : Except Halt α :=
  match x settings M with
  | .ok a _ => .ok a
  | .error halt _ => .error halt

/-! ## Variables, functions and output -/

/-- A result of arithmetic is rounded, and refused if it is beyond the exponent range. -/
theorem number_eq (d : Decimal) (position : Position) :
    number d position settings M =
      ofArithmetic ((d.round settings.precision).bounded.map .number) position settings M := by
  show (ofArithmetic (d.round settings.precision).bounded position >>= fun n =>
    pure (Value.number n)) settings M = _
  cases (d.round settings.precision).bounded with
  | ok n => rfl
  | error fault => rfl

theorem readVariable_ok {name : String} {position : Position} {v : Value} {lookback : Lookback}
    (hget : M.scope.get? M.lookback name = some (v, lookback)) :
    readVariable name position settings M = .ok v { M with lookback := lookback } := by
  rw [readVariable, bind_ok (a := M) rfl]
  simp only [hget]
  rfl

theorem readVariable_error {name : String} {position : Position}
    (hget : M.scope.get? M.lookback name = none) :
    readVariable name position settings M = .error (.fault (.unbound .var name position)) M := by
  rw [readVariable, bind_ok (a := M) rfl]
  simp only [hget]
  rfl

/-- A variable that is read was bound, or was the newest unread element. -/
theorem get?_cases {scope : Scope} {lookback lookback' : Lookback} {name : String} {v : Value}
    (h : scope.get? lookback name = some (v, lookback')) :
    lookback'.history = lookback.history ∧
      (scope.lookup name = some v ∨ v ∈ lookback.history) := by
  have hbound : (scope.lookup name).map (·, lookback) = some (v, lookback') →
      lookback'.history = lookback.history ∧
        (scope.lookup name = some v ∨ v ∈ lookback.history) := by
    intro hbound
    obtain ⟨w, hw, heq⟩ := Option.map_eq_some_iff.1 hbound
    obtain ⟨rfl, rfl⟩ := Prod.mk.inj heq
    exact ⟨rfl, .inl hw⟩
  -- The parameter of a generator gives the newest unread element, as long as there is one.
  simp only [Scope.get?] at h
  split at h
  · rcases Option.or_eq_some_iff.1 h with hnext | ⟨-, hbound'⟩
    · simp only [Lookback.next?] at hnext
      split at hnext
      · cases hnext
      · obtain ⟨w, hw, heq⟩ := Option.map_eq_some_iff.1 hnext
        obtain ⟨rfl, rfl⟩ := Prod.mk.inj heq
        exact ⟨rfl, .inr (Array.mem_of_getElem? hw)⟩
    · exact hbound hbound'
  · exact hbound h

theorem current_eq (name : String) :
    current name settings M = .ok ((M.scope.lookup name).getD .empty) M := rfl

theorem assign_eq (name : String) (v : Value) :
    assign name v settings M = .ok () { M with scope := M.scope.set name v } := rfl

theorem define_eq (name : String) (function : Function) :
    define name function settings M = .ok () { M with scope := M.scope.define name function } :=
  rfl

/-- An output without a limit stays so, and takes everything. -/
theorem room_write (output : Output) (text : String) :
    ((output.write text).1.room = none ↔ output.room = none) ∧
      (output.room = none → (output.write text).2 = true) := by
  unfold Output.write
  cases hroom : output.room with
  | none => simp
  | some room => simp

/-- A line is written, or refused by an output that has a limit. -/
theorem writeLine_cases (settings : Settings) (M : Machine) (text : String) :
    ∃ output : Output, (output.room = none ↔ M.output.room = none) ∧
      (writeLine text settings M = .ok () { M with output := output } ∨
        M.output.room ≠ none ∧ writeLine text settings M =
          .error (.fault (.output Output.refusal)) { M with output := output }) := by
  obtain ⟨hroom, hcomplete⟩ := room_write M.output (text ++ "\n")
  refine ⟨(M.output.write (text ++ "\n")).1, hroom, ?_⟩
  rw [writeLine, bind_ok (a := M) rfl]
  cases hwritten : M.output.write (text ++ "\n") with
  | mk output complete =>
      cases complete with
      | true => exact .inl rfl
      | false =>
          refine .inr ⟨fun hnone => ?_, rfl⟩
          rw [hwritten] at hcomplete
          exact absurd (hcomplete hnone) (by simp)

/-- An output without a limit takes the whole line. -/
theorem writeLine_ok (hroom : M.output.room = none) (text : String) :
    writeLine text settings M =
      .ok () { M with output := ⟨M.output.written ++ (text ++ "\n"), none⟩ } := by
  have hwritten : M.output.write (text ++ "\n") =
      (⟨M.output.written ++ (text ++ "\n"), none⟩, true) := by
    rw [Output.write, hroom]
  rw [writeLine, bind_ok (a := M) rfl, hwritten]
  rfl

/-! ## Inner scopes -/

theorem inChild_ok {inner : Scope} {excluded : List String} {step : Eval α} {a : α}
    (hrun : step settings { M with scope := inner } = .ok a M') :
    inChild inner excluded step settings M =
      .ok a { M' with scope := M.scope.merge M'.scope excluded } := by
  simp only [inChild, hrun]

theorem inChild_error {inner : Scope} {excluded : List String} {step : Eval α} {halt : Halt}
    (hrun : step settings { M with scope := inner } = .error halt M') :
    inChild inner excluded step settings M = .error halt { M' with scope := M.scope } := by
  simp only [inChild, hrun]

/-- The outer scope takes over what a step in an inner scope changed, or stays as it was. -/
theorem scope_final_inChild (settings : Settings) (M : Machine) (inner : Scope)
    (excluded : List String) (step : Eval α) :
    (final (inChild inner excluded step) settings M).scope = M.scope ∨
      (final (inChild inner excluded step) settings M).scope =
        M.scope.merge (final step settings { M with scope := inner }).scope excluded := by
  cases hrun : step settings { M with scope := inner } with
  | ok a M' =>
      rw [final_ok (inChild_ok hrun), final_ok hrun]
      exact .inr rfl
  | error halt M' =>
      rw [final_error (inChild_error hrun)]
      exact .inl rfl

theorem applyBlock_eq (b : Block) (v : Value) :
    applyBlock run b v settings M =
      inChild (M.scope.set b.param v) [b.param] (program run b.body) settings M := rfl

theorem applyCombinator_eq (c : Combinator) (v w : Value) :
    applyCombinator run c v w settings M =
      inChild ((M.scope.set leftName v).set rightName w) [leftName, rightName] (run c.expr)
        settings M := rfl

theorem invoke_eq (run : Evaluator) (settings : Settings) (M : Machine) (name : String)
    (values : List Value) (position : Position) :
    invoke run name values position settings M =
      match M.scope.function? name with
      | none => .error (.fault (.unbound .function name position)) M
      | some function =>
        if function.params.length = values.length then
          inChild (M.scope.setAll (function.params.zip values)) function.params
            (run function.body) settings M
        else
          .error (.fault (.arity name function.params.length values.length position)) M := by
  rw [invoke, bind_ok (a := M.scope) rfl]
  cases M.scope.function? name with
  | none => rfl
  | some function =>
      simp only
      split
      · rfl
      · rfl

/-- A call leaves the scope as it is, or runs the body of the function in an inner scope. -/
theorem scope_final_invoke (run : Evaluator) (settings : Settings) (M : Machine) (name : String)
    (values : List Value) (position : Position) :
    (final (invoke run name values position) settings M).scope = M.scope ∨
      ∃ function, M.scope.function? name = some function ∧
        final (invoke run name values position) settings M =
          final (inChild (M.scope.setAll (function.params.zip values)) function.params
            (run function.body)) settings M := by
  rw [final, invoke_eq]
  cases hfunction : M.scope.function? name with
  | none => exact .inl rfl
  | some function =>
      by_cases harity : function.params.length = values.length
      · simp only [harity, if_true]
        exact .inr ⟨function, rfl, rfl⟩
      · simp only [harity, if_false]
        exact .inl trivial

/-! ## Sequences -/

theorem makeSequence_eq (seeds : List Value) (generator : Block) (length : Option Nat) :
    makeSequence seeds generator length settings M =
      let s : Sequence := ⟨M.site.label, seeds, generator, length, M.scope⟩
      .ok (.sequence s) { M with store := M.store.add s, site := M.site.next } := rfl

/-- A run of the generator that succeeds. -/
theorem generate_ok {s : Sequence} {v : Value}
    (hrun : program run s.generator.body settings (M.enter s (M.store.progress s).elements) =
      .ok v M') :
    generate run s settings M = .ok () (M.reenter (M'.store.push s.label v) M'.output) := by
  have hproducing : producing s (M.store.progress s).elements (program run s.generator.body)
      settings M = .ok v (M.reenter M'.store M'.output) := by
    simp only [producing, hrun]
  rw [generate, bind_ok (a := M.store.progress s) rfl, bind_ok hproducing]
  rfl

/-- A run of the generator that fails. -/
theorem generate_error {s : Sequence} {halt : Halt}
    (hrun : program run s.generator.body settings (M.enter s (M.store.progress s).elements) =
      .error halt M') :
    generate run s settings M = .error halt (M.reenter
      (M'.store.discard (s.label ++ [(M.store.progress s).elements.size])) M'.output) := by
  have hproducing : producing s (M.store.progress s).elements (program run s.generator.body)
      settings M = .error halt (M.reenter
        (M'.store.discard (s.label ++ [(M.store.progress s).elements.size])) M'.output) := by
    simp only [producing, hrun]
    rfl
  rw [generate, bind_ok (a := M.store.progress s) rfl, bind_error hproducing]

/-- Where producing an element fails, the generator fails. -/
theorem program_of_generate_error {s : Sequence} {halt : Halt}
    (hgenerate : generate run s settings M = .error halt M') :
    ∃ F, program run s.generator.body settings (M.enter s (M.store.progress s).elements) =
      .error halt F := by
  cases hrun : program run s.generator.body settings (M.enter s (M.store.progress s).elements) with
  | ok v F => simp [generate_ok hrun] at hgenerate
  | error halt' F =>
      rw [generate_error hrun] at hgenerate
      obtain ⟨rfl, -⟩ := EStateM.Result.error.inj hgenerate
      exact ⟨F, rfl⟩

theorem fill_done {s : Sequence} {index : Nat} (count : Nat)
    (hsize : index < (M.store.progress s).elements.size) :
    fill run s index count settings M = .ok () M := by
  cases count with
  | zero => rfl
  | succ count =>
      rw [fill, bind_ok (a := M.store.progress s) rfl, if_neg (Nat.not_le.2 hsize)]
      rfl

theorem fill_succ {s : Sequence} {index : Nat} (count : Nat)
    (hsize : (M.store.progress s).elements.size ≤ index) :
    fill run s index (count + 1) settings M =
      (generate run s >>= fun _ => fill run s index count) settings M := by
  rw [fill, bind_ok (a := M.store.progress s) rfl, if_pos hsize]

/-- From the length on there are no elements. -/
theorem elementAt_of_length_le {s : Sequence} {index : Nat}
    (hlength : s.length.any (· ≤ index) = true) :
    elementAt run s index settings M = .ok none M := by
  rw [elementAt, if_pos hlength]
  rfl

theorem elementAt_of_fill_ok {s : Sequence} {index : Nat}
    (hlength : ¬ s.length.any (· ≤ index) = true)
    (hfill : fill run s index (index + 1 - (M.store.progress s).elements.size) settings M =
      .ok () M') :
    elementAt run s index settings M = .ok (M'.store.progress s).elements[index]? M' := by
  rw [elementAt, if_neg hlength, bind_ok (a := M.store.progress s) rfl, bind_ok hfill]
  rfl

theorem elementAt_of_fill_error {s : Sequence} {index : Nat} {halt : Halt}
    (hlength : ¬ s.length.any (· ≤ index) = true)
    (hfill : fill run s index (index + 1 - (M.store.progress s).elements.size) settings M =
      .error halt M') :
    elementAt run s index settings M = .error halt M' := by
  rw [elementAt, if_neg hlength, bind_ok (a := M.store.progress s) rfl, bind_error hfill]

/-- An index that is not beyond the length is within it. -/
theorem lt_length {length : Option Nat} {index : Nat} (h : ¬ length.any (· ≤ index) = true) :
    ∀ n, length = some n → index < n := by
  rintro n rfl
  simpa using h

/-- An element that is there is given without a run of the generator. -/
theorem elementAt_of_getElem? {s : Sequence} {index : Nat} {v : Value}
    (hlength : ¬ s.length.any (· ≤ index) = true)
    (hv : (M.store.progress s).elements[index]? = some v) :
    elementAt run s index settings M = .ok (some v) M := by
  have hsize := (Array.getElem?_eq_some_iff.1 hv).1
  rw [elementAt_of_fill_ok hlength (fill_done _ hsize), hv]

/-! ### The place in the program

Asking for elements runs generators, but in scopes of their own. -/

/-- Two machines are at the same place of a program: they have the same scope, the same history to
read back, and make sequences with the same labels. -/
structure SamePlace (M M' : Machine) : Prop where
  scope : M'.scope = M.scope
  lookback : M'.lookback = M.lookback
  site : M'.site = M.site

theorem SamePlace.refl (M : Machine) : SamePlace M M := ⟨rfl, rfl, rfl⟩

theorem SamePlace.trans {M M' M'' : Machine} (h : SamePlace M M') (h' : SamePlace M' M'') :
    SamePlace M M'' :=
  ⟨h'.scope.trans h.scope, h'.lookback.trans h.lookback, h'.site.trans h.site⟩

theorem generate_samePlace (run : Evaluator) (settings : Settings) (M : Machine) (s : Sequence) :
    SamePlace M (final (generate run s) settings M) := by
  cases hrun : program run s.generator.body settings (M.enter s (M.store.progress s).elements) with
  | ok v F =>
      rw [final_ok (generate_ok hrun)]
      exact ⟨rfl, rfl, rfl⟩
  | error halt F =>
      rw [final_error (generate_error hrun)]
      exact ⟨rfl, rfl, rfl⟩

theorem fill_samePlace (run : Evaluator) (settings : Settings) (M : Machine) (s : Sequence)
    (index count : Nat) :
    SamePlace M (final (fill run s index count) settings M) := by
  -- By induction on the elements that may still be produced.
  induction count generalizing M with
  | zero => exact .refl M
  | succ count ih =>
      by_cases hsize : index < (M.store.progress s).elements.size
      · rw [final_ok (fill_done _ hsize)]
        exact .refl M
      have hstep := generate_samePlace run settings M s
      rw [final, fill_succ count (Nat.le_of_not_lt hsize)]
      cases hgenerate : generate run s settings M with
      | ok _ M' =>
          rw [final_ok hgenerate] at hstep
          rw [bind_ok hgenerate]
          exact hstep.trans (ih M')
      | error halt M' =>
          rw [final_error hgenerate] at hstep
          rw [bind_error hgenerate]
          exact hstep

theorem elementAt_samePlace (run : Evaluator) (settings : Settings) (M : Machine) (s : Sequence)
    (index : Nat) :
    SamePlace M (final (elementAt run s index) settings M) := by
  by_cases hlength : s.length.any (· ≤ index) = true
  · rw [final_ok (elementAt_of_length_le hlength)]
    exact .refl M
  have hsteps := fill_samePlace run settings M s index
    (index + 1 - (M.store.progress s).elements.size)
  cases hfill : fill run s index (index + 1 - (M.store.progress s).elements.size) settings M with
  | ok _ M' =>
      rw [final_ok hfill] at hsteps
      rw [final_ok (elementAt_of_fill_ok hlength hfill)]
      exact hsteps
  | error halt M' =>
      rw [final_error hfill] at hsteps
      rw [final_error (elementAt_of_fill_error hlength hfill)]
      exact hsteps

end Terse.Eval

/-! ## A blank machine -/

namespace Terse

/-- Settings that are enough for a small program. -/
def Settings.small : Settings := ⟨25, .empty, Dictionary.ofText "", 8⟩

/-- The machine that has not run anything. -/
def Machine.blank : Machine := ⟨.empty, [], .empty, .root, .unlimited⟩

end Terse
