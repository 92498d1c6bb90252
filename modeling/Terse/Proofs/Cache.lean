import Terse.Proofs.Reached

/-!
# What a sequence keeps

The elements of a sequence are kept when they have been produced.  `SequenceCall` lists what can be
asked of a sequence; the closures that some calls take may do whatever a program can do, in
particular ask this or another sequence for elements.  `Calls` is a series of calls, each of which
may succeed or fail.

The last theorem collects what holds along every series: elements are only appended, the generator
ran once for each element behind the first ones, the length bounds what is kept, an element that was
given is given again without a run of the generator, and a run that fails changes nothing.

## Strategy

A call is a computation of a client that holds the sequence (`SequenceCall.client`), so it leads
from a reached machine to a reached machine that has grown (`Reached.call`), whether or not it
succeeds.  This is the step, and `Reached.calls` the run.  Everything else is read off a reached
machine and a later one.

* That elements are only appended is what it means for a machine to grow.
* That runs of the generator are counted is part of a sound store (`Progress.Coherent`).
* An element that was given is kept (`Reached.kept_of_elementAt`), and what is kept is given without
  a run (`Producing.elementAt_later`).

A closure is lawful if it is an honest computation.  What a closure of `forEach` puts aside from one
visit to the next is of any type; `Lawful` asks for a property of it that says what it holds.
-/

namespace Terse

/-- A call of an operation of a sequence. -/
inductive SequenceCall : Type 1 where
  /-- Asks for the element at an index. -/
  | at (index : Nat)
  /-- Visits elements in order, while the closure asks for more. -/
  | forEach {σ : Type} (visit : Evaluator → σ → Value → Eval (Bool × σ)) (count : Nat) (state : σ)
  /-- Asks for the first elements. -/
  | take (count : Nat)
  /-- Asks for all elements. -/
  | toList (position : Position)
  /-- Passes all elements through a closure. -/
  | map (position : Position) (step : Evaluator → Value → Eval Value)
  /-- Asks for the elements that a closure keeps. -/
  | filter (position : Position) (keep : Evaluator → Value → Eval Bool)
  /-- Joins the texts of all elements. -/
  | join (position : Position) (separator : String)

namespace SequenceCall

/-- Runs a call and forgets its result. -/
def perform (call : SequenceCall) (run : Evaluator) (s : Sequence) : Eval Unit :=
  match call with
  | .at index => Eval.elementAt run s index >>= fun _ => pure ()
  | .forEach visit count state => Eval.walk run s (visit run) count 0 state >>= fun _ => pure ()
  | .take count => Eval.takeElements run s count >>= fun _ => pure ()
  | .toList position => Eval.allElements run s position >>= fun _ => pure ()
  | .map position step => Eval.mapElements run s position (step run) >>= fun _ => pure ()
  | .filter position keep => Eval.filterElements run s position (keep run) >>= fun _ => pure ()
  | .join position separator =>
    Eval.joinElements run s separator position (Eval.toText run) >>= fun _ => pure ()

/-- The closure of a call is honest.  It may use the values that are held, the elements that it is
given, and what it put aside in earlier visits. -/
def Lawful (held : List Value) : SequenceCall → Prop
  | .forEach visit _ state =>
    ∃ I : Knowledge → _ → Prop, (∀ K K' state, K ≤ K' → I K state → I K' state) ∧
      (∀ K : Knowledge, K.all held → I K state) ∧
      ∀ (K : Knowledge) state v, K.all held → I K state → K.has v →
        Honest .free K (fun run => visit run state v) fun K' result => I K' result.2
  | .map _ step => ∀ (K : Knowledge) v, K.all held → K.has v →
      Honest .free K (fun run => step run v) Knowledge.has
  | .filter _ keep => ∀ (K : Knowledge) v, K.all held → K.has v →
      Honest .free K (fun run => keep run v) fun _ _ => True
  | .at _ | .take _ | .toList _ | .join _ _ => True

/-- A call with an honest closure is honest. -/
theorem client {held : List Value} {s : Sequence} {call : SequenceCall} (hcall : call.Lawful held)
    (hs : Obtainable held (.sequence s)) :
    Client held (fun run => call.perform run s) fun _ _ => True := by
  intro K hheld
  have hs := hs K hheld
  cases call with
  | «at» index => exact .bind (.element index hs) fun _ _ _ _ => .pure trivial
  | forEach visit count state =>
      obtain ⟨I, hmono, hstart, hvisit⟩ := hcall
      refine .bind (Honest.walk (I := I) hmono (fun K' state v h hstate hv => ?_) hs
        (hstart K hheld)) fun _ _ _ _ => .pure trivial
      exact hvisit K' state v (Knowledge.all_mono h hheld) hstate hv
  | take count => exact .bind (Honest.takeElements hs count) fun _ _ _ _ => .pure trivial
  | toList position => exact .bind (Honest.allElements position hs) fun _ _ _ _ => .pure trivial
  | map position step =>
      refine .bind (Honest.mapElements position hs fun K' v h hv => ?_) fun _ _ _ _ => .pure trivial
      exact hcall K' v (Knowledge.all_mono h hheld) hv
  | filter position keep =>
      refine .bind (Honest.filterElements position hs fun K' v h hv => ?_) fun _ _ _ _ =>
        .pure trivial
      exact hcall K' v (Knowledge.all_mono h hheld) hv
  | join position separator =>
      exact .bind (Honest.joinElements position separator hs fun _ _ _ => Honest.toText)
        fun _ _ _ _ => .pure trivial

end SequenceCall

/-- A series of calls on a sequence leads from one machine to another. -/
inductive Calls (settings : Settings) (held : List Value) (s : Sequence) :
    Machine → Machine → Prop where
  | done (M : Machine) : Calls settings held s M M
  | call (call : SequenceCall) (d : Nat) {M M' : Machine} (hcall : call.Lawful held)
      (hrest : Calls settings held s (Eval.final (call.perform (Eval.nested d) s) settings M) M') :
      Calls settings held s M M'

section

variable {settings : Settings} {held : List Value} {M M' : Machine} {s : Sequence}

/-- One call leads to a reached machine that has grown. -/
theorem Reached.call (h : Reached settings held M) (hs : Obtainable held (.sequence s))
    {call : SequenceCall} (hcall : call.Lawful held) (d : Nat) :
    Reached settings held (Eval.final (call.perform (Eval.nested d) s) settings M) ∧
      Grows M (Eval.final (call.perform (Eval.nested d) s) settings M) := by
  obtain ⟨hinput, hM, hheld⟩ := h.sound
  have hpreserves := (SequenceCall.client hcall hs).preserves hinput hM hheld d
  -- The machine is reached with a success and with a failure alike.
  cases hrun : call.perform (Eval.nested d) s settings M with
  | ok a N =>
      rw [Eval.final_ok hrun]
      exact ⟨.step h (SequenceCall.client hcall hs) hrun fun _ hK _ => hK, (hpreserves.ok hrun).2.1⟩
  | error halt N =>
      rw [Eval.final_error hrun]
      exact ⟨.failure h (SequenceCall.client hcall hs) hrun, (hpreserves.error hrun).2⟩

/-- So does a series of calls. -/
theorem Reached.calls (h : Reached settings held M) (hs : Obtainable held (.sequence s))
    (hcalls : Calls settings held s M M') : Reached settings held M' ∧ Grows M M' := by
  induction hcalls with
  | done M => exact ⟨h, .refl M⟩
  | call call d hcall _ ih =>
      obtain ⟨hreached, hgrows⟩ := h.call hs hcall d
      obtain ⟨hreached', hgrows'⟩ := ih hreached
      exact ⟨hreached', hgrows.trans hgrows'⟩

/-- A sequence that is held can produce. -/
theorem Reached.producing (h : Reached settings held M) (hs : Obtainable held (.sequence s)) :
    Producing M s (M.store.progress s) := by
  obtain ⟨-, hM, hheld⟩ := h.sound
  exact hM.producing (hs M.knowledge hheld)

/-- What a grown machine keeps of a sequence extends what was kept before. -/
theorem Producing.extends_of_grows {p : Progress} (h : Producing M s p) (hgrows : Grows M M') :
    (M'.store.progress s).Extends p := by
  obtain ⟨p', hfind, hextends, -⟩ := hgrows.kept _ p h.find
  rwa [Store.progress_of_find? hfind]

theorem Producing.coherent {p : Progress} (h : Producing M s p) : p.Coherent :=
  h.sound.store.coherent _ p h.find

/-- An element that was given is kept, and is within the length. -/
theorem Reached.kept_of_elementAt (h : Reached settings held M)
    (hs : Obtainable held (.sequence s)) {d index : Nat} {v : Value}
    (hrun : Eval.elementAt (Eval.nested d) s index settings M = .ok (some v) M') :
    Reached settings held M' ∧ ¬ s.length.any (· ≤ index) = true ∧
      (M'.store.progress s).elements[index]? = some v := by
  obtain ⟨hinput, hM, hheld⟩ := h.sound
  have hcases := (nested_safe_produced hinput d).elementAt_cases hM (hs _ hheld) index
  refine ⟨.step h (client_element hs index) hrun fun _ hK _ => hK, ?_⟩
  rw [hrun] at hcases
  cases hcases with
  | found hlength _ _ hv => exact ⟨hlength, hv⟩

/-- An element that is kept is given in every later machine, which does not change. -/
theorem Producing.elementAt_later (h : Producing M s (M.store.progress s)) (hgrows : Grows M M')
    {index : Nat} {v : Value} (hlength : ¬ s.length.any (· ≤ index) = true)
    (hv : (M.store.progress s).elements[index]? = some v) (run : Evaluator) :
    Eval.elementAt run s index settings M' = .ok (some v) M' := by
  obtain ⟨rest, hrest⟩ := (h.extends_of_grows hgrows).elements
  refine Eval.elementAt_of_getElem? hlength ?_
  rw [← Array.getElem?_toList] at hv ⊢
  have hindex := (List.getElem?_eq_some_iff.1 hv).1
  rw [← hrest, List.getElem?_append_left hindex, hv]

end

/-- What holds of a sequence that a program holds, along every series of calls.  The elements are
those that were there, and possibly more behind them.  The generator has produced as many as there
are behind the first ones.  There are no more than the length admits, unless there were more first
ones.  An element that has been given is given by every later call, which leaves the machine as it
is, so that the generator does not run.  A run of the generator that fails adds no element and is
not counted. -/
theorem progress_of_calls {settings : Settings} {held : List Value} {M M' : Machine} {s : Sequence}
    (h : Reached settings held M) (hs : Obtainable held (.sequence s))
    (hcalls : Calls settings held s M M') :
    (M.store.progress s).elements.toList <+: (M'.store.progress s).elements.toList ∧
    (s.seeds.length ≤ (M'.store.progress s).elements.size ∧
      (M'.store.progress s).runs = (M'.store.progress s).elements.size - s.seeds.length) ∧
    (∀ n, s.length = some n → (M'.store.progress s).elements.size ≤ max n s.seeds.length) ∧
    (∀ d index v M₁ M₂, Eval.elementAt (Eval.nested d) s index settings M' = .ok (some v) M₁ →
      Calls settings held s M₁ M₂ → ∀ d',
        Eval.elementAt (Eval.nested d') s index settings M₂ = .ok (some v) M₂) ∧
    (∀ d halt M₁, Eval.generate (Eval.nested d) s settings M' = .error halt M₁ →
      (M₁.store.progress s).elements = (M'.store.progress s).elements ∧
        (M₁.store.progress s).runs = (M'.store.progress s).runs) := by
  obtain ⟨h', hgrows⟩ := h.calls hs hcalls
  have hproducing' := h'.producing hs
  obtain ⟨-, hsize, hbound⟩ := hproducing'.coherent
  rw [hproducing'.same] at hsize hbound
  refine ⟨((h.producing hs).extends_of_grows hgrows).elements, ⟨by omega, by omega⟩,
    hbound, fun d index v M₁ M₂ hrun hlater d' => ?_, fun d halt M₁ hrun => ?_⟩
  -- In the machine behind the request the element is kept, and so it is in all later ones.
  · obtain ⟨h₁, hlength, hv⟩ := h'.kept_of_elementAt hs hrun
    exact (h₁.producing hs).elementAt_later (h₁.calls hs hlater).2 hlength hv _
  · obtain ⟨hinput, hM', hheld⟩ := h'.sound
    rw [(nested_safe_produced hinput d).progress_generate_error hM' (hs _ hheld) hrun]
    exact ⟨rfl, rfl⟩

/-- Element 2 of the growing texts is asked for, and then all elements, which fails because there
is no length.  The generator has run twice, element 2 is given again, and a run of the generator
that exceeds its depth adds nothing. -/
theorem Growing.progress_asked :
    (made.store.progress sequence).elements.toList <+:
        (asked.store.progress sequence).elements.toList ∧
      (asked.store.progress sequence).runs = 2 ∧
      Eval.elementAt (Eval.nested 0) sequence 2 .small asked = .ok (some (.text "abb")) asked ∧
      ((Eval.final (Eval.generate (Eval.nested 0) sequence) .small asked).store.progress
        sequence).runs = 2 := by
  have hcalls : Calls .small [.sequence sequence] sequence made asked :=
    .call (.at 2) 4 trivial (.call (.toList .start) 4 trivial (.done _))
  have hs : Obtainable [.sequence sequence] (.sequence sequence) :=
    fun _ h => h _ List.mem_cons_self
  obtain ⟨hbehind, ⟨-, hruns⟩, -, hagain, hfailed⟩ := progress_of_calls reached_made hs hcalls
  have hruns : (asked.store.progress sequence).runs = 2 := hruns
  have hgiven : Eval.elementAt (Eval.nested 4) sequence 2 .small asked =
      .ok (some (.text "abb")) asked := by rfl
  have hfails : Eval.generate (Eval.nested 0) sequence .small asked = .error .exhausted
      (Eval.final (Eval.generate (Eval.nested 0) sequence) .small asked) := by rfl
  exact ⟨hbehind, hruns, hagain 4 2 _ asked asked hgiven (.done asked) 0,
    (hfailed 0 _ _ hfails).2.trans hruns⟩

end Terse
