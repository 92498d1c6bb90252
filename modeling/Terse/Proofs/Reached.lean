import Terse.Proofs.Lockstep
import Terse.Session

/-!
# The machines that programs reach

A program starts without sequences and gets hold of them only by running: it evaluates nodes, asks
sequences for elements, applies blocks to values that it holds, in any order and whether or not the
steps succeed.  `Reached settings held M` collects the machines that come about this way, together
with values that are held there.  Machines inside of blocks, of calls and of generators are reached
as well.

Every reached machine is sound (`Reached.sound`), and the machine of a session is reached
(`Session.reached_start`, `Session.reached_evaluate`).

## Strategy

What a program may do with values is said without a machine: a step is an honest computation for
whatever knowledge has the held values (`Client`).  So the steps of a program are not restricted to
what is true of one store, and values that are held are never made up: each of them was held before,
is in the result of a step, or can be obtained from such values.

`Reached.sound` is by induction on how a machine was reached.  A step keeps a machine sound as its
computation is honest (`Terse.Proofs.Soundness`), and lets it grow, so values that are held can
still be used.  When a generator starts to run, other values are held: what the sequence has
captured, and its elements.
-/

namespace Terse

/-- A value that consists of held values, texts and numbers. -/
def Obtainable (held : List Value) (v : Value) : Prop :=
  ∀ K : Knowledge, K.all held → K.has v

/-- A computation that gets along with held values. -/
def Client (held : List Value) {α : Type} (x : Evaluator → Eval α)
    (P : Knowledge → α → Prop) : Prop :=
  ∀ K : Knowledge, K.all held → Honest .free K x P

/-- The evaluation of a node needs no held values. -/
theorem client_node (held : List Value) (n : Node) :
    Client held (fun run => run n) Knowledge.has :=
  fun _ _ => .node trivial

/-- A sequence that is held can be asked for elements. -/
theorem client_element {held : List Value} {s : Sequence} (hs : Obtainable held (.sequence s))
    (index : Nat) : Client held (fun run => Eval.elementAt run s index) Knowledge.option :=
  fun K hK => .element index (hs K hK)

/-- The machines that a program can reach, and values that it holds there. -/
inductive Reached (settings : Settings) : List Value → Machine → Prop where
  /-- A program starts with plain values. -/
  | start {scope : Scope} {output : Output} (hinput : settings.input.Plain)
      (hscope : ∀ name v, scope.lookup name = some v → v.Plain) :
      Reached settings [] ⟨scope, [], .empty, .root, output⟩
  /-- A step succeeds; what is held afterwards was held before or is in the result. -/
  | step {held held' : List Value} {M M' : Machine} {d : Nat} {α : Type}
      {x : Evaluator → Eval α} {P : Knowledge → α → Prop} {a : α} (h : Reached settings held M)
      (hx : Client held x P) (hrun : x (Eval.nested d) settings M = .ok a M')
      (hheld : ∀ K : Knowledge, K.all held → P K a → K.all held') : Reached settings held' M'
  /-- A step fails. -/
  | failure {held : List Value} {M M' : Machine} {d : Nat} {α : Type} {x : Evaluator → Eval α}
      {P : Knowledge → α → Prop} {halt : Halt} (h : Reached settings held M)
      (hx : Client held x P) (hrun : x (Eval.nested d) settings M = .error halt M') :
      Reached settings held M'
  /-- Another scope is entered or left. -/
  | scope {held : List Value} {M : Machine} {scope : Scope} (h : Reached settings held M)
      (hscope : ∀ name v, scope.lookup name = some v → Obtainable held v) :
      Reached settings held { M with scope := scope }
  /-- The generator of a sequence starts to run. -/
  | production {held held' : List Value} {M : Machine} {s : Sequence} (h : Reached settings held M)
      (hs : Obtainable held (.sequence s))
      (hheld : ∀ v ∈ held', v ∈ (M.store.progress s).elements ∨
        ∃ name, s.scope.lookup name = some v) :
      Reached settings held' (M.enter s (M.store.progress s).elements)

/-- A store without sequences is sound. -/
theorem sound_start {scope : Scope} {output : Output}
    (hscope : ∀ name v, scope.lookup name = some v → v.Plain) :
    Machine.Sound ⟨scope, [], .empty, .root, output⟩ where
  scope name v hv := (Machine.knowledge ⟨scope, [], .empty, .root, output⟩).plain (hscope name v hv)
  history v hv := by simp [Lookback.empty] at hv
  store := ⟨fun _ _ h => by simp [Store.find?] at h, fun _ _ h => by simp [Store.find?] at h,
    fun _ _ h => by simp [Store.find?] at h⟩
  fresh _ _ _ h := by simp [Store.find?] at h
  below _ _ _ _ _ h := by simp [Store.find?] at h

/-- Evaluation within any depth keeps the facts produced. -/
theorem nested_safe_produced {settings : Settings} (hinput : settings.input.Plain) (d : Nat) :
    SafeEvaluator (Produced settings) settings (Eval.nested d) :=
  nested_safe hinput d fun k _ => establishes_produced settings k

/-- Clients preserve soundness. -/
theorem Client.preserves {settings : Settings} {held : List Value} {M : Machine} {α : Type}
    {x : Evaluator → Eval α} {P : Knowledge → α → Prop} (hx : Client held x P)
    (hinput : settings.input.Plain) (hM : SoundFor (Produced settings) M)
    (hheld : M.knowledge.all held) (d : Nat) :
    Preserves (Produced settings) settings M (x (Eval.nested d)) P :=
  (hx M.knowledge hheld).preserves hinput (nested_safe_produced hinput d) M hM rfl

/-- A reached machine is sound, its facts were produced, and what is held can be used. -/
theorem Reached.sound {settings : Settings} {held : List Value} {M : Machine}
    (h : Reached settings held M) :
    settings.input.Plain ∧ SoundFor (Produced settings) M ∧ M.knowledge.all held := by
  induction h with
  | start hinput hscope =>
      refine ⟨hinput, ⟨sound_start hscope, ?_⟩, fun v hv => absurd hv List.not_mem_nil⟩
      rintro - s history v ⟨p, rest, hfind, -⟩
      simp [Store.find?] at hfind
  -- What was held is known in the grown machine, and so is what the result has.
  | @step held held' M M' d α x P a _ hx hrun hheld ih =>
      obtain ⟨hinput, hM, hall⟩ := ih
      obtain ⟨hM', hgrows, ha⟩ := (hx.preserves hinput hM hall d).ok hrun
      exact ⟨hinput, hM', hheld _ (fun v hv => hgrows.known (hall v hv)) ha⟩
  | @failure held M M' d α x P halt _ hx hrun ih =>
      obtain ⟨hinput, hM, hall⟩ := ih
      obtain ⟨hM', hgrows⟩ := (hx.preserves hinput hM hall d).error hrun
      exact ⟨hinput, hM', fun v hv => hgrows.known (hall v hv)⟩
  | @scope held M scope _ hscope ih =>
      obtain ⟨hinput, hM, hall⟩ := ih
      exact ⟨hinput, hM.withScope fun name v hv => hscope name v hv M.knowledge hall, hall⟩
  -- Inside of a production only what comes before the frame can be used.
  | @production held held' M s _ hs hheld ih =>
      obtain ⟨hinput, hM, hall⟩ := ih
      have h := hM.producing (hs M.knowledge hall)
      refine ⟨hinput, SafeEvaluator.enter h hM, fun v hv => ?_⟩
      rcases hheld v hv with helement | ⟨name, hcaptured⟩
      · obtain ⟨j, hj⟩ := Array.getElem?_of_mem helement
        exact h.known_element hj
      · exact h.known_captured hcaptured

/-! ## Sessions -/

namespace Session

theorem plain_constantValue (numeral : String) : (Builtin.constantValue numeral).Plain := by
  unfold Builtin.constantValue
  cases Decimal.numeral? numeral with
  | some n => exact .number n
  | none => exact .text numeral

/-- What a list of bindings binds is in the list. -/
theorem mem_of_find? {α : Type} {bindings : Bindings α} {name : String} {v : α}
    (h : bindings.find? name = some v) : (name, v) ∈ bindings := by
  induction bindings with
  | nil => simp at h
  | cons first rest ih =>
      obtain ⟨other, w⟩ := first
      rw [Bindings.find?_cons] at h
      split at h
      · rename_i heq
        rw [heq, Option.some.inj h]
        exact List.mem_cons_self
      · exact List.mem_cons_of_mem _ (ih h)

/-- A program starts with plain values. -/
theorem plain_startValues {input : Value} (hinput : input.Plain) {name : String} {v : Value}
    (h : Bindings.find? (Builtin.startValues input) name = some v) : v.Plain := by
  have hmem := mem_of_find? h
  simp only [Builtin.startValues, List.mem_append, List.mem_map, List.mem_cons, List.not_mem_nil,
    or_false, Prod.mk.injEq] at hmem
  rcases hmem with ⟨⟨_, numeral⟩, -, -, rfl⟩ | ⟨-, rfl⟩ | ⟨-, rfl⟩
  · exact plain_constantValue numeral
  · exact .text ""
  · exact hinput

theorem values_of_startScope {input : Value} {scope : Scope}
    (hscope : Builtin.startScope input = .ok scope) : scope.values = Builtin.startValues input := by
  unfold Builtin.startScope at hscope
  generalize List.mapM (m := Except Failure) _ Builtin.all = functions at hscope
  cases functions with
  | error failure => cases hscope
  | ok functions =>
      have hscope : Except.ok ⟨Builtin.startValues input, functions, none⟩ = Except.ok scope :=
        hscope
      rw [← Except.ok.inj hscope]

/-- A session starts in a reached machine. -/
theorem reached_start {precision : Nat} {input : Value} {dictionary : Dictionary}
    {output : Output} {session : Session} (hinput : input.Plain)
    (hstart : start precision input dictionary output = .ok session) :
    Reached session.settings [] session.machine := by
  unfold start at hstart
  generalize hscope : Builtin.startScope input = scope at hstart
  cases scope with
  | error failure => cases hstart
  | ok scope =>
      have hstart : Except.ok _ = Except.ok session := hstart
      rw [← Except.ok.inj hstart]
      refine .start hinput fun name v hlookup => ?_
      rw [Scope.lookup, values_of_startScope hscope] at hlookup
      exact plain_startValues hinput hlookup

/-- A session stays in reached machines, and holds the values of its programs. -/
theorem reached_evaluate {session : Session} {held : List Value}
    (h : Reached session.settings held session.machine) (program : Program) :
    match session.evaluate program with
    | (.ok v, after) => Reached after.settings (v :: held) after.machine
    | (.error _, after) => Reached after.settings held after.machine := by
  have hclient : Client held (fun run => Eval.program run program) Knowledge.has :=
    fun K _ => Honest.program fun _ _ => trivial
  -- A program is one step, and holds its value if it succeeds.
  simp only [evaluate, perform, evaluator]
  cases hrun : Eval.program (Eval.nested session.settings.depth) program session.settings
      session.machine with
  | ok v M' => exact .step h hclient hrun fun K hheld hv => Knowledge.all_cons hv hheld
  | error halt M' => exact .failure h hclient hrun

end Session

/-! ## An instance -/

theorem reached_blank : Reached .small [] .blank :=
  .start (.text "") fun name v h => by simp [Scope.empty, Scope.lookup] at h

namespace Growing

/-- The block `{_ | "b"}`. -/
def generator : Block :=
  ⟨implicitName, ⟨[.binary .concat (.var implicitName .start) (.text "b" .double .start) .none
    .start], .start⟩, .start⟩

/-- The sequence `["a" {_ | "b"}]` of the texts `a`, `ab`, `abb` and so on. -/
def node : Node := .array ⟨[.text "a" .double .start, .block generator], .start⟩ .start

/-- The machine that has made the sequence. -/
def made : Machine := Eval.final (Eval.nested 4 node) .small .blank

/-- The sequence in the machine that has made it. -/
def sequence : Sequence := ⟨[0], [.text "a"], generator, none, .empty⟩

/-- The machine that has then asked for element 2. -/
def asked : Machine := Eval.final (Eval.elementAt (Eval.nested 4) sequence 2) .small made

theorem reached_made : Reached .small [.sequence sequence] made :=
  .step reached_blank (client_node [] node) (by rfl : Eval.nested 4 node .small .blank =
    .ok (.sequence sequence) made) fun _ _ hv => Knowledge.all_cons hv (fun _ h => by simp at h)

theorem reached_asked : Reached .small [.sequence sequence] asked :=
  .step reached_made (client_element (fun _ h => h _ List.mem_cons_self) 2)
    (by rfl : Eval.elementAt (Eval.nested 4) sequence 2 .small made =
      .ok (some (.text "abb")) asked) fun _ h _ => h

end Growing

end Terse
