import Terse.Proofs.Watched

/-!
# Numbers stay in the exponent range

Results of arithmetic are brought into the exponent range or refused.  Other numbers that a program
makes are truth values, counts and places, which are words.  Only a number that is read in another
base can lie outside of the range, so a program that reads none has only numbers in the range.

This is said of whole runs.  `Watch.inRange` looks at every number that occurs in a bound value or
in the value of a node, down to the items of arrays, the elements that sequences have produced and
the scopes that sequences were made in.

## Strategy

* `Discipline.bounded` allows syntax that reads no numbers in another base, and no number outside of
  the range.  It is closed (`Discipline.bounded_closed`), so evaluation keeps to it
  (`Terse.Proofs.Conformance`).
* What conforms to it passes the watch (`passes_inRange`), by induction on how a number occurs in a
  value.  So the run that is watched never goes astray (`Terse.Proofs.Watched`).
* A session starts in a machine that conforms (`Session.bounded_start`).  The bodies of the builtin
  functions are read by evaluation, and none of them reads a number in another base.
-/

namespace Terse

/-! ## Programs that read no numbers in another base -/

namespace Node

/-- Nothing in a node reads numbers in another base. -/
def ReadsNoBase (n : Node) : Prop := ∀ m, n.Contains m → m.readsBase = false

theorem ReadsNoBase.contains {n m : Node} (h : n.ReadsNoBase) (hm : n.Contains m) :
    m.ReadsNoBase :=
  fun m' hm' => h m' (hm.trans hm')

/-- Whether a test holds of every node in a tree of at most `depth` levels. -/
def every (test : Node → Bool) : Nat → Node → Bool
  | 0, _ => false
  | depth + 1, n => test n && n.children.all (every test depth ·)

theorem of_every {test : Node → Bool} {depth : Nat} {n m : Node}
    (h : n.every test depth = true) (hm : n.Contains m) : test m = true := by
  induction depth generalizing n with
  | zero => cases h
  | succ depth ih =>
      rw [every, Bool.and_eq_true, List.all_eq_true] at h
      -- A node contains itself, and what one of its children contains.
      rcases Relation.ReflTransGen.cases_head hm with rfl | ⟨child, hchild, hcontains⟩
      · exact h.1
      · exact ih (h.2 child hchild) hcontains

theorem readsNoBase_of_every {depth : Nat} {n : Node}
    (h : n.every (fun m => !m.readsBase) depth = true) : n.ReadsNoBase :=
  fun _ hm => by simpa using of_every h hm

end Node

namespace Discipline

/-- Nothing that may run reads numbers in another base, and all numbers are in the exponent
range. -/
def bounded : Discipline where
  node n := n.ReadsNoBase
  block b := ∀ n ∈ b.body.items, n.ReadsNoBase
  combinator c := c.expr.ReadsNoBase
  function _ f := f.body.ReadsNoBase
  target _ := True
  generator b := ∀ n ∈ b.body.items, n.ReadsNoBase
  call _ _ := True
  error _ := True
  wide := False

theorem bounded_closed : bounded.Closed where
  operand hn hm := hn.contains (Node.containsOutside_of_mem_evaluated hm).contains
  block hn hb _ hm := hn.contains (Node.contains_of_mem_block hb hm)
  combinator hn hc := hn.contains (Node.contains_of_mem_combinators hc)
  function hn := hn.contains (Node.contains_of_define _ _ _ _)
  target _ _ := trivial
  generator {body position b} hn hb m hm := by
    have hblock : (Node.array body position).Contains (.block b) :=
      (Node.containsOutside_of_mem_evaluated (Program.mem_of_block? hb)).contains
    exact hn.contains (hblock.trans (Node.contains_of_mem_block List.mem_cons_self hm))
  call _ := trivial
  dot _ := trivial
  noBlock _ _ := trivial
  wide {n} hn hreads := by simp [hn n .refl] at hreads

theorem bounded_hereditary : bounded.Hereditary where
  block hb := hb
  combinator hc := hc
  function hf := hf
  generator hb := hb
  arity _ _ _ := trivial

end Discipline

/-! ## The numbers in values and machines -/

/-- A number occurs in a value: it is the value, or it occurs in an item of an array, in an element
that a sequence has, or in a value of the scope that a sequence was made in. -/
inductive Value.Occurs (store : Store) (n : Decimal) : Value → Prop where
  | number : Occurs store n (.number n)
  | item {items : List Value} {v : Value} (hv : v ∈ items) (h : Occurs store n v) :
      Occurs store n (.array items)
  | element {s : Sequence} {v : Value} (hv : v ∈ (store.progress s).elements)
      (h : Occurs store n v) : Occurs store n (.sequence s)
  | captured {s : Sequence} {name : String} {v : Value} (hv : s.scope.lookup name = some v)
      (h : Occurs store n v) : Occurs store n (.sequence s)

/-- A value can be read from a variable in a machine: it is bound in the scope, or is an element
that is read back. -/
def Machine.Binds (M : Machine) (v : Value) : Prop :=
  (∃ name, M.scope.lookup name = some v) ∨ v ∈ M.lookback.history

/-- All numbers are in the exponent range. -/
def Watch.inRange : Watch where
  machine M := ∀ v, M.Binds v → ∀ n, v.Occurs M.store n → n.inRange = true
  value M v := ∀ n, v.Occurs M.store n → n.inRange = true

theorem inRange_of_occurs {M : Machine} (hM : M.Conforms .bounded) {v : Value} {n : Decimal}
    (hv : v.Conforms .bounded) (hn : v.Occurs M.store n) : n.inRange = true := by
  induction hn with
  | number =>
      cases hv with
      | number _ hnumber => exact hnumber.resolve_right id
  | item hitem _ ih => exact ih (Value.conforms_array_iff.1 hv _ hitem)
  | element helement _ ih => exact ih (hM.progress hv _ helement)
  | captured hcaptured _ ih =>
      cases hv with
      | sequence _ _ hvalues _ => exact ih (hvalues _ _ hcaptured)

theorem passes_inRange : Watch.inRange.Passes .bounded where
  machine hM v hbinds n hn := by
    refine inRange_of_occurs hM ?_ hn
    rcases hbinds with ⟨name, hlookup⟩ | hhistory
    · exact hM.scope.values name v hlookup
    · exact hM.history v hhistory
  value hM hv _ hn := inRange_of_occurs hM hv hn

/-! ## What a session starts with -/

namespace Builtin

theorem readsNoBase_node : ∀ builtin ∈ all, ∀ n, builtin.node = .ok n → n.ReadsNoBase := by
  have hall : ∀ builtin ∈ all,
      builtin.node.toOption.all (·.every (fun m => !m.readsBase) 10) = true := by
    decide +kernel
  intro builtin hbuiltin n hn
  have hevery := hall builtin hbuiltin
  rw [hn] at hevery
  exact Node.readsNoBase_of_every hevery

theorem exists_of_mapM {ε α β : Type} {f : α → Except ε β} {list : List α} {results : List β}
    (h : list.mapM f = .ok results) : ∀ b ∈ results, ∃ a ∈ list, f a = .ok b := by
  induction list generalizing results with
  | nil =>
      obtain rfl := Except.ok.inj h
      simp
  | cons a rest ih =>
      obtain ⟨b, bs, hfirst, hrest, rfl⟩ := exists_of_mapM_cons h
      refine List.forall_mem_cons.2 ⟨⟨a, List.mem_cons_self, hfirst⟩, fun c hc => ?_⟩
      obtain ⟨a', ha', hc'⟩ := ih hrest c hc
      exact ⟨a', List.mem_cons_of_mem a ha', hc'⟩

/-- The functions that a program starts with read no numbers in another base. -/
theorem readsNoBase_of_startScope {input : Value} {scope : Scope}
    (hscope : startScope input = .ok scope) {name : String} {f : Function}
    (hf : scope.function? name = some f) : f.body.ReadsNoBase := by
  unfold startScope at hscope
  -- Each function of the start scope is read from the source of a builtin one.
  generalize hmap : List.mapM (m := Except Failure) _ all = functions at hscope
  cases functions with
  | error failure => cases hscope
  | ok functions =>
      obtain rfl := Except.ok.inj hscope
      obtain ⟨builtin, hbuiltin, hresult⟩ := exists_of_mapM hmap _ (Session.mem_of_find? hf)
      cases hnode : builtin.node with
      | error failure =>
          rw [hnode] at hresult
          cases hresult
      | ok n =>
          rw [hnode] at hresult
          cases hresult
          exact readsNoBase_node builtin hbuiltin n hnode

theorem conforms_constantValue :
    ∀ constant ∈ constants, (constantValue constant.2).Conforms .bounded := by
  have hall : ∀ constant ∈ constants,
      (Decimal.numeral? constant.2).all (·.inRange) = true := by
    decide
  intro constant hconstant
  have hrange := hall constant hconstant
  unfold constantValue
  cases hnumeral : Decimal.numeral? constant.2 with
  | none => exact .text _
  | some n =>
      rw [hnumeral] at hrange
      exact .number n (.inl hrange)

/-- A program starts with numbers in the exponent range if its input has only such. -/
theorem conforms_of_startValues {input : Value} (hinput : input.Conforms .bounded) {name : String}
    {v : Value} (h : Bindings.find? (startValues input) name = some v) : v.Conforms .bounded := by
  have hmem := Session.mem_of_find? h
  simp only [startValues, List.mem_append, List.mem_map, List.mem_cons, List.not_mem_nil,
    or_false, Prod.mk.injEq] at hmem
  rcases hmem with ⟨constant, hconstant, -, rfl⟩ | ⟨-, rfl⟩ | ⟨-, rfl⟩
  · exact conforms_constantValue constant hconstant
  · exact .text ""
  · exact hinput

end Builtin

theorem conforms_inputValue (lines : List String) : (inputValue lines).Conforms .bounded := by
  unfold inputValue
  split
  · exact .text ""
  · exact .text _
  · refine .array fun v hv => ?_
    obtain ⟨line, -, rfl⟩ := List.mem_map.1 hv
    exact .text line

theorem Session.bounded_start (precision : Nat) (lines : List String) (dictionary : Dictionary)
    (output : Output) :
    ∃ session, Session.start precision (inputValue lines) dictionary output = .ok session ∧
      session.settings.input.Conforms .bounded ∧ session.machine.Conforms .bounded := by
  have hcalls : Grammar.Listed anyCount Builtin.calls := fun _ _ _ => trivial
  obtain ⟨functions, hscope, -⟩ := Builtin.startScope_cases (inputValue lines) hcalls
  refine ⟨⟨⟨precision, inputValue lines, dictionary, defaultDepth⟩, Builtin.calls,
    ⟨⟨Builtin.startValues (inputValue lines), functions, none⟩, [], .empty, .root, output⟩⟩, ?_,
    conforms_inputValue lines, ⟨?_, ?_⟩, ?_, ?_⟩
  · unfold start
    rw [hscope]
    rfl
  · exact fun name v hv => Builtin.conforms_of_startValues (conforms_inputValue lines) hv
  · exact fun name f hf => Builtin.readsNoBase_of_startScope hscope hf
  · exact fun v hv => by simp [Lookback.empty] at hv
  · exact fun label p hfind => by simp [Store.find?] at hfind

/-! ## Whole runs -/

/-- If a program reads no numbers in another base, its run is the same whether or not it goes astray
at the first number outside of the exponent range, in whatever block, function or generator such a
number might come up; and it ends with numbers in the range, also if it fails.  This holds in every
machine that starts with numbers in the range and without syntax that reads numbers in another
base, and sessions start in such machines. -/
theorem evaluation_inRange {program : Program}
    (hprogram : ∀ item ∈ program.items, ∀ n, item.Contains n → n.readsBase = false) :
    (∀ settings M, settings.input.Conforms .bounded → M.Conforms .bounded →
      ∀ astray depth print,
        Run.evaluation (Eval.watched .inRange astray depth) program print settings M =
          Run.evaluation (Eval.nested depth) program print settings M ∧
        Watch.inRange.machine
          (Eval.final (Run.evaluation (Eval.nested depth) program print) settings M) ∧
        ∀ v M', Run.evaluation (Eval.nested depth) program print settings M = .ok v M' →
          Watch.inRange.value M' v) ∧
    ∀ precision lines dictionary output, ∃ session,
      Session.start precision (inputValue lines) dictionary output = .ok session ∧
        session.settings.input.Conforms .bounded ∧ session.machine.Conforms .bounded := by
  refine ⟨fun settings M hinput hM astray depth print => ?_, Session.bounded_start⟩
  have hrun := (nested_conforms Discipline.bounded_closed Discipline.bounded_hereditary hinput
    depth).evaluation Discipline.bounded_hereditary hinput hM hprogram print
  refine ⟨evaluation_watched passes_inRange Discipline.bounded_closed
    Discipline.bounded_hereditary hinput astray hM hprogram depth print, ?_, ?_⟩
  · cases hresult : Run.evaluation (Eval.nested depth) program print settings M with
    | ok v M' =>
        rw [Eval.final_ok hresult]
        exact passes_inRange.machine (hrun.ok hresult).1
    | error halt M' =>
        rw [Eval.final_error hresult]
        exact passes_inRange.machine (hrun.error hresult).1
  · intro v M' hresult
    obtain ⟨hM', hv⟩ := hrun.ok hresult
    exact passes_inRange.value hM' hv

namespace Raising

/-- A source text with powers in a function, in a generator and in a combinator, and a base
conversion that only writes numbers. -/
def source : String := "f(a):=a^99999,[2 \x7b_^2\x7d]?9,f 10,+\\[1/3 4],255;4hd"

def tokens : List Token := (tokenize source).toOption.getD []

theorem reads_source : Builtin.reads source (fun _ program =>
    program.items.all (·.every (fun m => !m.readsBase) 20)) = true := by
  decide +kernel

/-- The source text runs without a number outside of the exponent range. -/
theorem evaluation_source :
    ∃ program session, tokenize source = .ok tokens ∧
      (parse tokens Builtin.calls).1 = .ok program ∧
      Session.start 25 (inputValue ["7"]) .empty .unlimited = .ok session ∧
      ∀ astray depth print,
        Run.evaluation (Eval.watched .inRange astray depth) program print session.settings
            session.machine =
          Run.evaluation (Eval.nested depth) program print session.settings session.machine := by
  obtain ⟨tokens', program, htokens, hparse, hevery⟩ := Builtin.exists_of_reads reads_source
  obtain rfl : tokens = tokens' := by rw [tokens, htokens]; rfl
  have hprogram : ∀ item ∈ program.items, item.ReadsNoBase := fun item hitem =>
    Node.readsNoBase_of_every (List.all_eq_true.1 hevery item hitem)
  obtain ⟨hruns, hstarts⟩ := evaluation_inRange hprogram
  obtain ⟨session, hstart, hinput, hmachine⟩ := hstarts 25 ["7"] .empty .unlimited
  exact ⟨program, session, htokens, hparse, hstart, fun astray depth print =>
    (hruns _ _ hinput hmachine astray depth print).1⟩

end Raising

end Terse
