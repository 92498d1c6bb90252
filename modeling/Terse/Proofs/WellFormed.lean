import Terse.Proofs.Accepted
import Terse.Proofs.Conformance
import Terse.Proofs.Reached
import Terse.Run

/-!
# Programs that are read and then run

What the grammar builds may be run: `Discipline.built` allows the trees that are built according to
a signature, and hooks, which only the bodies of builtin functions have.  Every session conforms to
this discipline, whatever programs it has run, because its functions come from programs that were
read.

Trees that are built are proper: operators carry what belongs to them and have operands of the right
kind.  So the errors that the evaluator has for improper trees do not come up (`parse_proper`).

## Strategy

* The discipline is closed: what is evaluated for a built node, its blocks, combinators and bodies,
  is built again.  By the results about honest evaluators it is then kept by every run.
* A session starts with the builtin functions.  Their sources are read and define nothing
  themselves, which is decided for the list of builtin functions as a whole
  (`Builtin.readable_of_mem`); the rest follows for any list of functions of this kind.
* A step of a session reads a source text and evaluates it, or is refused while reading.  Either way
  the session conforms afterwards, so by induction every opened session does (`Session.Opened`).

The signature matters for errors about numbers of arguments.  Where nothing is asked of them,
`anyCount` is taken, and every tree that is read is built.
-/

namespace Terse

open Eval (outcome)

variable {signature : String → Nat → Prop}

/-! ## Built trees may be run -/

namespace Node.Built

theorem evaluated {n m : Node} (h : n.Built signature) (hm : m ∈ n.evaluated) :
    m.Built signature := by
  cases h with
  | text | numeral | var | define | block => cases hm
  | call _ _ hargs => exact hargs m hm
  | group _ hbody | array _ hbody _ => exact hbody m hm
  | leading _ _ harg | filter _ _ _ harg | fold _ _ _ harg | trailing _ _ harg _
  | base _ _ harg _ => exact List.mem_singleton.1 hm ▸ harg
  | dot _ _ _ hargs hleft _ =>
      rcases List.mem_cons.1 hm with rfl | hm
      · exact hleft
      · exact hargs m hm
  | zipWith _ _ hleft _ hright _ _ =>
      rcases List.mem_pair.1 hm with rfl | rfl
      · exact hleft
      · exact hright
  | binary _ hop hleft _ hright _ _ =>
      rw [Node.evaluated_binary hop] at hm
      rcases List.mem_pair.1 hm with rfl | rfl
      · exact hleft
      · exact hright

theorem blocks {n : Node} {b : Block} (h : n.Built signature) (hb : b ∈ n.blocks) :
    ∀ m ∈ b.body.items, m.Built signature := by
  cases h with
  | block hbody => exact List.mem_singleton.1 hb ▸ hbody
  | filter _ _ hbody _ => exact List.mem_singleton.1 hb ▸ hbody
  | fold _ hmap _ _ => exact hmap b (Option.mem_toList.1 hb)
  | _ => cases hb

theorem combinators {n : Node} {c : Combinator} (h : n.Built signature) (hc : c ∈ n.combinators) :
    c.expr.Built signature := by
  cases h with
  | fold _ _ hcombinator _ => exact hcombinator c (Option.mem_toList.1 hc)
  | zipWith _ hcombinator _ _ _ _ _ => exact List.mem_singleton.1 hc ▸ hcombinator
  | _ => cases hc

theorem carries {op : LeadingOp} {arg : Node} {extra : Extra} {position : Position}
    (h : (Node.leading op arg extra position).Built signature) : op.carries extra = true := by
  cases h with
  | leading _ hop _ => cases op <;> first | rfl | cases hop
  | filter _ hop _ _ => rcases hop with rfl | rfl <;> rfl
  | fold _ _ _ _ => rfl

end Node.Built

/-- The block of a sequence is one of its items. -/
theorem Program.mem_of_block? {body : Program} {b : Block} (h : body.block? = some b) :
    .block b ∈ body.items := by
  obtain ⟨n, hn, heq⟩ := List.exists_of_findSome?_eq_some h
  split at heq
  · exact Option.some.inj heq ▸ hn
  · cases heq

namespace Discipline

/-- What the grammar builds may be run, and so may hooks.  A call and a function of the same name
may disagree about the number of arguments only if the signature allows both numbers. -/
def built (signature : String → Nat → Prop) : Discipline where
  node n := n.Built signature ∨ ∃ hook position, n = .hook hook position
  block b := ∀ n ∈ b.body.items, n.Built signature
  combinator c := c.expr.Built signature
  function name f := (f.body.Built signature ∨ ∃ hook position, f.body = .hook hook position) ∧
    signature name f.params.length
  target _ := True
  generator b := ∀ n ∈ b.body.items, n.Built signature
  call := signature
  error e := ∃ name expected found position, e = .arity name expected found position ∧
    signature name expected ∧ signature name found ∧ expected ≠ found

theorem built_closed : (built signature).Closed where
  -- A hook has no parts, so that only built nodes have to be looked at.
  operand hn hm := by
    rcases hn with hn | ⟨hook, position, rfl⟩
    · exact .inl (hn.evaluated hm)
    · cases hm
  block hn hb := by
    rcases hn with hn | ⟨hook, position, rfl⟩
    · exact hn.blocks hb
    · cases hb
  combinator hn hc := by
    rcases hn with hn | ⟨hook, position, rfl⟩
    · exact hn.combinators hc
    · cases hc
  function hn := by
    rcases hn with hn | ⟨hook, position, heq⟩
    · cases hn with
      | define _ hname hbody => exact ⟨.inl hbody, by simpa using hname⟩
    · cases heq
  target _ _ := trivial
  generator hn hb := by
    rcases hn with hn | ⟨hook, position, heq⟩
    · cases hn with
      | array _ hbody _ => exact (hbody _ (Program.mem_of_block? hb)).blocks List.mem_cons_self
    · cases heq
  call hn := by
    rcases hn with hn | ⟨hook, position, heq⟩
    · cases hn with
      | call _ hname _ => exact hname
    · cases heq
  dot hn := by
    rcases hn with hn | ⟨hook, position, heq⟩
    · cases hn with
      | dot _ _ hname _ _ _ => exact hname
      | binary _ hop _ _ _ _ _ => exact absurd rfl hop
    · cases heq
  noBlock hn hcarries := by
    rcases hn with hn | ⟨hook, position, heq⟩
    · rw [hn.carries] at hcarries
      cases hcarries
    · cases heq

theorem built_hereditary : (built signature).Hereditary where
  block hb n hn := .inl (hb n hn)
  combinator hc := .inl hc
  function hf := hf.1
  generator hb n hn := .inl (hb n hn)
  arity hf hcall hlength := ⟨_, _, _, _, rfl, hf.2, hcall, hlength⟩

end Discipline

/-! ## Builtin functions -/

/-- Tokens without `:=` define nothing. -/
theorem not_defines {tokens : List Token} (h : ∀ token ∈ tokens, token.isSymbol ":=" = false)
    (name : String) (count : Nat) : ¬ Defines tokens name count := by
  rintro ⟨before, position, header, params, rest, hheader, -, rfl⟩
  -- The head of a definition ends with `:=`.
  have hassign : ∃ token ∈ header, token.isSymbol ":=" = true := by
    cases hheader with
    | bare assign => exact ⟨_, List.mem_cons_self, rfl⟩
    | @listed _ _ assign tokens _ _ => exact ⟨⟨.symbol, ":=", assign⟩, by simp, rfl⟩
  obtain ⟨token, htoken, hsymbol⟩ := hassign
  rw [h token (by simp [htoken])] at hsymbol
  cases hsymbol

namespace Builtin

open Grammar (Listed)

/-- Whether a builtin function is a hook, or has a source that is read and defines nothing. -/
def readable (builtin : Builtin) : Bool :=
  match builtin.body with
  | .hook _ => true
  | .source source =>
    match tokenize source with
    | .error _ => false
    | .ok tokens => (parse tokens calls).1.isOk && tokens.all fun token => !token.isSymbol ":="

theorem readable_of_mem : ∀ builtin ∈ all, builtin.readable = true := by
  decide +kernel

theorem find?_calls_of_mem :
    ∀ builtin ∈ all, calls.find? builtin.name = some builtin.params.length := by
  decide +kernel

theorem exists_of_isOk {ε α : Type} {result : Except ε α} (h : result.isOk = true) :
    ∃ a, result = .ok a := by
  cases result with
  | error e => cases h
  | ok a => exact ⟨a, rfl⟩

/-- Whether a source text is that of a program that passes a test on its tokens and its tree. -/
def reads (source : String) (test : List Token → Program → Bool) : Bool :=
  (tokenize source).toOption.any fun tokens =>
    (parse tokens calls).1.toOption.any fun program => test tokens program

theorem exists_of_reads {source : String} {test : List Token → Program → Bool}
    (h : reads source test = true) :
    ∃ tokens program, tokenize source = .ok tokens ∧ (parse tokens calls).1 = .ok program ∧
      test tokens program = true := by
  unfold reads at h
  cases htokens : tokenize source with
  | error error =>
      rw [htokens] at h
      cases h
  | ok tokens =>
      rw [htokens] at h
      change (parse tokens calls).1.toOption.any _ = true at h
      cases hparse : (parse tokens calls).1 with
      | error stop =>
          rw [hparse] at h
          cases h
      | ok program =>
          rw [hparse] at h
          exact ⟨tokens, program, rfl, hparse, h⟩

/-- The body of a builtin function is built, or a hook. -/
theorem node_of_readable {builtin : Builtin} (h : builtin.readable = true)
    (hcalls : Listed signature calls) :
    ∃ n, builtin.node = .ok n ∧ (n.Built signature ∨ ∃ hook position, n = .hook hook position) := by
  unfold readable at h
  unfold node
  cases hbody : builtin.body with
  | hook hook => exact ⟨_, rfl, .inr ⟨hook, .nowhere, rfl⟩⟩
  | source source =>
      simp only [hbody] at h
      cases htokens : tokenize source with
      | error failure =>
          simp only [htokens] at h
          cases h
      | ok tokens =>
          simp only [htokens, Bool.and_eq_true, List.all_eq_true, Bool.not_eq_true'] at h
          obtain ⟨hparse, hassign⟩ := h
          obtain ⟨program, hprogram⟩ := exists_of_isOk hparse
          have hfits : Fits signature tokens :=
            ⟨fun name count hdefines => absurd hdefines (not_defines hassign name count),
              name_ne_of_tokenize htokens⟩
          refine ⟨.group program program.position, ?_,
            .inl (.group _ (Grammar.parse_built hprogram hcalls hfits))⟩
          simp only [readSource, htokens, hprogram]
          rfl

/-- The functions that a program starts with are the builtin ones. -/
theorem startScope_cases (input : Value) (hcalls : Listed signature calls) :
    ∃ functions, startScope input = .ok ⟨startValues input, functions, none⟩ ∧
      ∀ name f, (name, f) ∈ functions → (Discipline.built signature).function name f := by
  -- By induction on a part of the list of builtin functions.
  have hfunctions : ∀ builtins : List Builtin, (∀ b ∈ builtins, b ∈ all) →
      ∃ functions, (builtins.mapM fun builtin => do
          return (builtin.name, Function.mk builtin.params (← builtin.node))) =
          (.ok functions : Except Failure (List (String × Function))) ∧
        ∀ name f, (name, f) ∈ functions → (Discipline.built signature).function name f := by
    intro builtins
    induction builtins with
    | nil => exact fun _ => ⟨[], rfl, by simp⟩
    | cons builtin rest ih =>
        intro hmem
        obtain ⟨hbuiltin, hrest⟩ := List.forall_mem_cons.1 hmem
        obtain ⟨functions, hmap, hbuilt⟩ := ih hrest
        obtain ⟨n, hnode, hn⟩ := node_of_readable (readable_of_mem builtin hbuiltin) hcalls
        refine ⟨(builtin.name, ⟨builtin.params, n⟩) :: functions, ?_, ?_⟩
        · rw [List.mapM_cons, hmap, hnode]
          rfl
        · intro name f hf
          rcases List.mem_cons.1 hf with heq | hf
          · cases heq
            exact ⟨hn, hcalls _ _ (find?_calls_of_mem builtin hbuiltin)⟩
          · exact hbuilt name f hf
  obtain ⟨functions, hmap, hbuilt⟩ := hfunctions all fun _ h => h
  refine ⟨functions, ?_, hbuilt⟩
  unfold startScope
  rw [hmap]
  rfl

theorem exists_of_mapM_cons {ε α β : Type} {f : α → Except ε β} {a : α} {rest : List α}
    {results : List β} (h : (a :: rest).mapM f = .ok results) :
    ∃ b bs, f a = .ok b ∧ rest.mapM f = .ok bs ∧ results = b :: bs := by
  rw [List.mapM_cons] at h
  cases hfirst : f a with
  | error e =>
      rw [hfirst] at h
      cases h
  | ok b =>
      cases hrest : rest.mapM f with
      | error e =>
          rw [hfirst, hrest] at h
          cases h
      | ok bs =>
          rw [hfirst, hrest] at h
          exact ⟨b, bs, rfl, rfl, (Except.ok.inj h).symm⟩

/-- Among builtin functions with different names, each one is found by its name. -/
theorem find?_of_mapM {builtins : List Builtin} {functions : List (String × Function)}
    (hmap : (builtins.mapM fun builtin => do
      return (builtin.name, Function.mk builtin.params (← builtin.node))) =
        (.ok functions : Except Failure (List (String × Function))))
    (hnames : (builtins.map (·.name)).Nodup) {builtin : Builtin} (hbuiltin : builtin ∈ builtins)
    {n : Node} (hnode : builtin.node = .ok n) :
    Bindings.find? functions builtin.name = some ⟨builtin.params, n⟩ := by
  induction builtins generalizing functions with
  | nil => cases hbuiltin
  | cons first rest ih =>
      obtain ⟨hfirst, hnames⟩ := List.nodup_cons.1 hnames
      obtain ⟨pair, others, hpair, hrest, rfl⟩ := exists_of_mapM_cons hmap
      cases hbody : first.node with
      | error failure =>
          rw [hbody] at hpair
          cases hpair
      | ok body =>
          rw [hbody] at hpair
          cases hpair
          rcases List.mem_cons.1 hbuiltin with rfl | hbuiltin
          · rw [hnode] at hbody
            cases hbody
            simp [Bindings.find?_cons]
          · have hne : builtin.name ≠ first.name := fun hsame =>
              hfirst (List.mem_map.2 ⟨builtin, hbuiltin, hsame⟩)
            simp [Bindings.find?_cons, hne, ih hrest hnames hbuiltin]

/-- A program starts with each builtin function under its name. -/
theorem function?_of_startScope {input : Value} {scope : Scope}
    (hscope : startScope input = .ok scope) {builtin : Builtin} (hbuiltin : builtin ∈ all)
    {n : Node} (hnode : builtin.node = .ok n) :
    scope.function? builtin.name = some ⟨builtin.params, n⟩ := by
  unfold startScope at hscope
  generalize hmap : List.mapM (m := Except Failure) _ all = functions at hscope
  cases functions with
  | error failure => cases hscope
  | ok functions =>
      obtain rfl := Except.ok.inj hscope
      exact find?_of_mapM hmap (by decide) hbuiltin hnode

end Builtin

/-- With this signature nothing is asked of the numbers of arguments. -/
def anyCount (_ : String) (_ : Nat) : Prop := True

theorem built_of_parse {source : String} {tokens : List Token} {calls : CallTable}
    {program : Program} (htokens : tokenize source = .ok tokens)
    (hparse : (parse tokens calls).1 = .ok program) :
    ∀ n ∈ program.items, n.Built anyCount :=
  Grammar.parse_built hparse (fun _ _ _ => trivial)
    ⟨fun _ _ _ => trivial, name_ne_of_tokenize htokens⟩

/-! ## Sessions -/

theorem Honest.finish {wide : Prop} {D : Discipline} {K : Knowledge wide} {v : Value}
    (position : Position) (print : Bool) (hv : K.has v) :
    Honest D K (fun run => Run.finish run v position print) Knowledge.has := by
  unfold Run.finish
  cases print with
  | false => exact settle position hv
  | true =>
      refine .bind (serialize position hv) fun K₁ text h₁ _ => ?_
      exact .bind (.writeLine text) fun K₂ _ h₂ _ => settle position (h₂ v (h₁ v hv))

/-- The run of a program conforms, up to its last step. -/
theorem ConformingEvaluator.evaluation {D : Discipline} {settings : Settings} {run : Evaluator}
    {M : Machine} {program : Program} (hrun : ConformingEvaluator D settings run)
    (hD : D.Hereditary) (hinput : settings.input.Conforms D) (hM : M.Conforms D)
    (hprogram : ∀ n ∈ program.items, D.node n) (print : Bool) :
    Conforming D settings M (Run.evaluation run program print) (Value.Conforms D) := by
  refine (hrun.program hM hprogram).bind fun v M' hM' hv => ?_
  have hfinish : Honest D D.knowledge (fun run => Run.finish run v program.position print)
      Knowledge.has := .finish _ _ hv
  exact hfinish.conforms hD hinput hrun rfl M' hM'

theorem program_conforming {settings : Settings} {M : Machine} {program : Program}
    (hprogram : ∀ n ∈ program.items, n.Built signature) (hinput : settings.input.Plain)
    (hM : M.Conforms (.built signature)) (depth : Nat) :
    Conforming (.built signature) settings M (Eval.program (Eval.nested depth) program)
      (Value.Conforms (.built signature)) := by
  have hinput := (Discipline.built signature).knowledge.plain hinput
  have hrun := nested_conforms Discipline.built_closed Discipline.built_hereditary hinput depth
  exact hrun.program hM fun n hn => .inl (hprogram n hn)

/-- The evaluation of a program that was read, up to the last step of its run. -/
theorem evaluation_conforming {settings : Settings} {M : Machine} {program : Program}
    (hprogram : ∀ n ∈ program.items, n.Built signature) (hinput : settings.input.Plain)
    (hM : M.Conforms (.built signature)) (depth : Nat) (print : Bool) :
    Conforming (.built signature) settings M
      (Run.evaluation (Eval.nested depth) program print) (Value.Conforms (.built signature)) := by
  have hinput := (Discipline.built signature).knowledge.plain hinput
  have hrun := nested_conforms Discipline.built_closed Discipline.built_hereditary hinput depth
  exact hrun.evaluation Discipline.built_hereditary hinput hM (fun n hn => .inl (hprogram n hn))
    print

namespace Session

/-- Everything that a session holds may be run. -/
structure Conforms (D : Discipline) (session : Session) : Prop where
  input : session.settings.input.Plain
  machine : session.machine.Conforms D

/-- A session starts, and may run what it starts with. -/
theorem conforms_start {input : Value} (hinput : input.Plain)
    (hcalls : Grammar.Listed signature Builtin.calls) (precision : Nat) (dictionary : Dictionary)
    (output : Output) :
    ∃ session, start precision input dictionary output = .ok session ∧
      session.Conforms (.built signature) := by
  obtain ⟨functions, hscope, hfunctions⟩ := Builtin.startScope_cases input hcalls
  refine ⟨⟨⟨precision, input, dictionary, defaultDepth⟩, Builtin.calls,
    ⟨⟨Builtin.startValues input, functions, none⟩, [], .empty, .root, output⟩⟩, ?_, hinput,
    ⟨?_, ?_⟩, ?_, ?_⟩
  · unfold start
    rw [hscope]
    rfl
  · exact fun name v hv =>
      (Discipline.built signature).knowledge.plain (plain_startValues hinput hv)
  · exact fun name f hf => hfunctions name f (mem_of_find? hf)
  · exact fun v hv => by simp [Lookback.empty] at hv
  · exact fun label p hfind => by simp [Store.find?] at hfind

/-- A session that has run programs, one after another, whether or not they failed. -/
inductive Opened : Session → Prop where
  | start {precision : Nat} {input : Value} {dictionary : Dictionary} {output : Output}
      {session : Session} (hinput : input.Plain)
      (hstart : Session.start precision input dictionary output = .ok session) : Opened session
  | step {session : Session} (h : Opened session) (source : String) :
      Opened (session.step source).2

/-- A session goes on in a machine that conforms, also when a program fails. -/
theorem Conforms.evaluate {session : Session} (h : session.Conforms (.built signature))
    {program : Program} (hprogram : ∀ n ∈ program.items, n.Built signature) :
    (session.evaluate program).2.Conforms (.built signature) := by
  have hrun := program_conforming hprogram h.input h.machine session.settings.depth
  unfold Session.evaluate perform evaluator
  cases hresult : Eval.program (Eval.nested session.settings.depth) program session.settings
      session.machine with
  | ok v M' => exact ⟨h.input, (hrun.ok hresult).1⟩
  | error halt M' => exact ⟨h.input, (hrun.error hresult).1⟩

/-- Sessions run only what the grammar builds. -/
theorem Opened.conforms {session : Session} (h : session.Opened) :
    session.Conforms (.built anyCount) := by
  induction h with
  | start hinput hstart =>
      obtain ⟨session, hstart', hconforms⟩ :=
        conforms_start hinput (fun _ _ _ => trivial) _ _ _
      rw [hstart] at hstart'
      obtain rfl := Except.ok.inj hstart'
      exact hconforms
  | @step session _ source ih =>
      -- A source text that is refused leaves the machine as it was.
      unfold Session.step Session.read Builtin.readSource
      cases htokens : tokenize source with
      | error failure => exact ⟨ih.input, ih.machine⟩
      | ok tokens =>
          cases hparse : (parse tokens session.calls).1 with
          | error stop =>
              simp only [hparse]
              exact ⟨ih.input, ih.machine⟩
          | ok program =>
              simp only [hparse]
              have hconforms : Conforms (.built anyCount)
                { session with calls := (parse tokens session.calls).2 } := ⟨ih.input, ih.machine⟩
              exact hconforms.evaluate (built_of_parse htokens hparse)

end Session

/-! ## Proper trees -/

/-- Whether a binary operator has with it what belongs to it: a zip may have a combinator. -/
def BinaryOp.carries : BinaryOp → Extra → Bool
  | .zip, .zip _ => true
  | _, .none => true
  | _, _ => false

/-- Whether a trailing operator has with it what belongs to it: a base conversion its codes. -/
def TrailingOp.carries : TrailingOp → Extra → Bool
  | .base, .base _ codes => !codes.isEmpty
  | .base, _ => false
  | _, .none => true
  | _, _ => false

namespace Node

def isCall : Node → Bool
  | .call .. => true
  | _ => false

/-- Whether a node has with it what belongs to it, and operands of the right kind. -/
def proper : Node → Bool
  | .hook .. => false
  | .array body _ => body.items.countP isBlock ≤ 1
  | .leading op _ extra _ => op.carries extra
  | .binary op left right extra _ => op.carries extra && left.canBeLeft && !right.isBlock &&
      !right.isFold && (op != .call || right.isCall)
  | .trailing op arg extra _ => op.carries extra && arg.canBeLeft
  | _ => true

namespace Built

theorem proper {n : Node} (h : n.Built signature) : n.proper = true := by
  cases h with
  | text | numeral | var | call | define | group | block => rfl
  | array _ _ hblocks => simpa [Node.proper] using hblocks
  | leading position hop harg => exact carries (.leading position hop harg)
  | filter position hop hbody harg => exact carries (.filter position hop hbody harg)
  | fold => rfl
  | dot _ _ _ _ _ hopen => simp [Node.proper, BinaryOp.carries, hopen, isBlock, isFold, isCall]
  | zipWith _ _ _ hopen _ hblock hfold =>
      simp [Node.proper, BinaryOp.carries, hopen, hblock, hfold]
  | binary _ hop _ hopen _ hblock hfold =>
      have hcarries (op : BinaryOp) : op.carries .none = true := by cases op <;> rfl
      simp [Node.proper, hcarries, hopen, hblock, hfold, hop]
  | @trailing op _ _ hop _ hopen =>
      have hcarries : op.carries .none = true := by cases op <;> first | rfl | cases hop
      simp [Node.proper, hcarries, hopen]
  | base _ hcodes _ hopen => simp [Node.proper, TrailingOp.carries, hcodes, hopen]

/-- If nothing is asked of numbers of arguments, then everything in a tree is built. -/
theorem child {n m : Node} (h : n.Built anyCount) (hm : m ∈ n.children) : m.Built anyCount := by
  simp only [children, List.mem_append, List.mem_flatMap, List.mem_map, Option.mem_toList] at hm
  rcases hm with ((hoperand | ⟨b, hb, hm⟩) | ⟨c, hc, rfl⟩) | ⟨f, hf, rfl⟩
  -- The operands of a built node are evaluated, but for a call behind a dot.
  · have hbuilt := h
    cases h with
    | dot callPosition _ _ hargs hleft _ =>
        rcases List.mem_pair.1 hoperand with rfl | rfl
        · exact hleft
        · exact .call callPosition trivial hargs
    | binary _ hop _ _ _ _ _ => exact hbuilt.evaluated (by rwa [evaluated_binary hop])
    | _ => exact hbuilt.evaluated hoperand
  · exact h.blocks hb m hm
  · exact h.combinators hc
  · cases h with
    | define _ _ hbody => exact Option.some.inj hf ▸ hbody
    | _ => cases hf

theorem contains {n m : Node} (h : n.Built anyCount) (hm : n.Contains m) : m.Built anyCount := by
  induction hm with
  | refl => exact h
  | tail _ hstep ih => exact ih.child hstep

end Built

end Node

/-- Everything in a program that is read from a source text is proper: operators carry what belongs
to them, and have operands of the right kind.  So no session, whatever it has run before, fails for
the lack of a block or of operands that are not evaluated when it evaluates the program. -/
theorem parse_proper {source : String} {tokens : List Token} {calls : CallTable}
    {program : Program} (htokens : tokenize source = .ok tokens)
    (hparse : (parse tokens calls).1 = .ok program) :
    (∀ item ∈ program.items, ∀ n, item.Contains n → n.proper = true) ∧
      ∀ session : Session, session.Opened → ∀ depth print position,
        outcome (Run.evaluation (Eval.nested depth) program print) session.settings
            session.machine ≠ .error (.fault (.mismatch .noBlock position)) ∧
          ∀ op, outcome (Run.evaluation (Eval.nested depth) program print) session.settings
            session.machine ≠ .error (.fault (.mismatch (.unevaluated op) position)) := by
  have hbuilt := built_of_parse htokens hparse
  refine ⟨fun item hitem n hn => ((hbuilt item hitem).contains hn).proper, ?_⟩
  intro session hsession depth print position
  have hconforms := hsession.conforms
  have hrun := evaluation_conforming hbuilt hconforms.input hconforms.machine depth print
  -- The only errors beyond the ordinary ones are about numbers of arguments.
  constructor
  · intro hfails
    rcases hrun.of_outcome hfails with hordinary | ⟨_, _, _, _, heq, -⟩
    · exact hordinary
    · cases heq
  · intro op hfails
    rcases hrun.of_outcome hfails with hordinary | ⟨_, _, _, _, heq, -⟩
    · exact hordinary
    · cases heq

namespace Varied

/-- A source text with a filter, a fold, a zip, a base conversion, a sequence and a call. -/
def source : String :=
  "f(a):=a+1,$x\x7bx>1\x7d[1 2],*\x7b_+1\x7d\\[4 5],[1 2]@-[3],9;4bd,[1 \x7b_*2\x7d],3.f"

def tokens : List Token := (tokenize source).toOption.getD []

theorem tokenize_source : tokenize source = .ok tokens := by
  decide +kernel

theorem isOk_parse : (parse tokens Builtin.calls).1.isOk = true := by
  decide +kernel

/-- The tree of the source text is proper, and a session that has run nothing else evaluates it
without an error about what operators need. -/
theorem proper_of_parse :
    ∃ program session, tokenize source = .ok tokens ∧
      (parse tokens Builtin.calls).1 = .ok program ∧ Session.Opened session ∧
      (∀ item ∈ program.items, ∀ n, item.Contains n → n.proper = true) ∧
      ∀ depth position,
        outcome (Run.evaluation (Eval.nested depth) program true) session.settings
          session.machine ≠ .error (.fault (.mismatch .noBlock position)) := by
  obtain ⟨program, hparse⟩ := Builtin.exists_of_isOk isOk_parse
  obtain ⟨session, hstart, -⟩ := Session.conforms_start (.text "") (fun _ _ _ => trivial) 25 .empty
    .unlimited
  have hopened : session.Opened := .start (.text "") hstart
  obtain ⟨hproper, hruns⟩ := parse_proper tokenize_source hparse
  exact ⟨program, session, tokenize_source, hparse, hopened, hproper,
    fun depth position => (hruns session hopened depth true position).1⟩

end Varied

end Terse
