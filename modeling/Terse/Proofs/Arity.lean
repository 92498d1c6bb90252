import Terse.Proofs.WellFormed

/-!
# Calls have as many arguments as their functions

The grammar reads as many arguments behind a name as the table of known functions says, which is the
number of parameters in the newest definition of the name so far.  The evaluator looks the function
up when the call is made, and by then another definition may be in force.  Where all definitions of
a name agree, and agree with the builtin function of that name, this makes no difference, and no
call is ever made with a wrong number of arguments: neither a call that is written in the program,
nor one from the body of a builtin function, nor one that a sequence makes when an element of it is
first asked for.

Most of the argument is in `Terse.Proofs.WellFormed`: a program that is read from tokens is built
from functions that are available there, it is evaluated under a discipline that allows calls of
such functions only, and the session starts in a machine that conforms to it.  An error about
arguments then names two numbers that are both available for the function, which cannot be
different.

That all definitions of a program agree can be checked on its tokens.  `definitions` lists more than
the grammar reads, as it looks at every name, but it misses no definition
(`Defines.mem_definitions`).
-/

namespace Terse

open Eval (outcome)

/-! ## The definitions in some tokens -/

/-- The number of parameters, if the tokens behind a name make it the head of a definition. -/
def headCount? : List Token → Option Nat
  | [] => none
  | token :: rest =>
    if token.isSymbol ":=" then some 0
    else if token.isSymbol "(" then
      match Grammar.readParams (.invalidDefinition "" .start) rest with
      | .ok (params, behind) =>
        if behind.head?.any (·.isSymbol ":=") then some params.length else none
      | .error _ => none
    else none

/-- The functions that some tokens define, with their numbers of parameters. -/
def definitions : List Token → List (String × Nat)
  | [] => []
  | token :: rest =>
    match token.kind, headCount? rest with
    | .name, some count => (token.text, count) :: definitions rest
    | _, _ => definitions rest

theorem Header.headCount? {header : List Token} {params : List Param} (h : Header header params)
    (rest : List Token) : headCount? (header ++ rest) = some params.length := by
  cases h with
  | bare position => rfl
  | listed opening closing assign hparams =>
      simp [Terse.headCount?, Token.isSymbol, Grammar.readParams_params hparams]

/-- Every definition in the tokens is listed. -/
theorem Defines.mem_definitions {tokens : List Token} {name : String} {count : Nat}
    (h : Defines tokens name count) : (name, count) ∈ definitions tokens := by
  obtain ⟨before, position, header, params, rest, hheader, rfl, rfl⟩ := h
  induction before with
  | nil =>
      simp only [List.nil_append, definitions, hheader.headCount?]
      exact List.mem_cons_self
  | cons token before ih =>
      simp only [List.cons_append, definitions]
      split
      · exact List.mem_cons_of_mem _ ih
      · exact ih

/-! ## Calls -/

/-- The builtin functions, and those that a program defines. -/
def Available (tokens : List Token) (name : String) (count : Nat) : Prop :=
  Builtin.calls.find? name = some count ∨ Defines tokens name count

/-- If no function of a program, builtin ones included, is defined with two different numbers of
parameters, then no call in the program has a wrong number of arguments, whatever the input, the
precision, the dictionary and the depth, and whether or not the result is printed. -/
theorem evaluation_ne_arity {source : String} {tokens : List Token} {program : Program}
    (htokens : tokenize source = .ok tokens)
    (hparse : (parse tokens Builtin.calls).1 = .ok program)
    (honce : ∀ name count count', Available tokens name count → Available tokens name count' →
      count = count')
    {input : Value} (hinput : input.Plain) (precision : Nat) (dictionary : Dictionary)
    (output : Output) :
    ∃ session, Session.start precision input dictionary output = .ok session ∧
      ∀ depth print name expected found position,
        outcome (Run.evaluation (Eval.nested depth) program print) session.settings
          session.machine ≠ .error (.fault (.arity name expected found position)) := by
  have hcalls : Grammar.Listed (Available tokens) Builtin.calls := fun _ _ hname => .inl hname
  have hfits : Fits (Available tokens) tokens :=
    ⟨fun _ _ hdefines => .inr hdefines, name_ne_of_tokenize htokens⟩
  have hbuilt := Grammar.parse_built hparse hcalls hfits
  obtain ⟨session, hstart, hconforms⟩ :=
    Session.conforms_start hinput hcalls precision dictionary output
  refine ⟨session, hstart, fun depth print name expected found position hfails => ?_⟩
  have hrun := evaluation_conforming hbuilt hconforms.input hconforms.machine depth print
  -- A call can only fail like this where both numbers belong to the name, and then they are equal.
  rcases hrun.of_outcome hfails with hordinary | ⟨_, _, _, _, heq, hexpected, hfound, hne⟩
  · exact hordinary
  · cases heq
    exact hne (honce _ _ _ hexpected hfound)

namespace Calling

/-- A source text that calls a function of its own directly, behind a dot, in a combinator and in a
generator, and a builtin function that calls another one. -/
def source : String := "f(a,b):=a+b,f 1 2,3.f 4,+f 1\\[5 6],[1 \x7b_.f 1\x7d],outl\"x\""

def tokens : List Token := (tokenize source).toOption.getD []

theorem tokenize_source : tokenize source = .ok tokens := by
  decide +kernel

theorem isOk_parse : (parse tokens Builtin.calls).1.isOk = true := by
  decide +kernel

theorem definitions_tokens : definitions tokens = [("f", 2)] := by
  decide +kernel

theorem available_unique (name : String) (count count' : Nat) (h : Available tokens name count)
    (h' : Available tokens name count') : count = count' := by
  have hbuiltin : Builtin.calls.find? "f" = none := by decide
  have hdefined : ∀ n, Defines tokens name n → name = "f" ∧ n = 2 := by
    intro n hdefines
    have hmem := hdefines.mem_definitions
    rw [definitions_tokens] at hmem
    simpa using hmem
  rcases h with h | h <;> rcases h' with h' | h'
  · exact Option.some.inj (h.symm.trans h')
  · rw [(hdefined _ h').1, hbuiltin] at h
    cases h
  · rw [(hdefined _ h).1, hbuiltin] at h'
    cases h'
  · rw [(hdefined _ h).2, (hdefined _ h').2]

/-- The source text calls functions with as many arguments as they have parameters. -/
theorem ne_arity_of_parse :
    ∃ program session, tokenize source = .ok tokens ∧
      (parse tokens Builtin.calls).1 = .ok program ∧
      Session.start 25 (.text "") .empty .unlimited = .ok session ∧
      ∀ depth name expected found position,
        outcome (Run.evaluation (Eval.nested depth) program true) session.settings
          session.machine ≠ .error (.fault (.arity name expected found position)) := by
  obtain ⟨program, hparse⟩ := Builtin.exists_of_isOk isOk_parse
  obtain ⟨session, hstart, hruns⟩ := evaluation_ne_arity tokenize_source hparse available_unique
    (.text "") 25 .empty .unlimited
  exact ⟨program, session, tokenize_source, hparse, hstart, fun depth => hruns depth true⟩

end Calling

end Terse
