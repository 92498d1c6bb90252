import Terse.Builtin
import Terse.Proofs.RoundTrip
import Terse.Proofs.ScopeFree

/-!
# Folds and zips with an operator

The combinator of a fold or a zip is read between the two reserved names, and is applied in a scope
in which these are bound to the operands.  Where it is a single operator that needs only the values
of its operands, nothing of this can be seen: the fold is a left fold of the operator, the zip
applies the operator to elements at equal places, and the scope around keeps its bindings.

* `Mimics` compares a computation that runs in inner scopes with one that does not look at scopes.
* `mimics_applyCombinator` is the step: one application of the combinator.
* `mimics_combine` and `mimics_mapM` are the loops.

## Strategy

An application of the combinator merges the scope that it ran in into the scope around it.  The two
differ in the reserved names only, and these are left out, so the merged scope has the same
bindings.  It need not be the same scope, since a merge writes the bindings anew.  `Mimics` allows
for this: the machine at the end may have another scope with the same bindings (`SameBindings`).
The operator does not look at scopes (`ScopeFree`), so the next application does not depend on which
of these scopes it starts in.
-/

namespace Terse

open Eval (outcome final)

/-! ## Scopes with the same bindings -/

/-- Two scopes that bind the same variables and functions in the same way. -/
structure SameBindings (scope scope' : Scope) : Prop where
  values : ∀ name, scope'.lookup name = scope.lookup name
  functions : ∀ name, scope'.function? name = scope.function? name

namespace SameBindings

variable {scope scope' scope'' : Scope}

theorem refl (scope : Scope) : SameBindings scope scope := ⟨fun _ => rfl, fun _ => rfl⟩

theorem trans (h : SameBindings scope scope') (h' : SameBindings scope' scope'') :
    SameBindings scope scope'' :=
  ⟨fun name => (h'.values name).trans (h.values name),
    fun name => (h'.functions name).trans (h.functions name)⟩

/-- Nothing is taken over from a scope that binds in another way only names that are left out. -/
theorem merge {inner : Scope} {excluded : List String}
    (hfunctions : ∀ name, inner.function? name = scope.function? name)
    (hvalues : ∀ name, name ∉ excluded → inner.lookup name = scope.lookup name) :
    SameBindings scope (scope.merge inner excluded) where
  values name := by
    rw [Scope.lookup_merge]
    cases hname : scope.lookup name with
    | none => rfl
    | some v =>
        by_cases hexcluded : name ∈ excluded
        · simp [hexcluded]
        · simp [hexcluded, hvalues name hexcluded, hname]
  functions name := by
    have hname : Bindings.find? inner.functions name = _ := hfunctions name
    rw [Scope.function?, Scope.merge, Bindings.find?_update, hname, Scope.function?]
    cases Bindings.find? scope.functions name <;> simp

end SameBindings

/-- A variable that was just bound is read as it was bound, and others as before. -/
theorem Scope.get?_set (scope : Scope) (lookback : Lookback) (name other : String) (v : Value) :
    (scope.set name v).get? lookback other =
      if other = name then some (v, lookback) else scope.get? lookback other := by
  by_cases hname : other = name
  · subst hname
    have hrecurrence : (scope.set other v).recurrence ≠ some other := by
      simp only [Scope.set]
      split
      · exact nofun
      · assumption
    simp [Scope.get?, Scope.lookup_set, hrecurrence]
  · have hrecurrence : (scope.set name v).recurrence = some other ↔
        scope.recurrence = some other := by
      simp only [Scope.set]
      split
      · rename_i hsame
        simp [hsame, Ne.symm hname]
      · exact .rfl
    simp [Scope.get?, Scope.lookup_set, hname, hrecurrence]

/-! ## Runs that differ in the scope only -/

/-- The first computation ends as the second one does, in a scope with the same bindings as at the
start. -/
def Mimics {α : Type} (x y : Eval α) : Prop :=
  ∀ (settings : Settings) (M : Machine), ∃ scope, SameBindings M.scope scope ∧
    x settings M = Eval.rescope scope (y settings M)

namespace Mimics

variable {α β : Type}

theorem pure (a : α) : Mimics (Pure.pure a) (Pure.pure a) :=
  fun _ M => ⟨M.scope, .refl _, rfl⟩

theorem bind {x y : Eval α} {f g : α → Eval β} (hx : Mimics x y) (hf : ∀ a, Mimics (f a) (g a))
    (hg : ∀ a, ScopeFree (g a)) : Mimics (x >>= f) (y >>= g) := by
  intro settings M
  obtain ⟨scope, hscope, hrun⟩ := hx settings M
  cases hy : y settings M with
  | error halt N =>
      rw [hy] at hrun
      exact ⟨scope, hscope, by rw [Eval.bind_error hrun, Eval.bind_error hy]; rfl⟩
  | ok a N =>
      rw [hy] at hrun
      -- The second part starts in another scope than `g` does, which `g` does not see.
      obtain ⟨scope', hscope', hrest⟩ := hf a settings { N with scope := scope }
      refine ⟨scope', hscope.trans hscope', ?_⟩
      rw [Eval.bind_ok hrun, Eval.bind_ok hy, hrest, hg a]
      cases g a settings N <;> rfl

/-- What follows for the outcome and for the scope, behind a step that succeeds. -/
theorem spec {x : Eval α} {f : α → Eval β} {y : Eval β} {settings : Settings} {M M' : Machine}
    {a : α} (hx : x settings M = .ok a M') (hf : Mimics (f a) y) :
    outcome (x >>= f) settings M = outcome y settings M' ∧
      SameBindings M'.scope (final (x >>= f) settings M).scope := by
  obtain ⟨scope, hscope, hrun⟩ := hf settings M'
  rw [outcome, outcome, final, Eval.bind_ok hx, hrun]
  cases y settings M' with
  | ok b N => exact ⟨rfl, hscope⟩
  | error halt N => exact ⟨rfl, hscope⟩

end Mimics

/-! ## What an operator makes of lists -/

namespace Eval

variable (run : Evaluator) (op : BinaryOp) (position : Position)

/-- The left fold of an operator: `v₁`, `v₁ op v₂`, `(v₁ op v₂) op v₃` and so on; the empty text
without values. -/
def foldLeft : List Value → Eval Value
  | [] => return .empty
  | first :: rest => rest.foldlM (fun v w => applyBinary run op v w position) first

/-- The results of an operator on elements at equal places, as many as the shorter list has. -/
def zipWith : List Value → List Value → Eval (List Value)
  | v :: lefts, w :: rights => do
    let first ← applyBinary run op v w position
    return first :: (← zipWith lefts rights)
  | _, _ => return []

end Eval

theorem ScopeFree.zipWith {run : Evaluator} (op : BinaryOp) (position : Position)
    (lefts rights : List Value) : ScopeFree (Eval.zipWith run op position lefts rights) := by
  induction lefts generalizing rights with
  | nil => exact .pure []
  | cons v lefts ih =>
      cases rights with
      | nil => exact .pure []
      | cons w rights =>
          exact .bind (.applyBinary op v w position) fun _ => .bind (ih rights) fun _ => .pure _

/-! ## One application -/

/-- The combinator of an operator between the two reserved names. -/
def BinaryOp.combinator (op : BinaryOp) (opPosition position : Position) : Combinator :=
  ⟨.binary op (.var leftName position) (.var rightName position) .none opPosition, position⟩

theorem Eval.binary_of_strict {op : BinaryOp} (hop : op.strict = true) (run : Evaluator)
    (left right : Node) (extra : Extra) (position : Position) :
    Eval.binary run op left right extra position = (do
      let first ← run left
      let second ← run right
      Eval.applyBinary run op first second position) := by
  cases op <;> first | rfl | cases hop

section

variable {op : BinaryOp} (hop : op.strict = true) (opPosition position : Position) (d : Nat)
include hop

/-- The combinator of an operator applies the operator to the operands. -/
theorem mimics_applyCombinator (v w : Value) :
    Mimics (Eval.applyCombinator (Eval.nested (d + 2)) (op.combinator opPosition position) v w)
      (Eval.applyBinary (Eval.nested (d + 1)) op v w opPosition) := by
  intro settings M
  -- The scope of the application, in which the reserved names are read as the operands.
  let inner := (M.scope.set leftName v).set rightName w
  have hleft : Eval.nested (d + 1) (.var leftName position) settings { M with scope := inner } =
      .ok v { M with scope := inner } :=
    Eval.readVariable_ok (by simp [inner, Scope.get?_set, show leftName ≠ rightName by decide])
  have hright : Eval.nested (d + 1) (.var rightName position) settings { M with scope := inner } =
      .ok w { M with scope := inner } :=
    Eval.readVariable_ok (by simp [inner, Scope.get?_set])
  have hexpr : Eval.nested (d + 2) (op.combinator opPosition position).expr settings
      { M with scope := inner } =
        Eval.rescope inner
          (Eval.applyBinary (Eval.nested (d + 1)) op v w opPosition settings M) := by
    have hnode : Eval.nested (d + 2) (op.combinator opPosition position).expr =
        Eval.binary (Eval.nested (d + 1)) op (.var leftName position) (.var rightName position)
          .none opPosition := rfl
    rw [hnode, Eval.binary_of_strict hop, Eval.bind_ok hleft, Eval.bind_ok hright]
    exact ScopeFree.applyBinary op v w opPosition settings M inner
  have hbindings : SameBindings M.scope (M.scope.merge inner [leftName, rightName]) := by
    refine .merge (fun _ => rfl) fun name hname => ?_
    obtain ⟨hleft, hright⟩ : name ≠ leftName ∧ name ≠ rightName := by simpa using hname
    rw [Scope.lookup_set, if_neg hright, Scope.lookup_set, if_neg hleft]
  -- After a failure no scope is merged, and the one around stays as it was.
  rw [Eval.applyCombinator_eq]
  cases hrun : Eval.applyBinary (Eval.nested (d + 1)) op v w opPosition settings M with
  | ok a N =>
      rw [hrun] at hexpr
      refine ⟨_, hbindings, ?_⟩
      rw [Eval.inChild_ok hexpr]
      rfl
  | error halt N =>
      rw [hrun] at hexpr
      refine ⟨M.scope, .refl _, ?_⟩
      rw [Eval.inChild_error hexpr]
      rfl

/-! ## Loops -/

/-- Combining from left to right is a left fold of the operator. -/
theorem mimics_combine (v : Value) (rest : List Value) :
    Mimics (Eval.combine (Eval.nested (d + 2)) (op.combinator opPosition position) v rest)
      (rest.foldlM (fun v w => Eval.applyBinary (Eval.nested (d + 1)) op v w opPosition) v) := by
  induction rest generalizing v with
  | nil => exact .pure v
  | cons w rest ih =>
      rw [List.foldlM_cons]
      exact .bind (mimics_applyCombinator hop opPosition position d v w) ih fun a =>
        .foldlM rest (fun v w => .applyBinary op v w opPosition) a

/-- Combining elements at equal places applies the operator to them. -/
theorem mimics_mapM (lefts rights : List Value) :
    Mimics ((lefts.zip rights).mapM fun pair => Eval.applyCombinator (Eval.nested (d + 2))
        (op.combinator opPosition position) pair.1 pair.2)
      (Eval.zipWith (Eval.nested (d + 1)) op opPosition lefts rights) := by
  induction lefts generalizing rights with
  | nil => exact .pure []
  | cons v lefts ih =>
      cases rights with
      | nil => exact .pure []
      | cons w rights =>
          rw [List.zip_cons_cons, List.mapM_cons]
          refine .bind (mimics_applyCombinator hop opPosition position d v w) (fun first => ?_)
            fun _ => .bind (.zipWith op opPosition lefts rights) fun _ => .pure _
          exact .bind (ih rights) (fun others => .pure (first :: others)) fun _ => .pure _

end

/-! ## Nodes -/

section

variable (run : Evaluator) (c : Combinator) (position : Position)

/-- What a fold does with its elements. -/
def Eval.combineAll : List Value → Eval Value
  | [] => return .empty
  | first :: rest => Eval.combine run c first rest

/-- The elements of a fold, from the operand on. -/
def Eval.elementsOf (arg : Node) (map : Option Block) : Eval (List Value) := do
  Eval.foldElements run (← run arg) map position

/-- The elements of both operands of a zip, from the operands on. -/
def Eval.elementsOfBoth (left right : Node) : Eval (List Value × List Value) := do
  let first ← run left
  let second ← run right
  Eval.zipOperands run first second position

theorem Eval.node_fold (arg : Node) (map : Option Block) :
    Eval.node run (.leading .fold arg (.fold map (some c)) position) =
      Eval.elementsOf run position arg map >>= Eval.combineAll run c := by
  rw [Eval.elementsOf, bind_assoc]
  refine congrArg (run arg >>= ·) (funext fun operand => ?_)
  cases operand <;> cases map <;> rfl

theorem Eval.node_zip (left right : Node) :
    Eval.node run (.binary .zip left right (.zip c) position) =
      Eval.elementsOfBoth run position left right >>= fun elements => do
        return .array (← (elements.1.zip elements.2).mapM fun pair =>
          Eval.applyCombinator run c pair.1 pair.2) := by
  simp only [Eval.elementsOfBoth, bind_assoc]
  rfl

end

/-- A fold or a zip whose combinator is an operator that needs only the values of its operands.  The
combinator is what the operator alone is read as, where the reserved names are not names of
functions.  Once the elements are there, a fold gives what a left fold of the operator gives,
whether that is a value or the error of the first application that fails; a zip gives the results
for elements at equal places, up to the end of the shorter list, or the first error.  Neither
changes what the scope binds. -/
theorem fold_zip_operator {op : BinaryOp} (hop : op.strict = true) {calls : CallTable}
    (hleft : calls.find? leftName = none) (hright : calls.find? rightName = none)
    (opPosition position : Position) (rest : List Token) (finish : Position) :
    ∃ c : Combinator,
      (∃ D, ∀ D' ≥ D, Grammar.combinator (Grammar.ofDepth D') [op.token opPosition] position
        ⟨rest, finish, calls⟩ = .ok c ⟨rest, finish, calls⟩) ∧
      ∀ (d : Nat) (settings : Settings) (M M' : Machine),
        (∀ arg map foldPosition elements,
          Eval.elementsOf (Eval.nested (d + 2)) foldPosition arg map settings M =
            .ok elements M' →
          let fold := Eval.nested (d + 3) (.leading .fold arg (.fold map (some c)) foldPosition)
          outcome fold settings M =
              outcome (Eval.foldLeft (Eval.nested (d + 1)) op opPosition elements) settings M' ∧
            SameBindings M'.scope (final fold settings M).scope) ∧
        (∀ left right zipPosition lefts rights,
          Eval.elementsOfBoth (Eval.nested (d + 2)) zipPosition left right settings M =
            .ok (lefts, rights) M' →
          let zip := Eval.nested (d + 3) (.binary .zip left right (.zip c) zipPosition)
          outcome zip settings M = outcome (.array <$>
              Eval.zipWith (Eval.nested (d + 1)) op opPosition lefts rights) settings M' ∧
            SameBindings M'.scope (final zip settings M).scope) := by
  have hcall : op ≠ .call := by
    rintro rfl
    cases hop
  obtain ⟨D, hread⟩ :=
    (Grammar.reads_combinator hcall hleft hright opPosition position rest finish).runs
  refine ⟨op.combinator opPosition position, ⟨D, fun D' hD => hread.mono hD⟩, ?_⟩
  intro d settings M M'
  refine ⟨fun arg map foldPosition elements helements => ?_,
    fun left right zipPosition lefts rights helements => ?_⟩
  · intro fold
    have hfold : fold = _ := Eval.node_fold (Eval.nested (d + 2)) _ foldPosition arg map
    rw [hfold]
    refine Mimics.spec helements ?_
    cases elements with
    | nil => exact .pure Value.empty
    | cons first others => exact mimics_combine hop opPosition position d first others
  · intro zip
    have hzip : zip = _ := Eval.node_zip (Eval.nested (d + 2)) _ zipPosition left right
    rw [hzip, map_eq_pure_bind]
    refine Mimics.spec helements ?_
    exact .bind (mimics_mapM hop opPosition position d lefts rights) (fun _ => .pure _)
      fun _ => .pure _

namespace Joining

/-- The machine that binds `x` and nothing else. -/
def start : Machine := { Machine.blank with scope := Scope.empty.set "x" (.text "kept") }

/-- The array `["a" "b" "c"]`. -/
def letters : Node := .array ⟨["a", "b", "c"].map (.text · .double .start), .start⟩ .start

/-- The array `["d" "e"]`. -/
def others : Node := .array ⟨["d", "e"].map (.text · .double .start), .start⟩ .start

/-- With `|` read as a combinator, the fold of three letters is their text, and a zip with two
others has two elements; the bindings are kept. -/
theorem fold_zip_letters : ∃ c : Combinator,
    outcome (Eval.nested 4 (.leading .fold letters (.fold none (some c)) .start)) .small start =
        .ok (.text "abc") ∧
      outcome (Eval.nested 4 (.binary .zip letters others (.zip c) .start)) .small start =
        .ok (.array [.text "ad", .text "be"]) ∧
      (final (Eval.nested 4 (.binary .zip letters others (.zip c) .start)) .small
        start).scope.lookup "x" = some (.text "kept") := by
  obtain ⟨c, -, hc⟩ := @fold_zip_operator .concat rfl Builtin.calls (by decide)
    (by decide) .start .start [] .start
  obtain ⟨hfold, hzip⟩ := hc 1 .small start start
  obtain ⟨hfolded, -⟩ := hfold letters none .start [.text "a", .text "b", .text "c"] (by rfl)
  obtain ⟨hzipped, hbindings⟩ := hzip letters others .start [.text "a", .text "b", .text "c"]
    [.text "d", .text "e"] (by rfl)
  exact ⟨c, hfolded.trans (by rfl), hzipped.trans (by rfl), (hbindings.values "x").trans (by rfl)⟩

end Joining

end Terse
