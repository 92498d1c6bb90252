import Terse.Proofs.Calls
import Terse.Proofs.Groups
import Terse.Proofs.Sorting

/-!
# The functions `max`, `min`, `mode` and `mean`

These builtin functions are programs of the language: `(:<_)?0` and `(:>_)?0` take the first of the
sorted elements, `(:<(:@)):{:{` the first element of the first of the groups sorted by length, and
`(+\)/(#)` divides the sum by the length.  On an array of numbers they give what their names say.

* `function?_statistics` says what the sources are read as.
* `exists_extreme` and `exists_mode` are about sorted numbers and sorted groups of numbers.
* `nested_extremeBody`, `nested_modeBody` and `nested_meanBody` evaluate the bodies, and
  `invoke_extreme`, `invoke_mode` and `invoke_mean` take this to the scope of the caller.

## Strategy

What the bodies compute is split from how they are evaluated.  The first part is about lists: the
first of sorted values comes before all of them, and of those that come first alike, it is the one
that stood first (`exists_first_sortValues`).  For `mode` the sorted values are groups.  Among
numbers equality is transitive, so a group consists of all numbers that are equal to its first one,
and its length is how often that one is there (`length_groupAt`).

Evaluating a body needs no induction, as there is one lemma for each kind of node in it.  Only the
fold of `mean` runs a combinator, which leaves the scope of the body with the same bindings but not
as it was.  So the length is taken in another scope, where the argument is still held.
-/

namespace Terse

open Eval (outcome final)

/-! ## What the sources are read as -/

namespace Builtin

/-- The operator that sorts upwards or downwards. -/
def sorting (descending : Bool) : LeadingOp :=
  if descending then .sortDescending else .sortAscending

/-- What `(:<_)?0` and `(:>_)?0` are read as. -/
def extremeBody (descending : Bool) : Node :=
  lone (.binary .index
    (lone (.leading (sorting descending) (argument 4) .none ⟨1, 2⟩) 2 1)
    (.numeral "0" ⟨1, 7⟩) .none ⟨1, 6⟩) 1 1

/-- What `(:<(:@)):{:{` is read as. -/
def modeBody : Node :=
  lone (.trailing .head (.trailing .head
    (lone (.leading (sorting true)
      (lone (.trailing .group (argument 5) .none ⟨1, 5⟩) 5 4) .none ⟨1, 2⟩) 2 1)
    .none ⟨1, 9⟩) .none ⟨1, 11⟩) 1 1

/-- What `(+\)/(#)` is read as. -/
def meanBody : Node :=
  lone (.binary .divide
    (lone (.leading .fold (argument 4)
      (.fold none (some (BinaryOp.add.combinator ⟨1, 2⟩ ⟨1, 3⟩))) ⟨1, 3⟩) 2 1)
    (lone (.trailing .length (argument 7) .none ⟨1, 7⟩) 7 6) .none ⟨1, 5⟩) 1 1

/-- The functions on the numbers of an array, with their bodies. -/
def statistics : List (String × Node) :=
  [("max", extremeBody true), ("min", extremeBody false), ("mode", modeBody), ("mean", meanBody)]

theorem function?_statistics {input : Value} {scope : Scope}
    (hscope : startScope input = .ok scope) :
    ∀ entry ∈ statistics, scope.function? entry.1 = some ⟨[implicitName], entry.2⟩ := by
  have hread (name source : String) (n : Node) (hmem : ⟨name, ["_"], .source source⟩ ∈ all)
      (hnode : node ⟨name, ["_"], .source source⟩ = .ok n) :
      scope.function? name = some ⟨[implicitName], n⟩ :=
    function?_of_startScope hscope hmem hnode
  simp only [statistics, List.forall_mem_cons]
  exact ⟨hread "max" "(:<_)?0" (extremeBody true) (by simp [all]) rfl,
    hread "min" "(:>_)?0" (extremeBody false) (by simp [all]) rfl,
    hread "mode" "(:<(:@)):\x7b:\x7b" modeBody (by simp [all]) rfl,
    hread "mean" "(+\\)/(#)" meanBody (by simp [all]) rfl, List.forall_mem_nil _⟩

end Builtin

/-! ## Extremes and modes -/

/-- The first of the sorted numbers. -/
theorem exists_extreme (descending : Bool) {numbers : List Decimal} (hne : numbers ≠ []) :
    ∃ m ∈ numbers, (sortValues descending (numbers.map .number)).head? = some (.number m) ∧
      ∀ n ∈ numbers, if descending then n.toRat ≤ m.toRat else m.toRat ≤ n.toRat := by
  have hvalues : numbers.map Value.number ≠ [] := by simpa using hne
  obtain ⟨before, v, after, rest, hsplit, hsorted, -, hfirst⟩ :=
    exists_first_sortValues descending hvalues
  have hv : v ∈ numbers.map Value.number := by simp [hsplit]
  obtain ⟨m, hm, rfl⟩ := List.mem_map.1 hv
  refine ⟨m, hm, by rw [hsorted, List.head?_cons], fun n hn => ?_⟩
  exact Value.sortsBefore_number.1 (hfirst _ (List.mem_map_of_mem hn))

/-- How many of some numbers are equal to a number. -/
def countOf (numbers : List Decimal) (n : Decimal) : Nat := numbers.countP (·.equal n)

section

variable {numbers : List Decimal} {heads : List Value} {groups : List (List Value)}
  (h : Grouped (numbers.map .number) heads groups)
include h

/-- Among numbers, those of one group are equal. -/
theorem placeAmong_eq_iff {a b : Decimal} (ha : a ∈ numbers) (hb : b ∈ numbers) :
    placeAmong heads (.number a) = placeAmong heads (.number b) ↔ a.toRat = b.toRat := by
  constructor
  · intro hplace
    obtain ⟨head, hhead, ha'⟩ := h.exists_head (List.mem_map_of_mem ha)
    obtain ⟨head', hhead', hb'⟩ := h.exists_head (List.mem_map_of_mem hb)
    obtain rfl : head = head' := by
      rw [hplace, hhead'] at hhead
      exact (Option.some.inj hhead).symm
    -- Both are equal to the head, which is a number.
    obtain ⟨k, -, rfl⟩ := List.mem_map.1 (h.mem_of_getElem? hhead)
    rw [Value.looseEq, Decimal.equal_iff] at ha' hb'
    exact ha'.symm.trans hb'
  · intro hvalue
    exact congrArg heads.findIdx (funext (Value.looseEq_number_congr hvalue))

theorem length_groupAt {n : Decimal} (hn : n ∈ numbers) :
    (groupAt heads (numbers.map .number) (placeAmong heads (.number n))).length =
      countOf numbers n := by
  rw [groupAt, ← List.countP_eq_length_filter, List.countP_map, countOf]
  refine List.countP_congr fun m hm => ?_
  simp only [Function.comp_apply, beq_iff_eq]
  rw [placeAmong_eq_iff h hm hn, Decimal.equal_iff]

end

/-- The first element of the first of the longest groups: no number is there more often, and every
number in front of it is there less often. -/
theorem exists_mode {numbers : List Decimal} (hne : numbers ≠ []) :
    ∃ group others before m after,
      sortValues true ((groupValues (numbers.map .number)).map .array) = .array group :: others ∧
      group.head? = some (.number m) ∧ numbers = before ++ m :: after ∧
      (∀ n ∈ numbers, countOf numbers n ≤ countOf numbers m) ∧
      ∀ n ∈ before, countOf numbers n < countOf numbers m := by
  have h := grouped (numbers.map .number)
  generalize groupHeads (numbers.map .number) = heads at h
  generalize groupValues (numbers.map .number) = groups at h
  have hgroup {n : Decimal} (hn : n ∈ numbers) := h.getElem? (h.placed _ (List.mem_map_of_mem hn))
  have hgroups : groups.map Value.array ≠ [] := by
    obtain ⟨n, hn⟩ := List.exists_mem_of_ne_nil numbers hne
    have hmem := List.mem_of_getElem? (hgroup hn)
    simpa using List.ne_nil_of_mem hmem
  -- The first of the sorted groups is the first one of the greatest length.
  obtain ⟨shorter, v, after, others, hsplit, hsorted, hshorter, hlongest⟩ :=
    exists_first_sortValues true hgroups
  obtain ⟨front, back, rfl, rfl, hback⟩ := List.map_eq_append_iff.1 hsplit
  obtain ⟨group, back, rfl, rfl, rfl⟩ := List.map_eq_cons_iff.1 hback
  obtain ⟨head, hhead, rfl⟩ := h.exists_head_of_append
  obtain ⟨earlier, later, hvalues, hearlier⟩ := h.first _ head hhead
  obtain ⟨before, rest, hnumbers, rfl, hrest⟩ := List.map_eq_append_iff.1 hvalues
  obtain ⟨m, after, rfl, rfl, rfl⟩ := List.map_eq_cons_iff.1 hrest
  have hm : m ∈ numbers := by simp [hnumbers]
  have hcount := length_groupAt h hm
  rw [h.own _ _ hhead] at hcount
  refine ⟨_, others, before, m, after, hsorted, h.head?_groupAt hhead, hnumbers, fun n hn => ?_,
    fun n hn => ?_⟩
  · have hmem := List.mem_of_getElem? (hgroup hn)
    rw [← length_groupAt h hn, ← hcount]
    exact Value.sortsBefore_array.1 (hlongest _ (List.mem_map_of_mem hmem))
  · -- a number in front of the first one of the group belongs to a group in front of it
    have hplace := hearlier _ (List.mem_map_of_mem hn)
    have hn' : n ∈ numbers := by simp [hnumbers, hn]
    have hmem := hgroup hn'
    rw [List.getElem?_append_left hplace] at hmem
    have hfalse := hshorter _ (List.mem_map_of_mem (List.mem_of_getElem? hmem))
    rw [← length_groupAt h hn', ← hcount, ← Nat.not_le, ← Value.sortsBefore_array, hfalse]
    exact Bool.false_ne_true

/-! ## Evaluating the bodies -/

namespace Eval

open Builtin

variable {settings : Settings} {N : Machine} {d : Nat} {position : Position}

theorem nested_sorting {arg : Node} {items : List Value} (descending : Bool)
    (harg : nested d arg settings N = .ok (.array items) N) :
    nested (d + 1) (.leading (sorting descending) arg .none position) settings N =
      .ok (.array (sortValues descending items)) N := by
  cases descending with
  | false =>
      show (nested d arg >>= fun v => sort (nested d) v false position) settings N = _
      rw [bind_ok harg]
      rfl
  | true =>
      show (nested d arg >>= fun v => sort (nested d) v true position) settings N = _
      rw [bind_ok harg]
      rfl

theorem nested_zero :
    nested (d + 1) (.numeral "0" position) settings N = .ok (.number .zero) N := by
  show number .zero position settings N = _
  rw [number_eq, Decimal.round_zero Decimal.toRat_zero]
  rfl

theorem index_zero {run : Evaluator} (items : List Value) :
    index run (.array items) (.number .zero) position settings N =
      .ok (items.head?.getD .empty) N := by
  simp only [index, toNumber_number, pure_bind, List.head?_eq_getElem?]
  rfl

/-- The body of `max` or `min` gives the first of the sorted elements. -/
theorem nested_extremeBody (settings : Settings) (d : Nat) (descending : Bool) {items : List Value}
    (h : Holds N (.array items)) :
    nested (d + 5) (extremeBody descending) settings N =
      .ok ((sortValues descending items).head?.getD .empty) N := by
  have hsorted : nested (d + 3)
      (lone (.leading (sorting descending) (argument 4) .none ⟨1, 2⟩) 2 1) settings N =
        .ok (.array (sortValues descending items)) N := by
    rw [nested_lone]
    exact nested_sorting descending (nested_argument h 4)
  rw [extremeBody, nested_lone, nested_strict rfl hsorted nested_zero]
  exact index_zero _

/-- The body of `mode` gives the first element of the first of the sorted groups. -/
theorem nested_modeBody (settings : Settings) (d : Nat) {items group others : List Value}
    (h : Holds N (.array items))
    (hfirst : sortValues true ((groupValues items).map .array) = .array group :: others) :
    nested (d + 8) modeBody settings N = .ok (group.head?.getD .empty) N := by
  have hgroups : nested (d + 3) (lone (.trailing .group (argument 5) .none ⟨1, 5⟩) 5 4) settings
      N = .ok (.array ((groupValues items).map .array)) N := by
    rw [nested_lone, nested_trailing .group (nested_argument h 5)]
    rfl
  have hsorted : nested (d + 5) (lone (.leading (sorting true)
      (lone (.trailing .group (argument 5) .none ⟨1, 5⟩) 5 4) .none ⟨1, 2⟩) 2 1) settings N =
        .ok (.array (.array group :: others)) N := by
    rw [nested_lone, nested_sorting true hgroups, hfirst]
  rw [modeBody, nested_lone]
  exact nested_trailing .head (nested_trailing .head hsorted)

/-! ## Means -/

/-- The sum from left to right, rounded at each step. -/
def sumOf (precision : Nat) : List Decimal → Except Decimal.Fault Decimal
  | [] => .ok .zero
  | first :: rest => rest.foldlM (fun sum n => ((sum + n).round precision).bounded) first

/-- The sum of some numbers, divided by a number and rounded. -/
def sumOver (precision : Nat) (numbers : List Decimal) (count : Decimal) :
    Except Decimal.Fault Decimal := do
  let sum ← sumOf precision numbers
  let quotient ← sum.divide count
  (quotient.round precision).bounded

/-- The mean of some numbers: their sum, divided by how many they are and rounded. -/
def meanOf (precision : Nat) (numbers : List Decimal) : Except Decimal.Fault Decimal := do
  let sum ← sumOf precision numbers
  ((sum.quotient (.ofInt numbers.length)).round precision).bounded

theorem sumOver_length (precision : Nat) {numbers : List Decimal} (hne : numbers ≠ []) :
    sumOver precision numbers (.ofInt numbers.length) = meanOf precision numbers := by
  have hcount : (Decimal.ofInt numbers.length).isZero ≠ true := by
    rw [ne_eq, Decimal.isZero_iff, Decimal.toRat_ofInt]
    simpa using hne
  unfold sumOver meanOf
  simp only [Decimal.divide, if_neg hcount]
  rfl

/-- A fold with `+` is the rounded sum. -/
theorem nested_sum (settings : Settings) (d : Nat) {first : Decimal} {rest : List Decimal}
    (h : Holds N (.array ((first :: rest).map .number))) :
    ∃ scope, SameBindings N.scope scope ∧ scope.recurrence = N.scope.recurrence ∧
      nested (d + 3) (.leading .fold (argument 4)
          (.fold none (some (BinaryOp.add.combinator ⟨1, 2⟩ ⟨1, 3⟩))) ⟨1, 3⟩) settings N =
        rescope scope (ofArithmetic ((sumOf settings.precision (first :: rest)).map .number) ⟨1, 2⟩
          settings N) :=
  nested_numberFold (by simp) (fun _ _ => rfl) ⟨1, 2⟩ ⟨1, 3⟩ (nested_argument h 4)

/-- The body of `mean` divides the sum by the number of elements. -/
theorem nested_meanBody (settings : Settings) (d : Nat) {numbers : List Decimal}
    (hne : numbers ≠ []) (h : Holds N (.array (numbers.map .number))) :
    ∃ scope place, SameBindings N.scope scope ∧
      nested (d + 6) meanBody settings N =
        ofArithmetic ((sumOver settings.precision numbers
          (.ofInt ↑(numbers.length % Word.count))).map .number) place settings
            { N with scope := scope } := by
  obtain ⟨first, rest, rfl⟩ := List.exists_cons_of_ne_nil hne
  obtain ⟨scope, hsame, hrecurrence, hsum⟩ := nested_sum settings d h
  rw [← nested_lone _ 2 1] at hsum
  -- An error of the sum is the error of the body.
  cases hresult : sumOf settings.precision (first :: rest) with
  | error fault =>
      rw [hresult] at hsum
      refine ⟨scope, ⟨1, 2⟩, hsame, ?_⟩
      rw [meanBody, nested_lone, sumOver, hresult]
      show binary (nested (d + 4)) .divide _ _ .none _ settings N = _
      rw [binary_of_strict rfl]
      exact bind_error hsum
  | ok sum =>
      rw [hresult] at hsum
      -- the fold keeps the argument, and what is read back
      have hheld : Holds { N with scope := scope } (.array ((first :: rest).map .number)) := by
        rw [Holds, ← h]
        simp only [Scope.get?, hrecurrence, hsame.values]
      have hlength : nested (d + 4) (lone (.trailing .length (argument 7) .none ⟨1, 7⟩) 7 6)
          settings { N with scope := scope } =
            .ok (.ofNat (first :: rest).length) { N with scope := scope } := by
        rw [nested_lone, nested_trailing .length (nested_argument hheld 7),
          ← List.length_map (f := Value.number)]
        rfl
      refine ⟨scope, ⟨1, 5⟩, hsame, ?_⟩
      rw [meanBody, nested_lone, nested_strict rfl hsum hlength, sumOver, hresult]
      refine (applyBinary_arithmetic .divide (by simp) _ _ _).trans ?_
      show ofArithmetic ((sum.divide _).bind _) _ _ _ =
        ofArithmetic (((sum.divide _).bind _).map _) _ _ _
      cases sum.divide (.ofInt ↑((first :: rest).length % Word.count)) with
      | error fault => rfl
      | ok quotient => rfl

/-! ## Calls -/

section

variable {M : Machine} {name : String} {numbers : List Decimal}

theorem invoke_extreme {descending : Bool}
    (hfunction : M.scope.function? name = some ⟨[implicitName], extremeBody descending⟩)
    (hne : numbers ≠ []) :
    let call := invoke (nested (d + 5)) name [.array (numbers.map .number)] position
    (∃ m ∈ numbers, outcome call settings M = .ok (.number m) ∧
        ∀ n ∈ numbers, if descending then n.toRat ≤ m.toRat else m.toRat ≤ n.toRat) ∧
      SameBindings M.scope (final call settings M).scope := by
  intro call
  obtain ⟨m, hm, hfirst, hextreme⟩ := exists_extreme descending hne
  have hbody := nested_extremeBody settings d descending
    (holds_argument M (.array (numbers.map .number)))
  rw [hfirst] at hbody
  obtain ⟨houtcome, hsame⟩ := invoke_of_body hfunction position hbody
  exact ⟨⟨m, hm, houtcome, hextreme⟩, hsame⟩

theorem invoke_mode
    (hfunction : M.scope.function? name = some ⟨[implicitName], modeBody⟩) (hne : numbers ≠ []) :
    let call := invoke (nested (d + 8)) name [.array (numbers.map .number)] position
    (∃ before m after, numbers = before ++ m :: after ∧ outcome call settings M = .ok (.number m) ∧
        (∀ n ∈ numbers, countOf numbers n ≤ countOf numbers m) ∧
        ∀ n ∈ before, countOf numbers n < countOf numbers m) ∧
      SameBindings M.scope (final call settings M).scope := by
  intro call
  obtain ⟨group, others, before, m, after, hsorted, hhead, hnumbers, hmost, hfirst⟩ :=
    exists_mode hne
  have hbody := nested_modeBody settings d (holds_argument M (.array (numbers.map .number))) hsorted
  rw [hhead] at hbody
  obtain ⟨houtcome, hsame⟩ := invoke_of_body hfunction position hbody
  exact ⟨⟨before, m, after, hnumbers, houtcome, hmost, hfirst⟩, hsame⟩

theorem invoke_mean
    (hfunction : M.scope.function? name = some ⟨[implicitName], meanBody⟩) (hne : numbers ≠ []) :
    let call := invoke (nested (d + 6)) name [.array (numbers.map .number)] position
    (numbers.length < Word.count →
        match meanOf settings.precision numbers with
        | .ok m => outcome call settings M = .ok (.number m)
        | .error fault => ∃ place,
          outcome call settings M = .error (.fault (.arithmetic fault place))) ∧
      SameBindings M.scope (final call settings M).scope := by
  intro call
  obtain ⟨scope, place, hscope, hbody⟩ := nested_meanBody settings d hne
    (holds_argument M (.array (numbers.map .number)))
  obtain ⟨houtcome, hsame⟩ := invoke_arithmetic hfunction position hscope hbody
  refine ⟨fun hlength => ?_, hsame⟩
  rw [Nat.mod_eq_of_lt hlength, sumOver_length _ hne] at houtcome
  cases hresult : meanOf settings.precision numbers with
  | error fault =>
      rw [hresult] at houtcome
      exact ⟨place, houtcome⟩
  | ok m =>
      rw [hresult] at houtcome
      exact houtcome

end

end Eval

/-- Wherever a session has got to, as long as the builtin functions are what they were, `max` and
`min` of one or more numbers are one of them that no other one exceeds or falls below, and `mode` is
the first of those that are there most often.  `mean` is the sum, rounded at each step, divided by
the number of elements and rounded, or the error of the first step beyond the exponent range; the
number of elements is a word, as lengths are.  None of them changes what the caller has bound. -/
theorem statistics_of_numbers (precision : Nat) (input : Value) (dictionary : Dictionary)
    (output : Output) :
    ∃ session, Session.start precision input dictionary output = .ok session ∧
      ∀ (M : Machine) (numbers : List Decimal) (position : Position),
        (∀ name, M.scope.function? name = session.machine.scope.function? name) →
        numbers ≠ [] →
        let call (name : String) :=
          Eval.invoke session.evaluator name [.array (numbers.map .number)] position
        (∃ m ∈ numbers, outcome (call "max") session.settings M = .ok (.number m) ∧
          ∀ n ∈ numbers, n.toRat ≤ m.toRat) ∧
        (∃ m ∈ numbers, outcome (call "min") session.settings M = .ok (.number m) ∧
          ∀ n ∈ numbers, m.toRat ≤ n.toRat) ∧
        (∃ before m after, numbers = before ++ m :: after ∧
          outcome (call "mode") session.settings M = .ok (.number m) ∧
          (∀ n ∈ numbers, countOf numbers n ≤ countOf numbers m) ∧
          ∀ n ∈ before, countOf numbers n < countOf numbers m) ∧
        (numbers.length < Word.count →
          match Eval.meanOf precision numbers with
          | .ok m => outcome (call "mean") session.settings M = .ok (.number m)
          | .error fault => ∃ place,
            outcome (call "mean") session.settings M = .error (.fault (.arithmetic fault place))) ∧
        ∀ name ∈ ["max", "min", "mode", "mean"],
          SameBindings M.scope (final (call name) session.settings M).scope := by
  obtain ⟨session, d, hstart, hrun, hprecision, hscope⟩ :=
    Session.exists_start precision input dictionary output
  refine ⟨session, hstart, fun M numbers position hfunctions hne => ?_⟩
  have hfunction (entry : String × Node) (hentry : entry ∈ Builtin.statistics) :
      M.scope.function? entry.1 = some ⟨[implicitName], entry.2⟩ :=
    (hfunctions entry.1).trans (Builtin.function?_statistics hscope entry hentry)
  simp only [Builtin.statistics, List.forall_mem_cons] at hfunction
  obtain ⟨hmax, hmin, hmode, hmean, -⟩ := hfunction
  rw [hrun, ← hprecision]
  obtain ⟨hmax, hmaxSame⟩ := Eval.invoke_extreme (d := d + 3) hmax hne
  obtain ⟨hmin, hminSame⟩ := Eval.invoke_extreme (d := d + 3) hmin hne
  obtain ⟨hmode, hmodeSame⟩ := Eval.invoke_mode (d := d) hmode hne
  obtain ⟨hmean, hmeanSame⟩ := Eval.invoke_mean (d := d + 2) hmean hne
  refine ⟨hmax, hmin, hmode, hmean, ?_⟩
  simp only [List.forall_mem_cons]
  exact ⟨hmaxSame, hminSame, hmodeSame, hmeanSame, List.forall_mem_nil _⟩

/-- With two digits, the mean of `9.5`, `0.55` and `0.5` is a third of `11`: the sums are `10`, from
`10.05`, and `11`, from `10.5`. -/
theorem mean_two_digits : ∃ session,
    Session.start 2 .empty (Dictionary.ofText "") .unlimited = .ok session ∧
      outcome (Eval.invoke session.evaluator "mean"
          [.array ([⟨95, 1⟩, ⟨55, 2⟩, ⟨5, 1⟩].map .number)] .start) session.settings
        session.machine = .ok (.number ⟨37, 1⟩) := by
  have hmean : Eval.meanOf 2 [⟨95, 1⟩, ⟨55, 2⟩, ⟨5, 1⟩] = .ok ⟨37, 1⟩ := by rfl
  obtain ⟨session, hstart, hsession⟩ :=
    statistics_of_numbers 2 .empty (Dictionary.ofText "") .unlimited
  obtain ⟨-, -, -, hcall, -⟩ :=
    hsession session.machine [⟨95, 1⟩, ⟨55, 2⟩, ⟨5, 1⟩] .start (fun _ => rfl) (by simp)
  have houtcome := hcall (by decide)
  rw [hmean] at houtcome
  exact ⟨session, hstart, houtcome⟩

end Terse
