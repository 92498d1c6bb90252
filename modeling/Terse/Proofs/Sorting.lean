import Mathlib.Data.String.Basic
import Mathlib.Data.Sum.Order
import Terse.Evaluation.Leading
import Terse.Proofs.Rational
import Terse.Proofs.Runs

/-!
# Sorting

Values are sorted by their keys.  Every key has a *rank* in one linear order, in which all numbers
come before all texts, and keys are compared as their ranks are (`SortKey.compares`).  So the order
is total, upwards and downwards alike, and sorting is a stable sort of the values themselves
(`sortValues_eq_mergeSort`):

* the first of the sorted values is the first one among those that no other one precedes
  (`exists_first_sortValues`);
* values of one rank keep their order (`filter_sortValues`), also when they are sorted downwards.

## Strategy

The order is taken from Mathlib: numbers by their rational values, texts as strings, and the sum of
the two with the numbers in front.  A value has the rank of its key (`SortKey.rank_ofValue`).  Keys
are made once for each value and sorted along with it, so that sorting the pairs is sorting the
values by the order of their keys.

What is stable is said without places: for each rank, the values of that rank stand in the same
order before and after.  They are a sublist of the sorted values, since a stable sort keeps what is
already sorted, and no value is lost or doubled, so there is nothing else of that rank.
-/

namespace Terse

/-! ## The order of the keys -/

namespace SortKey

/-- Where a key stands: numbers in the order of their values, and texts behind them. -/
def rank : SortKey → ℚ ⊕ₗ String
  | number n => toLex (.inl n.toRat)
  | text s => toLex (.inr s)

theorem compares (a b : SortKey) : (a.compare b).Compares a.rank b.rank := by
  cases a with
  | number a =>
      cases b with
      | number b => exact Sum.Lex.inl_strictMono.compares.2 (a.compares b)
      | text s => exact Sum.Lex.inl_lt_inr _ _
  | text s =>
      cases b with
      | number b => exact Sum.Lex.inl_lt_inr _ _
      | text t => exact Sum.Lex.inr_strictMono.compares.2 ((compare_iff s t).1 rfl)

theorem isLE_iff (a b : SortKey) : (a.compare b).isLE = true ↔ a.rank ≤ b.rank := by
  have hcompares := a.compares b
  cases hcompare : a.compare b <;> rw [hcompare] at hcompares
  · exact iff_of_true rfl (le_of_lt hcompares)
  · exact iff_of_true rfl (le_of_eq hcompares)
  · exact iff_of_false Bool.false_ne_true (not_le_of_gt hcompares)

theorem isLE_number (a b : Decimal) :
    ((number a).compare (number b)).isLE = true ↔ a.toRat ≤ b.toRat := by
  rw [isLE_iff]
  exact Sum.Lex.inl_le_inl_iff

end SortKey

/-! ## The order of the values -/

/-- Where a value stands: numbers, texts that spell a number and lengths of collections in the order
of these numbers, and behind them all other texts, among them those of blanks alone.  A sequence
without a length has the greatest word as its length. -/
def Value.rank : Value → ℚ ⊕ₗ String
  | .number n => toLex (.inl n.toRat)
  | .array items => toLex (.inl items.length)
  | .sequence s => toLex (.inl (s.length.getD Word.greatest))
  | .text s =>
    if Text.trim s = "" then toLex (.inr s)
    else match Decimal.ofText? s with
      | some n => toLex (.inl n.toRat)
      | none => toLex (.inr s)

theorem SortKey.rank_ofValue (v : Value) : (ofValue v).rank = v.rank := by
  cases v with
  | number n => rfl
  | array items => simp [ofValue, rank, Value.rank]
  | sequence s => simp [ofValue, rank, Value.rank]
  | text s =>
      rw [ofValue, Value.rank]
      split
      · rfl
      · cases Decimal.ofText? s <;> rfl

/-- Whether a value may stand in front of another one when they are sorted. -/
def Value.sortsBefore (descending : Bool) (v w : Value) : Bool :=
  if descending then ((SortKey.ofValue w).compare (SortKey.ofValue v)).isLE
  else ((SortKey.ofValue v).compare (SortKey.ofValue w)).isLE

namespace Value

variable {descending : Bool}

theorem sortsBefore_iff {v w : Value} :
    v.sortsBefore descending w = true ↔
      if descending then w.rank ≤ v.rank else v.rank ≤ w.rank := by
  cases descending
  · exact (SortKey.isLE_iff _ _).trans (by rw [SortKey.rank_ofValue, SortKey.rank_ofValue]; rfl)
  · exact (SortKey.isLE_iff _ _).trans (by rw [SortKey.rank_ofValue, SortKey.rank_ofValue]; rfl)

theorem sortsBefore_total (v w : Value) :
    (v.sortsBefore descending w || w.sortsBefore descending v) = true := by
  rw [Bool.or_eq_true, sortsBefore_iff, sortsBefore_iff]
  cases descending
  · exact le_total v.rank w.rank
  · exact le_total w.rank v.rank

theorem sortsBefore_trans (u v w : Value) (huv : u.sortsBefore descending v = true)
    (hvw : v.sortsBefore descending w = true) : u.sortsBefore descending w = true := by
  rw [sortsBefore_iff] at *
  cases descending
  · exact le_trans huv hvw
  · exact le_trans hvw huv

theorem sortsBefore_number {a b : Decimal} :
    (number a).sortsBefore descending (number b) = true ↔
      if descending then b.toRat ≤ a.toRat else a.toRat ≤ b.toRat := by
  cases descending with
  | false => exact SortKey.isLE_number a b
  | true => exact SortKey.isLE_number b a

theorem sortsBefore_array {xs ys : List Value} :
    (array xs).sortsBefore true (array ys) = true ↔ ys.length ≤ xs.length := by
  refine (SortKey.isLE_number _ _).trans ?_
  rw [Decimal.toRat_ofInt, Decimal.toRat_ofInt, Int.cast_le, Int.ofNat_le]

end Value

/-! ## Sorted values -/

/-- Sorting by keys is sorting by the order that the keys give the values. -/
theorem sortValues_eq_mergeSort (descending : Bool) (values : List Value) :
    sortValues descending values = values.mergeSort (Value.sortsBefore descending) := by
  let key (v : Value) := (SortKey.ofValue v, v)
  let before (a b : SortKey × Value) : Bool :=
    if descending then (b.1.compare a.1).isLE else (a.1.compare b.1).isLE
  have hkeyed : (values.mergeSort (Value.sortsBefore descending)).map key =
      (values.map key).mergeSort before :=
    List.map_mergeSort fun _ _ _ _ => rfl
  show ((values.map key).mergeSort before).map (·.2) = _
  rw [← hkeyed, List.map_map]
  exact List.map_id _

/-- A stable sort begins with the first of the least elements. -/
theorem exists_first_mergeSort {α : Type} {le : α → α → Bool}
    (htrans : ∀ a b c, le a b = true → le b c = true → le a c = true)
    (htotal : ∀ a b, (le a b || le b a) = true) {l : List α} (hl : l ≠ []) :
    ∃ before a after rest, l = before ++ a :: after ∧ l.mergeSort le = a :: rest ∧
      (∀ b ∈ before, le b a = false) ∧ ∀ b ∈ l, le a b = true := by
  induction l with
  | nil => exact absurd rfl hl
  | cons x l ih =>
      obtain ⟨front, back, hsort, hrest, hfront⟩ := List.mergeSort_cons htrans htotal x l
      cases front with
      | nil =>
          -- nothing comes to stand in front of the new element
          have hpairwise := List.pairwise_mergeSort htrans htotal (x :: l)
          rw [hsort, List.nil_append, List.pairwise_cons] at hpairwise
          refine ⟨[], x, l, back, rfl, hsort, by simp, List.forall_mem_cons.2 ⟨?_, ?_⟩⟩
          · simpa using htotal x x
          · intro b hb
            apply hpairwise.1
            rwa [← List.nil_append back, ← hrest, List.mem_mergeSort]
      | cons y front =>
          have hne : l ≠ [] := by
            rintro rfl
            simp at hrest
          -- The new element comes to stand behind the first one of the others, which stays the
          -- first.
          obtain ⟨before, a, after, rest, hl', hsorted, hbefore, hleast⟩ := ih hne
          obtain ⟨rfl, -⟩ := List.cons.inj (hrest.symm.trans hsorted)
          have hx : le x y = false := by simpa using hfront y List.mem_cons_self
          refine ⟨x :: before, y, after, front ++ x :: back, by rw [hl']; rfl, hsort,
            List.forall_mem_cons.2 ⟨hx, hbefore⟩, List.forall_mem_cons.2 ⟨?_, hleast⟩⟩
          simpa [hx] using htotal x y

/-- The first of the sorted values is the first one that may stand in front of all others. -/
theorem exists_first_sortValues (descending : Bool) {values : List Value} (h : values ≠ []) :
    ∃ before v after rest, values = before ++ v :: after ∧
      sortValues descending values = v :: rest ∧
      (∀ w ∈ before, w.sortsBefore descending v = false) ∧
      ∀ w ∈ values, v.sortsBefore descending w = true := by
  rw [sortValues_eq_mergeSort]
  exact exists_first_mergeSort Value.sortsBefore_trans Value.sortsBefore_total h

/-- A stable sort keeps the order of elements of which each may stand in front of the others. -/
theorem filter_mergeSort {α : Type} {le : α → α → Bool}
    (htrans : ∀ a b c, le a b = true → le b c = true → le a c = true)
    (htotal : ∀ a b, (le a b || le b a) = true) (l : List α) {p : α → Bool}
    (hp : ∀ a b, p a = true → p b = true → le a b = true) :
    (l.mergeSort le).filter p = l.filter p := by
  have hpairwise : (l.filter p).Pairwise fun a b => le a b = true :=
    List.pairwise_of_forall_mem_list fun a ha b hb =>
      hp a b (List.of_mem_filter ha) (List.of_mem_filter hb)
  -- What is kept in order is a sublist, and a sublist of the same length is all.
  have hsublist : (l.filter p).Sublist ((l.mergeSort le).filter p) := by
    have hkept := (List.sublist_mergeSort htrans htotal hpairwise List.filter_sublist).filter p
    simpa only [List.filter_filter, Bool.and_self] using hkept
  have hlength : (l.filter p).length = ((l.mergeSort le).filter p).length :=
    ((List.mergeSort_perm l le).filter p).length_eq.symm
  exact (hsublist.eq_of_length hlength).symm

theorem filter_sortValues (descending : Bool) (values : List Value) (r : ℚ ⊕ₗ String) :
    (sortValues descending values).filter (·.rank = r) = values.filter (·.rank = r) := by
  rw [sortValues_eq_mergeSort]
  refine filter_mergeSort Value.sortsBefore_trans Value.sortsBefore_total values fun v w hv hw => ?_
  rw [decide_eq_true_eq] at hv hw
  rw [Value.sortsBefore_iff, hv, hw]
  simp

theorem pairwise_sortValues (descending : Bool) (values : List Value) :
    (sortValues descending values).Pairwise fun v w => v.sortsBefore descending w = true := by
  rw [sortValues_eq_mergeSort]
  exact List.pairwise_mergeSort Value.sortsBefore_trans Value.sortsBefore_total values

/-- Sorted values stay as they are when they are sorted again. -/
theorem sortValues_sortValues (descending : Bool) (values : List Value) :
    sortValues descending (sortValues descending values) = sortValues descending values := by
  have hsorted := pairwise_sortValues descending values
  rw [sortValues_eq_mergeSort descending (sortValues descending values)]
  exact List.mergeSort_of_pairwise hsorted

namespace Eval

variable {run : Evaluator} {value : Value} {items : List Value} {position : Position}
  {settings : Settings} {M M' : Machine}

/-- The operator that sorts upwards or downwards gives the sorted elements of its operand. -/
theorem applyLeading_sort (descending : Bool)
    (h : toList run value position settings M = .ok items M') :
    applyLeading run (if descending then .sortDescending else .sortAscending) value position
      settings M = .ok (.array (sortValues descending items)) M' := by
  cases descending
  · exact bind_ok h
  · exact bind_ok h

/-- Sorting the elements of a value, upwards or downwards: the result is a permutation of them in
which ranks do not fall, or do not rise, and in which the elements of each rank have the order that
they had.  Sorting it again in the same way changes nothing.  The keys are ordered as the ranks, of
which any two can be compared. -/
theorem sort_stable (descending : Bool) (h : toList run value position settings M = .ok items M') :
    let op : LeadingOp := if descending then .sortDescending else .sortAscending
    ∃ sorted, applyLeading run op value position settings M = .ok (.array sorted) M' ∧
      sorted.Perm items ∧
      (sorted.Pairwise fun v w => if descending then w.rank ≤ v.rank else v.rank ≤ w.rank) ∧
      (∀ r, sorted.filter (·.rank = r) = items.filter (·.rank = r)) ∧
      (∀ settings M, applyLeading run op (.array sorted) position settings M =
        .ok (.array sorted) M) ∧
      ∀ v w, ((SortKey.ofValue v).compare (SortKey.ofValue w)).Compares v.rank w.rank := by
  intro op
  refine ⟨sortValues descending items, applyLeading_sort descending h, ?_, ?_,
    filter_sortValues descending items, fun settings M => ?_, fun v w => ?_⟩
  · rw [sortValues_eq_mergeSort]
    exact List.mergeSort_perm _ _
  · exact (pairwise_sortValues descending items).imp fun hle => Value.sortsBefore_iff.1 hle
  · have hitems : toList run (.array (sortValues descending items)) position settings M =
        .ok (sortValues descending items) M := rfl
    rw [applyLeading_sort descending hitems, sortValues_sortValues]
  · rw [← SortKey.rank_ofValue, ← SortKey.rank_ofValue]
    exact SortKey.compares _ _

end Eval

namespace Ranked

/-- Numbers, a text that spells one, an array of two elements, and texts that spell none. -/
def items : List Value :=
  [.text "b", .number (.ofInt 2), .text " ", .text "1e1", .array [.empty, .empty], .text "02"]

/-- Sorted downwards, the three elements of rank two have the order that they had, and sorting them
once more changes nothing. -/
theorem sort_downwards : ∃ sorted,
    Eval.applyLeading (Eval.nested 8) .sortDescending (.array items) .start .small .blank =
        .ok (.array sorted) .blank ∧
      sorted.Perm items ∧
      sorted.filter (·.rank = toLex (.inl 2)) =
        [.number (.ofInt 2), .array [.empty, .empty], .text "02"] ∧
      Eval.applyLeading (Eval.nested 8) .sortDescending (.array sorted) .start .small .blank =
        .ok (.array sorted) .blank := by
  have hletter : (Value.text "b").rank = toLex (.inr "b") := by rfl
  have hblank : (Value.text " ").rank = toLex (.inr " ") := by rfl
  have hten : (Value.text "1e1").rank = toLex (.inl (⟨1, -1⟩ : Decimal).toRat) := by rfl
  have htwo : (Value.text "02").rank = toLex (.inl (⟨2, 0⟩ : Decimal).toRat) := by rfl
  have hnumber : (Value.number (.ofInt 2)).rank = toLex (.inl 2) := by simp [Value.rank]
  have harray : (Value.array [.empty, .empty]).rank = toLex (.inl 2) := by simp [Value.rank]
  have hequal : items.filter (·.rank = toLex (.inl 2)) =
      [.number (.ofInt 2), .array [.empty, .empty], .text "02"] := by
    simp [items, hletter, hblank, hten, htwo, hnumber, harray, Decimal.toRat]
  have hitems : Eval.toList (Eval.nested 8) (.array items) .start .small .blank =
      .ok items .blank := rfl
  obtain ⟨sorted, hsorted, hperm, -, hstable, hagain, -⟩ := Eval.sort_stable true hitems
  exact ⟨sorted, hsorted, hperm, (hstable _).trans hequal, hagain .small .blank⟩

end Ranked

end Terse
