import Terse.Proofs.Nearest
import Terse.Proofs.Runs

/-!
# Ranges

A range goes from its start in steps of one, and compares exact numbers with its end, while the
elements that it gives are rounded.  So the elements may repeat, but the number of them is that of
the steps: the distance from start to end, as a whole number of steps that is rounded up for a
half-open range, and rounded down with one step more for a closed one.

* `toRat_floor` ties the bound on the number of steps to the values.
* `rangeFrom_eq` is the loop: as many elements as there are steps that its test lets pass, for every
  bound that is not below that number.
* `precedes_iff` says which steps these are.

## Strategy

The loop has a bound on its steps and a test.  The test is one on rational numbers (`Precedes`), and
what it lets pass are the first steps, as many as `rangeCount` says.  The bound is not below that
(`rangeCount_le_stepsBeyond`), so the loop always ends by its test.

`rangeFrom_step` is one step.  `rangeFrom_eq` is by induction on the number of steps that are left,
for any start and any bound, since both change along the loop.  In the same way the loop fails at
the first element that cannot be given (`rangeFrom_error`).
-/

namespace Terse

namespace Decimal

/-- The floor of a number is the floor of its value. -/
theorem toRat_floor (d : Decimal) : d.floor.toRat = ⌊d.toRat⌋ := by
  unfold floor
  split
  · rename_i hscale
    have hvalue : d.toRat = d.coefficientAt 0 := by
      rw [toRat_eq_coefficientAt hscale, neg_zero, zpow_zero, mul_one]
    rw [hvalue, Int.floor_intCast]
  · rename_i hscale
    have hexponent : -d.scale = -(d.scale.toNat : ℤ) := by omega
    have hvalue : d.toRat = (d.coefficient : ℚ) / (10 ^ d.scale.toNat : ℕ) := by
      rw [toRat, hexponent, zpow_neg, zpow_natCast, div_eq_mul_inv, Nat.cast_pow, Nat.cast_ofNat]
    rw [toRat_ofInt, hvalue, Rat.floor_intCast_div_natCast,
      Int.fdiv_eq_ediv_of_nonneg _ (Int.natCast_nonneg _)]
    rfl

theorem wholePart_floor (d : Decimal) : d.floor.wholePart = ⌊d.toRat⌋ :=
  wholePart_of_toRat d.toRat_floor

theorem bounded_of_inRange {d : Decimal} (h : d.inRange = true) : d.bounded = .ok d := by
  have hmagnitude : d.magnitude.natAbs ≤ maxExponent.natAbs := of_decide_eq_true h
  rw [bounded, if_neg, if_neg] <;> (unfold maxExponent at *; omega)

end Decimal

/-! ## Which steps are taken -/

/-- A number stands in front of the end of a range, or is the end of a closed one. -/
def Precedes (closed : Bool) (x stop : ℚ) : Prop := x < stop ∨ closed = true ∧ x = stop

/-- How many steps of one there are from the start of a range on. -/
def rangeCount (closed : Bool) (start stop : ℚ) : ℕ :=
  (if closed then ⌊stop - start⌋ + 1 else ⌈stop - start⌉).toNat

theorem precedes_iff (closed : Bool) (start stop : ℚ) (i : ℕ) :
    Precedes closed (start + i) stop ↔ i < rangeCount closed start stop := by
  cases closed with
  | false =>
      have hceil : (i : ℤ) < ⌈stop - start⌉ ↔ start + i < stop := by
        rw [Int.lt_ceil, Int.cast_natCast, lt_sub_iff_add_lt']
      show _ ↔ i < ⌈stop - start⌉.toNat
      rw [Int.lt_toNat, hceil, Precedes]
      simp
  | true =>
      have hfloor : (i : ℤ) < ⌊stop - start⌋ + 1 ↔ start + i ≤ stop := by
        rw [Int.lt_add_one_iff, Int.le_floor, Int.cast_natCast, le_sub_iff_add_le']
      show _ ↔ i < (⌊stop - start⌋ + 1).toNat
      rw [Int.lt_toNat, hfloor, le_iff_lt_or_eq, Precedes, eq_self, true_and]

theorem rangeCount_le (closed : Bool) (start stop : ℚ) :
    rangeCount closed start stop ≤ (⌊stop - start⌋ + 1).toNat := by
  cases closed with
  | false => exact Int.toNat_le_toNat (Int.ceil_le_floor_add_one _)
  | true => exact le_rfl

/-- The test of the loop. -/
theorem precedes_compare (closed : Bool) (a b : Decimal) :
    ((a.compare b).isLT || ((a.compare b).isEq && closed)) = true ↔
      Precedes closed a.toRat b.toRat := by
  have hcompares := a.compares b
  cases hcompare : a.compare b <;> rw [hcompare] at hcompares
  · exact iff_of_true rfl (.inl hcompares)
  · have heq : a.toRat = b.toRat := hcompares
    simp [Precedes, heq]
  · have hgt : b.toRat < a.toRat := hcompares
    simp [Precedes, hgt.le, hgt.ne']

/-! ## The loop -/

namespace Eval

variable {settings : Settings} {M : Machine} {position : Position}

theorem number_of_inRange {d : Decimal} (h : (d.round settings.precision).inRange = true) :
    number d position settings M = .ok (.number (d.round settings.precision)) M := by
  rw [number_eq, Decimal.bounded_of_inRange h]
  rfl

/-- The elements of a range of so many steps. -/
def rangeNumbers (precision : Nat) (start : Decimal) (count : ℕ) : List Decimal :=
  (List.range count).map fun i => (start + .ofInt i).round precision

theorem round_first (current : Decimal) (precision : Nat) :
    (current + .ofInt (0 : ℕ)).round precision = current.round precision :=
  Decimal.round_congr (by simp) precision

theorem round_next (current : Decimal) (i : ℕ) (precision : Nat) :
    (current + .ofInt (i + 1 : ℕ)).round precision =
      (current + .one + .ofInt i).round precision :=
  Decimal.round_congr (by simp [add_assoc, add_comm]) precision

theorem rangeNumbers_succ (precision : Nat) (start : Decimal) (count : ℕ) :
    rangeNumbers precision start (count + 1) =
      start.round precision :: rangeNumbers precision (start + .one) count := by
  simp only [rangeNumbers, List.range_succ_eq_map, List.map_cons, List.map_map, round_first,
    Function.comp_def, Nat.succ_eq_add_one, round_next]

/-- The loop takes a step that its test lets pass, if the element is within the range of
exponents. -/
theorem rangeFrom_step {stop current : Decimal} {closed : Bool} (count : ℕ) (made : List Value)
    (hgoes : Precedes closed current.toRat stop.toRat)
    (hfirst : ((current + .ofInt (0 : ℕ)).round settings.precision).inRange = true) :
    rangeFrom stop closed position (count + 1) current made settings M =
      rangeFrom stop closed position count (current + .one)
        (.number (current.round settings.precision) :: made) settings M := by
  rw [round_first] at hfirst
  rw [rangeFrom, if_pos ((precedes_compare closed current stop).2 hgoes),
    bind_ok (number_of_inRange hfirst)]

/-- The loop gives an element for each step that its test lets pass, and ends there whatever bound
on the number of steps it was given beyond them. -/
theorem rangeFrom_eq {stop : Decimal} {closed : Bool} {n : ℕ} :
    ∀ {count : ℕ} {current : Decimal} (made : List Value), n ≤ count →
      (∀ i : ℕ, Precedes closed (current.toRat + i) stop.toRat ↔ i < n) →
      (∀ i < n, ((current + .ofInt i).round settings.precision).inRange = true) →
      rangeFrom stop closed position count current made settings M =
        .ok (made.reverse ++ (rangeNumbers settings.precision current n).map .number) M := by
  induction n with
  | zero =>
      intro count current made _ hsteps _
      have hend : ¬ Precedes closed current.toRat stop.toRat := by
        simpa using hsteps 0
      cases count with
      | zero => simp [rangeFrom, rangeNumbers]; rfl
      | succ count =>
          rw [rangeFrom, if_neg (mt (precedes_compare closed current stop).1 hend)]
          simp [rangeNumbers]
          rfl
  | succ n ih =>
      intro count current made hcount hsteps hrange
      obtain ⟨count, rfl⟩ : ∃ m, count = m + 1 := ⟨count - 1, by omega⟩
      have hgoes : Precedes closed current.toRat stop.toRat := by
        simpa using hsteps 0
      -- From the next number on, there is one step less.
      have hsteps' (i : ℕ) : Precedes closed ((current + .one).toRat + i) stop.toRat ↔ i < n := by
        have := hsteps (i + 1)
        simpa [add_assoc, add_comm] using this
      have hrange' (i : ℕ) (hi : i < n) :
          ((current + .one + .ofInt i).round settings.precision).inRange = true := by
        rw [← round_next]
        exact hrange (i + 1) (by omega)
      rw [rangeFrom_step count made hgoes (hrange 0 (by omega)), ih _ (by omega) hsteps' hrange',
        rangeNumbers_succ, List.reverse_cons, List.append_assoc]
      rfl

/-- The loop fails at its first element beyond the range of exponents. -/
theorem rangeFrom_error {stop : Decimal} {closed : Bool} {fault : Decimal.Fault} {n : ℕ} :
    ∀ {count : ℕ} {current : Decimal} (made : List Value), n < count →
      (∀ i ≤ n, Precedes closed (current.toRat + (i : ℕ)) stop.toRat) →
      (∀ i < n, ((current + .ofInt (i : ℕ)).round settings.precision).inRange = true) →
      ((current + .ofInt n).round settings.precision).bounded = .error fault →
      rangeFrom stop closed position count current made settings M =
        .error (.fault (.arithmetic fault position)) M := by
  induction n with
  | zero =>
      intro count current made hcount hsteps _ hfault
      obtain ⟨count, rfl⟩ : ∃ m, count = m + 1 := ⟨count - 1, by omega⟩
      have hgoes : Precedes closed current.toRat stop.toRat := by
        simpa using hsteps 0 le_rfl
      have hnumber : number current position settings M =
          .error (.fault (.arithmetic fault position)) M := by
        rw [round_first] at hfault
        rw [number_eq, hfault]
        rfl
      rw [rangeFrom, if_pos ((precedes_compare closed current stop).2 hgoes), bind_error hnumber]
  | succ n ih =>
      intro count current made hcount hsteps hrange hfault
      obtain ⟨count, rfl⟩ : ∃ m, count = m + 1 := ⟨count - 1, by omega⟩
      have hgoes : Precedes closed current.toRat stop.toRat := by
        simpa using hsteps 0 (by omega)
      rw [rangeFrom_step count made hgoes (hrange 0 (by omega))]
      refine ih _ (by omega) (fun i hi => ?_) (fun i hi => ?_) ?_
      · have := hsteps (i + 1) (by omega)
        simpa [add_assoc, add_comm] using this
      · rw [← round_next]
        exact hrange (i + 1) (by omega)
      · rwa [← round_next]

theorem rangeCount_le_stepsBeyond (closed : Bool) (start stop : Decimal) :
    rangeCount closed start.toRat stop.toRat ≤ stepsBeyond start stop := by
  have hcount := rangeCount_le closed start.toRat stop.toRat
  rw [stepsBeyond, Decimal.wholePart_floor, Decimal.toRat_sub]
  omega

/-! ## The elements of a range -/

theorem rangeNumbers_pairwise (precision : Nat) (start : Decimal) (count : ℕ) :
    (rangeNumbers precision start count).Pairwise fun a b => a.toRat ≤ b.toRat := by
  rw [rangeNumbers, List.pairwise_map]
  refine List.pairwise_lt_range.imp fun {i j} hij => Decimal.round_mono ?_ precision
  simpa using hij.le

theorem rangeCount_whole {start stop : ℚ} {n : ℕ} (h : stop - start = n) :
    rangeCount false start stop = n ∧ rangeCount true start stop = n + 1 := by
  simp [rangeCount, h]

theorem rangeCount_fraction {start stop : ℚ} (h : ∀ n : ℕ, stop - start ≠ n) :
    rangeCount true start stop = rangeCount false start stop := by
  show (⌊stop - start⌋ + 1).toNat = ⌈stop - start⌉.toNat
  have hle := Int.ceil_le_floor_add_one (stop - start)
  rcases lt_or_ge ⌊stop - start⌋ 0 with hneg | hpos
  · omega
  · -- the distance is at least zero, so it is not its own floor
    obtain ⟨n, hn⟩ := Int.eq_ofNat_of_zero_le hpos
    have hne : (⌊stop - start⌋ : ℚ) ≠ stop - start := by
      rw [hn]
      exact (h n).symm
    have hlt : ⌊stop - start⌋ < ⌈stop - start⌉ :=
      Int.lt_ceil.2 (lt_of_le_of_ne (Int.floor_le _) hne)
    omega

/-- A range is the list of the rounded numbers from its start in steps of one, if these are within
the range of exponents.  The loop ends by its own test, so a larger bound on its steps changes
nothing. -/
theorem range_elements (start stop : Decimal) (position : Position) (settings : Settings)
    (M : Machine) :
    let numbers (closed : Bool) :=
      rangeNumbers settings.precision start (rangeCount closed start.toRat stop.toRat)
    (∀ closed,
      (∀ i : ℕ, Precedes closed (start.toRat + i) stop.toRat →
        ((start + .ofInt i).round settings.precision).inRange = true) →
      range start stop closed position settings M =
          .ok (.array ((numbers closed).map .number)) M ∧
        ∀ count ≥ stepsBeyond start stop,
          rangeFrom stop closed position count start [] settings M =
            .ok ((numbers closed).map .number) M) ∧
    ((numbers false).length : ℤ) = max 0 ⌈stop.toRat - start.toRat⌉ ∧
    ((numbers true).length : ℤ) = max 0 (⌊stop.toRat - start.toRat⌋ + 1) ∧
    (∀ closed, (numbers closed).Pairwise fun a b => a.toRat ≤ b.toRat) ∧
    (∀ n : ℕ, stop.toRat - start.toRat = n →
      numbers true = numbers false ++ [stop.round settings.precision]) ∧
    ((∀ n : ℕ, stop.toRat - start.toRat ≠ n) → numbers true = numbers false) := by
  intro numbers
  refine ⟨fun closed hrange => ?_, ?_, ?_, fun closed => rangeNumbers_pairwise _ _ _,
    fun n hwhole => ?_, fun hfraction => ?_⟩
  · have hloop (count : ℕ) (hcount : stepsBeyond start stop ≤ count) :
        rangeFrom stop closed position count start [] settings M =
          .ok ((numbers closed).map .number) M :=
      rangeFrom_eq [] ((rangeCount_le_stepsBeyond closed start stop).trans hcount)
        (precedes_iff closed start.toRat stop.toRat)
        fun i hi => hrange i ((precedes_iff closed _ _ i).2 hi)
    refine ⟨?_, hloop⟩
    rw [range, bind_ok (hloop _ le_rfl)]
    rfl
  · simp [numbers, rangeNumbers, rangeCount, max_comm]
  · simp [numbers, rangeNumbers, rangeCount, max_comm]
  · obtain ⟨hopen, hclosed⟩ := rangeCount_whole hwhole
    have hlast : (start + .ofInt n).round settings.precision = stop.round settings.precision :=
      Decimal.round_congr (by simp [← hwhole]) _
    simp only [numbers, hopen, hclosed, rangeNumbers, List.range_succ, List.map_append,
      List.map_cons, List.map_nil, hlast]
  · simp only [numbers, rangeCount_fraction hfraction]

end Eval

namespace Halves

open Eval

/-- Arithmetic with one digit. -/
def settings : Settings := { Settings.small with precision := 1 }

theorem rangeCount_eq_six :
    rangeCount true (⟨-25, 1⟩ : Decimal).toRat (⟨25, 1⟩ : Decimal).toRat = 6 := by
  have hfloor : ⌊(⟨25, 1⟩ : Decimal).toRat - (⟨-25, 1⟩ : Decimal).toRat⌋ = 5 := by
    norm_num [Decimal.toRat]
  rw [rangeCount, if_pos rfl, hfloor]
  rfl

/-- The range from `-2.5` to `2.5` with its end: numbers above zero are rounded to the nearest, and
those below toward zero. -/
theorem range_both_signs : range ⟨-25, 1⟩ ⟨25, 1⟩ true .start settings .blank =
    .ok (.array ([⟨-2, 0⟩, ⟨-1, 0⟩, ⟨-5, 1⟩, ⟨5, 1⟩, ⟨2, 0⟩, ⟨3, 0⟩].map .number)) .blank := by
  have hrange : ∀ i : ℕ, i < 6 →
      (((⟨-25, 1⟩ : Decimal) + .ofInt i).round settings.precision).inRange = true := by
    decide
  have hnumbers : rangeNumbers settings.precision ⟨-25, 1⟩ 6 =
      [⟨-2, 0⟩, ⟨-1, 0⟩, ⟨-5, 1⟩, ⟨5, 1⟩, ⟨2, 0⟩, ⟨3, 0⟩] := by
    decide
  have hspec := (range_elements ⟨-25, 1⟩ ⟨25, 1⟩ .start settings .blank).1 true fun i hi => by
    rw [precedes_iff, rangeCount_eq_six] at hi
    exact hrange i hi
  simp only [rangeCount_eq_six, hnumbers] at hspec
  exact hspec.1

end Halves

end Terse
