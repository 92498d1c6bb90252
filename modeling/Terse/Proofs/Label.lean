import Mathlib.Data.List.Basic
import Terse.Store

/-!
# The order in which sequences are made

Labels are compared where they first differ.  A label that continues another one is neither before
nor after it: the sequences `label ++ [i, k]` are made while the sequence `label` produces an
element, so they belong to it.

At a site with frame `f` that has made `m` sequences, the labels before `f ++ [m]` are those of the
sequences that a program can hold there.  The lemmas say how this set changes when another sequence
is made, when the production of an element starts, and when it ends.

* When a sequence is made, its label is added and what continues it (`Before.of_succ`).
* When the production of element `i` of `label` starts, the site has the frame `label ++ [i]`.
  Before it are the labels before `label`, and those that were made for the elements in front
  (`Before.or_prefix`).
* When it ends, what was before the site inside is before the site outside, since `label` itself was
  (`Before.of_prefix_left`).

The order is that of words in a dictionary, without the rule that a front part comes first.
-/

namespace Terse

/-- The first number in which two labels differ is smaller in the first one. -/
inductive Before : Label → Label → Prop where
  | head {a b : Nat} {x y : Label} (hlt : a < b) : Before (a :: x) (b :: y)
  | tail {a : Nat} {x y : Label} (hbefore : Before x y) : Before (a :: x) (a :: y)

namespace Before

variable {x y z p : Label}

theorem irrefl (x : Label) : ¬ Before x x := by
  intro h
  induction x with
  | nil => cases h
  | cons a x ih =>
      cases h with
      | head hlt => omega
      | tail hbefore => exact ih hbefore

theorem trans (hxy : Before x y) (hyz : Before y z) : Before x z := by
  induction hxy generalizing z with
  | head hlt =>
      cases hyz with
      | head hlt' => exact .head (Nat.lt_trans hlt hlt')
      | tail _ => exact .head hlt
  | tail _ ih =>
      cases hyz with
      | head hlt => exact .head hlt
      | tail hbefore => exact .tail (ih hbefore)

theorem asymm (hxy : Before x y) : ¬ Before y x :=
  fun hyx => irrefl x (hxy.trans hyx)

/-- What continues a label stands where the label stands. -/
theorem append (h : Before x y) (u v : Label) : Before (x ++ u) (y ++ v) := by
  induction h with
  | head hlt => exact .head hlt
  | tail _ ih => exact .tail ih

theorem of_prefix_left (h : Before x y) (hpre : x <+: z) : Before z y := by
  obtain ⟨u, rfl⟩ := hpre
  simpa using h.append u []

theorem of_prefix_right (h : Before x y) (hpre : y <+: z) : Before x z := by
  obtain ⟨u, rfl⟩ := hpre
  simpa using h.append [] u

theorem append_left (p : Label) (h : Before x y) : Before (p ++ x) (p ++ y) := by
  induction p with
  | nil => exact h
  | cons a p ih => exact .tail ih

theorem not_prefix (h : Before x y) : ¬ x <+: y :=
  fun hpre => irrefl y (h.of_prefix_left hpre)

theorem not_prefix' (h : Before x y) : ¬ y <+: x :=
  fun hpre => irrefl x (h.of_prefix_right hpre)

/-- Below a common front part, what is left decides. -/
theorem append_left_iff : Before (p ++ x) (p ++ y) ↔ Before x y := by
  refine ⟨fun h => ?_, append_left p⟩
  induction p with
  | nil => exact h
  | cons a p ih =>
      cases h with
      | head hlt => omega
      | tail hbefore => exact ih hbefore

/-- A label before a continuation of `y` is before `y` or continues `y`. -/
theorem or_prefix (h : Before x (y ++ z)) : Before x y ∨ y <+: x := by
  induction y generalizing x with
  | nil => exact .inr (List.nil_prefix)
  | cons b y ih =>
      cases h with
      | head hlt => exact .inl (.head hlt)
      | tail hbefore =>
          rcases ih hbefore with hy | hy
          · exact .inl (.tail hy)
          · exact .inr (List.cons_prefix_cons.2 ⟨rfl, hy⟩)

/-- A front part of a label before `z` is before `z` or a front part of `z`. -/
theorem front (h : Before x z) (hpre : y <+: x) : Before y z ∨ y <+: z := by
  induction h generalizing y with
  | @head a b x z hlt =>
      cases y with
      | nil => exact .inr List.nil_prefix
      | cons c y =>
          obtain ⟨rfl, -⟩ := List.cons_prefix_cons.1 hpre
          exact .inl (.head hlt)
  | @tail a x z hbefore ih =>
      cases y with
      | nil => exact .inr List.nil_prefix
      | cons c y =>
          obtain ⟨rfl, hpre'⟩ := List.cons_prefix_cons.1 hpre
          rcases ih hpre' with hy | hy
          · exact .inl (.tail hy)
          · exact .inr (List.cons_prefix_cons.2 ⟨rfl, hy⟩)

/-- Numbers that follow a common front part are compared. -/
theorem snoc {k m : Nat} (hlt : k < m) (p u v : Label) :
    Before (p ++ k :: u) (p ++ m :: v) :=
  append_left p (.head hlt)

theorem snoc_iff {k m : Nat} : Before (p ++ [k]) (p ++ [m]) ↔ k < m := by
  rw [append_left_iff]
  refine ⟨fun h => ?_, .head⟩
  cases h with
  | head hlt => exact hlt
  | tail hbefore => cases hbefore

/-- A later site of the same frame is behind more labels. -/
theorem mono {k m : Nat} (h : Before x (p ++ [k])) (hle : k ≤ m) : Before x (p ++ [m]) := by
  rcases Nat.lt_or_eq_of_le hle with hlt | rfl
  · exact h.trans (snoc hlt p [] [])
  · exact h

/-- What a step of a site adds to the labels before it: the label that it hands out, and what
continues that label. -/
theorem of_succ {m : Nat} (h : Before x (p ++ [m + 1])) :
    Before x (p ++ [m]) ∨ p ++ [m] <+: x := by
  rcases h.or_prefix with hp | ⟨u, rfl⟩
  · exact .inl (hp.of_prefix_right (List.prefix_append _ _))
  -- Behind the frame the next number is at most `m`, and if it is `m` the label continues that of
  -- the site.
  · rw [append_left_iff] at h
    cases h with
    | @head k _ u _ hlt =>
        rcases Nat.lt_or_eq_of_le (Nat.le_of_lt_succ hlt) with hk | rfl
        · exact .inl (snoc hk p u [])
        · exact .inr (by simp)
    | tail hbefore => cases hbefore

/-- Labels before a site have not been handed out by the site's later numbers. -/
theorem not_prefix_snoc {k m : Nat} (h : Before x (p ++ [m])) (hle : m ≤ k) :
    ¬ p ++ [k] <+: x := by
  intro hpre
  exact (h.mono hle).not_prefix' hpre

/-- If a label that continues `p ++ [j]` is before one that continues `p ++ [i]`, then `j` is at
most `i`. -/
theorem index_le {i j : Nat} (h : Before x y) (hx : p ++ [j] <+: x) (hy : p ++ [i] <+: y) :
    j ≤ i := by
  by_contra hlt
  obtain ⟨u, rfl⟩ := hx
  obtain ⟨v, rfl⟩ := hy
  have hback : Before (p ++ [i] ++ v) (p ++ [j] ++ u) := by
    simpa using snoc (by omega : i < j) p v u
  exact h.asymm hback

end Before

/-- The next site is behind the label that it hands out. -/
theorem Site.label_before_next (site : Site) : Before site.label site.next.label :=
  Before.snoc (Nat.lt_succ_self site.made) site.frame [] []

end Terse
