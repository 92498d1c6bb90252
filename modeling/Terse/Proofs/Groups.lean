import Terse.Evaluation.Trailing
import Terse.Proofs.Rational
import Terse.Proofs.Runs

/-!
# Groups of equal values

Grouping compares a value with the first elements of the groups so far.  Equality is not transitive,
since a number is equal to every text that spells it, so it matters which elements these are: the
*heads*.  A value becomes a head if no head in front of it is equal to it, and the values of a group
are those that have the group's head as the first one equal to them.

`Grouped` says this of values, heads and groups.  `Grouped.add` is the step for one further value,
and `grouped` the result for all values.  That no value is lost or doubled is seen in the loop
itself (`perm_groupValues`).

## Strategy

The groups are determined by the heads: the group at some place consists of the values whose first
equal head is at this place (`groupAt`).  So it is enough to follow the heads, and each of the two
steps says what a further value changes.

* `Grouped.addPlaced`: the value is equal to a head.  The heads stay, and one group gets longer.
* `Grouped.addHead`: it is equal to none, and becomes the last head.  The places of the values in
  front of it stay, as each of them already had one (`placeAmong_append`).

The loop itself knows only the groups, and compares with the first element of each.
`addToGroups_eq` says that it takes the same step, as long as the groups begin with the heads.
-/

namespace Terse

namespace Value

mutual

theorem looseEq_refl : ∀ v : Value, v.looseEq v = true
  | .text s => by
      rw [looseEq]
      exact beq_self_eq_true s
  | .number n => by
      rw [looseEq]
      exact (n.equal_iff n).2 rfl
  | .array items => by
      rw [looseEq]
      exact looseEqAll_refl items
  | .sequence s => by
      rw [looseEq]
      exact beq_self_eq_true s.label

theorem looseEqAll_refl : ∀ items : List Value, looseEqAll items items = true
  | [] => by rw [looseEqAll]
  | v :: rest => by
      rw [looseEqAll, looseEq_refl v, looseEqAll_refl rest]
      rfl

end

mutual

theorem looseEq_comm : ∀ v w : Value, v.looseEq w = w.looseEq v
  | .text s, w => by
      cases w with
      | text t =>
          rw [looseEq, looseEq]
          exact Bool.beq_comm
      | number n => rw [looseEq, looseEq]
      | array items => simp [looseEq]
      | sequence t => simp [looseEq]
  | .number m, w => by
      cases w with
      | text t => rw [looseEq, looseEq]
      | number n =>
          rw [looseEq, looseEq, Bool.eq_iff_iff, m.equal_iff, n.equal_iff]
          exact eq_comm
      | array items => simp [looseEq]
      | sequence t => simp [looseEq]
  | .array items, w => by
      cases w with
      | text t => simp [looseEq]
      | number n => simp [looseEq]
      | array others =>
          rw [looseEq, looseEq]
          exact looseEqAll_comm items others
      | sequence t => simp [looseEq]
  | .sequence s, w => by
      cases w with
      | text t => simp [looseEq]
      | number n => simp [looseEq]
      | array others => simp [looseEq]
      | sequence t =>
          rw [looseEq, looseEq]
          exact Bool.beq_comm

theorem looseEqAll_comm : ∀ items others : List Value,
    looseEqAll items others = looseEqAll others items
  | [], [] => rfl
  | [], _ :: _ => by simp [looseEqAll]
  | _ :: _, [] => by simp [looseEqAll]
  | v :: items, w :: others => by
      rw [looseEqAll, looseEqAll, looseEq_comm v w, looseEqAll_comm items others]

end

/-- Equal numbers are equal to the same values. -/
theorem looseEq_number_congr {a b : Decimal} (h : a.toRat = b.toRat) (v : Value) :
    v.looseEq (number a) = v.looseEq (number b) := by
  have hequal (n : Decimal) : n.equal a = n.equal b := by
    rw [Bool.eq_iff_iff, n.equal_iff, n.equal_iff, h]
  cases v with
  | text s => simp only [looseEq, hequal]
  | number n => simp only [looseEq, hequal]
  | array items => rw [looseEq, looseEq] <;> exact nofun
  | sequence s => rw [looseEq, looseEq] <;> exact nofun

end Value

/-! ## Heads -/

/-- The place of the first head that a value is equal to. -/
def placeAmong (heads : List Value) (v : Value) : Nat := heads.findIdx (·.looseEq v)

/-- A value becomes a head if it is equal to none of the heads. -/
def addToHeads (heads : List Value) (v : Value) : List Value :=
  if placeAmong heads v < heads.length then heads else heads ++ [v]

/-- The first elements of the groups of some values. -/
def groupHeads (values : List Value) : List Value := values.foldl addToHeads []

/-- A value that has a place keeps it when there are more heads. -/
theorem placeAmong_append {heads : List Value} {v : Value} (others : List Value)
    (h : placeAmong heads v < heads.length) :
    placeAmong (heads ++ others) v = placeAmong heads v := by
  unfold placeAmong at *
  rw [List.findIdx_append, if_pos h]

theorem placeAmong_last {heads : List Value} {v : Value}
    (h : ¬ placeAmong heads v < heads.length) :
    placeAmong (heads ++ [v]) v = heads.length := by
  unfold placeAmong at *
  rw [List.findIdx_append, if_neg h, List.findIdx_singleton, Value.looseEq_refl, if_pos rfl,
    Nat.zero_add]

/-- A value goes to the end of the group at its place, or behind all groups. -/
theorem addToGroups_eq {heads : List Value} {groups : List (List Value)}
    (hheads : groups.map List.head? = heads.map some) (v : Value) :
    addToGroups v groups =
      if placeAmong heads v < heads.length then groups.modify (placeAmong heads v) (· ++ [v])
      else groups ++ [[v]] := by
  induction groups generalizing heads with
  | nil =>
      obtain rfl : heads = [] := by simpa using hheads.symm
      rfl
  | cons group rest ih =>
      cases heads with
      | nil => simp at hheads
      | cons head heads =>
          obtain ⟨hhead, hrest⟩ := List.cons.inj hheads
          rw [addToGroups, hhead, ih hrest]
          -- The first group takes the value, or the place is counted from the second group on.
          cases hequal : head.looseEq v with
          | true => simp [placeAmong, List.findIdx_cons, hequal]
          | false =>
              have hplace : placeAmong (head :: heads) v = placeAmong heads v + 1 := by
                rw [placeAmong, List.findIdx_cons, hequal, cond_false, placeAmong]
              simp only [hplace, Option.any_some, hequal, Bool.false_eq_true, if_false,
                List.length_cons, Nat.add_lt_add_iff_right]
              split
              · rw [List.modify_succ_cons]
              · rfl

/-! ## Groups -/

/-- The values whose place is a number. -/
def groupAt (heads values : List Value) (i : Nat) : List Value :=
  values.filter fun v => placeAmong heads v == i

theorem groupAt_concat (heads values : List Value) (v : Value) (i : Nat) :
    groupAt heads (values ++ [v]) i =
      groupAt heads values i ++ if placeAmong heads v = i then [v] else [] := by
  by_cases h : placeAmong heads v = i
  · simp [groupAt, h]
  · simp [groupAt, h]

/-- Values, the heads among them, and their groups. -/
structure Grouped (values heads : List Value) (groups : List (List Value)) : Prop where
  placed : ∀ v ∈ values, placeAmong heads v < heads.length
  /-- No head is equal to one in front of it. -/
  own : ∀ i head, heads[i]? = some head → placeAmong heads head = i
  /-- What stands in front of a head belongs to the groups in front of its group. -/
  first : ∀ i head, heads[i]? = some head → ∃ before after, values = before ++ head :: after ∧
    ∀ v ∈ before, placeAmong heads v < i
  eq : groups = (List.range heads.length).map (groupAt heads values)

namespace Grouped

variable {values heads : List Value} {groups : List (List Value)}

theorem nil : Grouped [] [] [] := ⟨by simp, by simp, by simp, rfl⟩

/-- A group begins with its head. -/
theorem head?_groupAt (h : Grouped values heads groups) {i : Nat} {head : Value}
    (hhead : heads[i]? = some head) : (groupAt heads values i).head? = some head := by
  obtain ⟨before, after, hvalues, hbefore⟩ := h.first i head hhead
  have hnone : groupAt heads before i = [] := by
    refine List.filter_eq_nil_iff.2 fun v hv => ?_
    have := hbefore v hv
    simp only [beq_iff_eq]
    omega
  have hown : placeAmong heads head = i := h.own i head hhead
  rw [groupAt] at hnone
  rw [groupAt, hvalues, List.filter_append, hnone, List.nil_append,
    List.filter_cons_of_pos (by simp [hown]), List.head?_cons]

theorem getElem? (h : Grouped values heads groups) {i : Nat} (hi : i < heads.length) :
    groups[i]? = some (groupAt heads values i) := by
  simp [h.eq, hi]

theorem mem_of_getElem? (h : Grouped values heads groups) {i : Nat} {head : Value}
    (hhead : heads[i]? = some head) : head ∈ values := by
  obtain ⟨before, after, hvalues, -⟩ := h.first i head hhead
  simp [hvalues]

/-- A value is equal to the head at its place. -/
theorem exists_head (h : Grouped values heads groups) {v : Value} (hv : v ∈ values) :
    ∃ head, heads[placeAmong heads v]? = some head ∧ head.looseEq v = true :=
  ⟨_, List.getElem?_eq_getElem (h.placed v hv),
    List.findIdx_getElem (p := fun head : Value => head.looseEq v)⟩

theorem map_head? (h : Grouped values heads groups) :
    groups.map List.head? = heads.map some := by
  refine List.ext_getElem? fun i => ?_
  rw [h.eq, List.map_map, List.getElem?_map, List.getElem?_map]
  cases hhead : heads[i]? with
  | none => simpa using hhead
  | some head =>
      have hi : i < heads.length := (List.getElem?_eq_some_iff.1 hhead).1
      simp [hi, h.head?_groupAt hhead]

/-- Where a group stands among the others, its head stands among the heads. -/
theorem exists_head_of_append {front back : List (List Value)} {group : List Value}
    (h : Grouped values heads (front ++ group :: back)) :
    ∃ head, heads[front.length]? = some head ∧ groupAt heads values front.length = group := by
  have hlength : (front ++ group :: back).length = heads.length := by
    simpa using congrArg List.length h.eq
  have hi : front.length < heads.length := by
    rw [← hlength]
    simp
  have hgroup : (front ++ group :: back)[front.length]? = some group := by simp
  exact ⟨_, List.getElem?_eq_getElem hi, Option.some.inj ((h.getElem? hi).symm.trans hgroup)⟩

/-- No head is equal to another one, in either order. -/
theorem pairwise_heads (h : Grouped values heads groups) :
    heads.Pairwise fun a b => a.looseEq b = false ∧ b.looseEq a = false := by
  rw [List.pairwise_iff_getElem]
  intro i j hi hj hij
  have hown := h.own j heads[j] (List.getElem?_eq_getElem hj)
  have hne : heads[i].looseEq heads[j] = false := by
    have hlt : i < heads.findIdx (·.looseEq heads[j]) := by
      rw [placeAmong] at hown
      rwa [hown]
    exact List.not_of_lt_findIdx hlt
  exact ⟨hne, by rwa [Value.looseEq_comm]⟩

/-- A further value that is equal to a head. -/
theorem addPlaced (h : Grouped values heads groups) {v : Value}
    (hplace : placeAmong heads v < heads.length) :
    Grouped (values ++ [v]) heads (groups.modify (placeAmong heads v) (· ++ [v])) where
  placed w hw := by
    rcases List.mem_append.1 hw with hw | hw
    · exact h.placed w hw
    · rwa [List.mem_singleton.1 hw]
  own := h.own
  first i head hhead := by
    obtain ⟨before, after, hvalues, hbefore⟩ := h.first i head hhead
    exact ⟨before, after ++ [v], by simp [hvalues], hbefore⟩
  eq := by
    refine List.ext_getElem? fun i => ?_
    rw [List.getElem?_modify, h.eq, List.getElem?_map, List.getElem?_map]
    by_cases hi : i < heads.length
    · by_cases hsame : placeAmong heads v = i
      · simp [hi, groupAt_concat, hsame]
      · simp [hi, groupAt_concat, hsame]
    · simp [hi]

/-- A further value that is equal to no head. -/
theorem addHead (h : Grouped values heads groups) {v : Value}
    (hplace : ¬ placeAmong heads v < heads.length) :
    Grouped (values ++ [v]) (heads ++ [v]) (groups ++ [[v]]) := by
  have hkeeps (w : Value) (hw : w ∈ values) : placeAmong (heads ++ [v]) w = placeAmong heads w :=
    placeAmong_append [v] (h.placed w hw)
  have hlast : placeAmong (heads ++ [v]) v = heads.length := placeAmong_last hplace
  -- A head is an old one, or the value itself at the end.
  have hcases (i : Nat) (head : Value) (hhead : (heads ++ [v])[i]? = some head) :
      heads[i]? = some head ∧ i < heads.length ∨ i = heads.length ∧ head = v := by
    rcases Nat.lt_trichotomy i heads.length with hi | rfl | hi
    · rw [List.getElem?_append_left hi] at hhead
      exact .inl ⟨hhead, hi⟩
    · rw [List.getElem?_concat_length] at hhead
      exact .inr ⟨rfl, (Option.some.inj hhead).symm⟩
    · rw [List.getElem?_eq_none (by simpa [Nat.succ_le_iff] using hi)] at hhead
      cases hhead
  refine ⟨fun w hw => ?_, fun i head hhead => ?_, fun i head hhead => ?_, ?_⟩
  · rw [List.length_append, List.length_singleton]
    rcases List.mem_append.1 hw with hw | hw
    · rw [hkeeps w hw]
      exact Nat.lt_succ_of_lt (h.placed w hw)
    · rw [List.mem_singleton.1 hw, hlast]
      exact Nat.lt_succ_self _
  · rcases hcases i head hhead with ⟨hhead, hi⟩ | ⟨rfl, rfl⟩
    · have hown := h.own i head hhead
      rw [placeAmong_append [v] (hown ▸ hi), hown]
    · exact hlast
  · rcases hcases i head hhead with ⟨hhead, hi⟩ | ⟨rfl, rfl⟩
    · obtain ⟨before, after, hvalues, hbefore⟩ := h.first i head hhead
      refine ⟨before, after ++ [v], by simp [hvalues], fun w hw => ?_⟩
      rw [placeAmong_append [v] ((hbefore w hw).trans hi)]
      exact hbefore w hw
    · refine ⟨values, [], rfl, fun w hw => ?_⟩
      rw [hkeeps w hw]
      exact h.placed w hw
  -- The old groups do not get the value, and the new one has nothing else.
  · have hold (i : Nat) (hi : i < heads.length) :
        groupAt (heads ++ [v]) (values ++ [v]) i = groupAt heads values i := by
      have hvalues : groupAt (heads ++ [v]) values i = groupAt heads values i :=
        List.filter_congr fun w hw => by rw [hkeeps w hw]
      rw [groupAt_concat, hvalues, hlast, if_neg (Nat.ne_of_gt hi), List.append_nil]
    have hnew : groupAt (heads ++ [v]) (values ++ [v]) heads.length = [v] := by
      have hvalues : groupAt (heads ++ [v]) values heads.length = [] := by
        refine List.filter_eq_nil_iff.2 fun w hw => ?_
        simpa [hkeeps w hw] using Nat.ne_of_lt (h.placed w hw)
      rw [groupAt_concat, hvalues, hlast, if_pos rfl, List.nil_append]
    rw [List.length_append, List.length_singleton, List.range_succ, List.map_append,
      List.map_singleton, hnew, h.eq]
    exact congrArg (· ++ [[v]])
      (List.map_congr_left fun i hi => (hold i (List.mem_range.1 hi)).symm)

/-- A further value. -/
theorem add (h : Grouped values heads groups) (v : Value) :
    Grouped (values ++ [v]) (addToHeads heads v) (addToGroups v groups) := by
  rw [addToGroups_eq h.map_head?, addToHeads]
  split
  · rename_i hplace
    exact h.addPlaced hplace
  · rename_i hplace
    exact h.addHead hplace

end Grouped

/-- Grouping gives the groups that the heads determine. -/
theorem grouped (values : List Value) :
    Grouped values (groupHeads values) (groupValues values) := by
  induction values using List.reverseRecOn with
  | nil => exact .nil
  | append_singleton values v ih =>
      rw [groupHeads, groupValues, List.foldl_append, List.foldl_append]
      exact ih.add v

/-! ## What is in the groups -/

/-- One further value is in the groups afterwards, and nothing else changes. -/
theorem perm_addToGroups (v : Value) (groups : List (List Value)) :
    (addToGroups v groups).flatten.Perm (groups.flatten ++ [v]) := by
  induction groups with
  | nil => exact .refl _
  | cons group rest ih =>
      rw [addToGroups]
      split
      · rw [List.flatten_cons, List.flatten_cons, List.append_assoc, List.append_assoc]
        exact List.perm_append_comm.append_left group
      · rw [List.flatten_cons, List.flatten_cons, List.append_assoc]
        exact ih.append_left group

theorem perm_groupValues (values : List Value) : (groupValues values).flatten.Perm values := by
  induction values using List.reverseRecOn with
  | nil => exact .refl _
  | append_singleton values v ih =>
      rw [groupValues, List.foldl_append]
      exact (perm_addToGroups v _).trans (ih.append_right [v])

/-- The heads stand in the order in which they appear among the values. -/
theorem sublist_groupHeads (values : List Value) : (groupHeads values).Sublist values := by
  induction values using List.reverseRecOn with
  | nil => exact .refl _
  | append_singleton values v ih =>
      rw [groupHeads, List.foldl_append]
      show (addToHeads (groupHeads values) v).Sublist _
      rw [addToHeads]
      split
      · exact ih.trans (List.sublist_append_left values [v])
      · exact ih.append_right [v]

/-- Grouping the elements of a value.  The groups, put together, are a permutation of the elements.
Their first elements are not equal to each other, and appear among the elements in the same order,
each before all others of its group and of the groups behind.  Every element is equal to one of
them, and belongs to the group of the first one that it is equal to.  A group consists of the
elements that belong to it, in their order. -/
theorem group_partition {run : Evaluator} {value : Value} {items : List Value} {extra : Extra}
    {position : Position} {settings : Settings} {M M' : Machine}
    (h : Eval.toList run value position settings M = .ok items M') :
    ∃ (heads : List Value) (groups : List (List Value)),
      Eval.applyTrailing run .group extra value position settings M =
        .ok (.array (groups.map .array)) M' ∧
      groups.flatten.Perm items ∧
      groups.map List.head? = heads.map some ∧
      (heads.Pairwise fun a b => a.looseEq b = false ∧ b.looseEq a = false) ∧
      heads.Sublist items ∧
      (∀ i head, heads[i]? = some head → ∃ before after, items = before ++ head :: after ∧
        ∀ v ∈ before, placeAmong heads v < i) ∧
      (∀ v ∈ items, ∃ head, heads[placeAmong heads v]? = some head ∧ head.looseEq v = true) ∧
      ∀ i group, groups[i]? = some group →
        group = items.filter (placeAmong heads · == i) ∧ group ≠ [] := by
  have hgrouped := grouped items
  refine ⟨groupHeads items, groupValues items, ?_, perm_groupValues items, hgrouped.map_head?,
    hgrouped.pairwise_heads, sublist_groupHeads items, hgrouped.first,
    fun v hv => hgrouped.exists_head hv, fun i group hgroup => ?_⟩
  · rw [Eval.applyTrailing, Eval.bind_ok h]
    rfl
  · have hlength : (groupValues items).length = (groupHeads items).length := by
      simpa using congrArg List.length hgrouped.map_head?
    have hi : i < (groupHeads items).length := hlength ▸ (List.getElem?_eq_some_iff.1 hgroup).1
    obtain rfl : groupAt (groupHeads items) items i = group :=
      Option.some.inj ((hgrouped.getElem? hi).symm.trans hgroup)
    have hhead := hgrouped.head?_groupAt (List.getElem?_eq_getElem hi)
    refine ⟨rfl, fun hnil => ?_⟩
    rw [hnil] at hhead
    cases hhead

namespace Spelled

/-- The number one and texts, three of which spell it. -/
def items : List Value := [.text "1", .number .one, .text "1.0", .text "a", .text "1"]

/-- The number goes to the first text that spells it, and the other spelling has its own group. -/
theorem group_spellings :
    let groups : List (List Value) :=
      [[.text "1", .number .one, .text "1"], [.text "1.0"], [.text "a"]]
    Eval.applyTrailing (Eval.nested 8) .group .none (.array items) .start .small .blank =
        .ok (.array (groups.map .array)) .blank ∧
      groups.flatten.Perm items := by
  intro groups
  have hitems : Eval.toList (Eval.nested 8) (.array items) .start .small .blank =
      .ok items .blank := rfl
  have hvalue : Eval.applyTrailing (Eval.nested 8) .group .none (.array items) .start .small
      .blank = .ok (.array (groups.map .array)) .blank := by rfl
  obtain ⟨-, found, hrun, hperm, -⟩ := @group_partition _ _ _ .none _ _ _ _ hitems
  have hsame : groups.map Value.array = found.map .array :=
    Value.array.inj (EStateM.Result.ok.inj (hvalue.symm.trans hrun)).1
  rw [← List.map_injective_iff.2 (fun _ _ => Value.array.inj) hsame] at hperm
  exact ⟨hvalue, hperm⟩

end Spelled

end Terse
