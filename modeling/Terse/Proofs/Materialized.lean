import Mathlib.Data.List.Infix
import Terse.Proofs.Cache
import Terse.Proofs.Convergence

/-!
# A sequence with a length is as good as its elements

The operators that work on collections treat a sequence differently from an array: they walk through
it, produce elements between the runs of their blocks, take the length from the declaration, and
stop early where they can.  `Use` lists these operators with their other operands.  This module
shows that the difference cannot be observed: if the elements of a sequence can be produced, every
use of the sequence ends like the same use of the array of its elements.

## Strategy

There are two steps.

* In a machine that has all elements, a use of the sequence and a use of the array are the same run
  (`Materialized.apply_eq`).  Every element is given without a run of the generator, so a walk
  through the sequence is a walk through a list (`Materialized.walk`), and the operators that
  collect, filter or search are walks with different visits.  Blocks that run between two elements
  may produce others, but they do not take elements away (`Materialized.step`).
* A machine that has not produced all of them is at the same place of the program as one that has,
  so that runs which end in one end in the other (`Honest.settles`).  That it is at the same place
  is because generators run in scopes of their own (`Reached.walk_taken`).

A fold with neither a map nor a combinator is not among the uses: it gives back a sequence as it is,
and not the array of its elements.
-/

namespace Terse

open Eval (SamePlace)

/-! ## Uses of a collection -/

/-- An operator on a collection, with its other operands. -/
inductive Use where
  /-- The number of elements, `#`. -/
  | length
  /-- The element at a place, `?`. -/
  | index (place : Value)
  /-- The first element, `:{`. -/
  | head
  /-- The texts of the elements with a separator between them, `:|`. -/
  | join (separator : Value)
  /-- The elements that a block keeps, `$`. -/
  | filter (block : Block)
  /-- Whether a block gives a true value for some element, `$:`. -/
  | any (block : Block)
  /-- A fold with a map, a combinator or both. -/
  | fold (map : Option Block) (combinator : Option Combinator)
      (hparts : map.isSome ∨ combinator.isSome)
  /-- A zip with the collection on the left, `@`. -/
  | zipLeft (right : Value) (combinator : Option Combinator)
  /-- A zip with the collection on the right. -/
  | zipRight (left : Value) (combinator : Option Combinator)
  /-- The first elements. -/
  | take (count : Nat)

namespace Use

/-- The other operands. -/
def operands : Use → List Value
  | index place => [place]
  | join separator => [separator]
  | zipLeft right _ => [right]
  | zipRight left _ => [left]
  | length | head | filter _ | any _ | fold _ _ _ | take _ => []

/-- Applies the operator to a collection. -/
def apply (use : Use) (run : Evaluator) (collection : Value) (position : Position) : Eval Value :=
  match use with
  | length => Eval.applyTrailing run .length .none collection position
  | index place => Eval.applyBinary run .index collection place position
  | head => Eval.applyTrailing run .head .none collection position
  | join separator => Eval.applyBinary run .join collection separator position
  | filter block => Eval.filter run block collection position
  | any block => Eval.any run block collection position
  | fold map combinator _ => Eval.fold run collection map combinator position
  | zipLeft right combinator => Eval.zip run collection right combinator position
  | zipRight left combinator => Eval.zip run left collection combinator position
  | take count => return .array (← Eval.take run collection count position)

/-- Uses only need to know the collection and the other operands. -/
theorem honest {K : Knowledge} (use : Use) (hoperands : K.all use.operands) {v : Value}
    (hv : K.has v) (position : Position) :
    Honest .free K (fun run => use.apply run v position) Knowledge.has := by
  cases use with
  | length => exact Honest.applyTrailing position .length .none hv
  | index place =>
      have hstrict : BinaryOp.index.strict = true := rfl
      exact Honest.applyBinary position hstrict hv (hoperands place List.mem_cons_self)
  | head => exact Honest.applyTrailing position .head .none hv
  | join separator =>
      have hstrict : BinaryOp.join.strict = true := rfl
      exact Honest.applyBinary position hstrict hv (hoperands separator List.mem_cons_self)
  | filter block => exact Honest.filter position trivial hv
  | any block => exact Honest.any position trivial hv
  | fold map combinator hparts =>
      exact Honest.fold position hv (fun _ _ => trivial) fun _ _ => trivial
  | zipLeft right combinator =>
      exact Honest.zip position hv (hoperands right List.mem_cons_self) fun _ _ => trivial
  | zipRight left combinator =>
      exact Honest.zip position (hoperands left List.mem_cons_self) hv fun _ _ => trivial
  | take count =>
      exact .bind (Honest.take position hv count) fun K' _ _ hitems => .pure (K'.array_iff.2 hitems)

end Use

/-! ## Walks through lists -/

namespace Eval

/-- Two computations run alike if they start alike and go on alike. -/
theorem bind_congr_run {α β : Type} {settings : Settings} {M : Machine} {x : Eval α}
    {f g : α → Eval β}
    (h : ∀ a M', x settings M = .ok a M' → f a settings M' = g a settings M') :
    (x >>= f) settings M = (x >>= g) settings M := by
  cases hrun : x settings M with
  | ok a M' => rw [bind_ok hrun, bind_ok hrun, h a M' hrun]
  | error halt M' => rw [bind_error hrun, bind_error hrun]

theorem bind_congr_left {α β : Type} {settings : Settings} {M : Machine} {x y : Eval α}
    (h : x settings M = y settings M) (f : α → Eval β) :
    (x >>= f) settings M = (y >>= f) settings M := by
  simp only [Bind.bind, ReaderT.bind, EStateM.bind, h]

/-- Visits the elements of a list, while `visit` asks for more. -/
def walkList {σ : Type} (visit : σ → Value → Eval (Bool × σ)) : List Value → σ → Eval σ
  | [], state => return state
  | v :: rest, state => do
    let (more, state) ← visit state v
    if more then walkList visit rest state else return state

/-- Results that are put in front of each other come out in the opposite order. -/
theorem walkList_collect {β : Type} (step : Value → Eval β) (items : List Value) (made : List β) :
    walkList (fun made v => step v >>= fun b => pure (true, b :: made)) items made =
      items.mapM step >>= fun results => pure (results.reverse ++ made) := by
  induction items generalizing made with
  | nil => simp [walkList]
  | cons v rest ih =>
      simp only [walkList, List.mapM_cons, bind_assoc, pure_bind, if_true, ih, List.reverse_cons,
        List.append_assoc, List.singleton_append]

theorem walkList_filter (keep : Value → Eval Bool) (items kept : List Value) :
    walkList (fun kept v => keep v >>= fun b => pure (true, if b then v :: kept else kept)) items
      kept = filterList keep items >>= fun others => pure (others.reverse ++ kept) := by
  induction items generalizing kept with
  | nil => simp [walkList, filterList]
  | cons v rest ih =>
      simp only [walkList, filterList, bind_assoc, pure_bind, if_true, ih]
      refine bind_congr fun b => ?_
      cases b with
      | true => simp
      | false => simp

theorem walkList_any (test : Value → Eval Bool) (items : List Value) :
    walkList (fun _ v => test v >>= fun found => pure (!found, found)) items false =
      anyOfList test items := by
  induction items with
  | nil => rfl
  | cons v rest ih =>
      simp only [walkList, anyOfList, bind_assoc, pure_bind]
      refine bind_congr fun found => ?_
      cases found with
      | true => rfl
      | false => simpa using ih

end Eval

/-! ## Machines that have all elements -/

/-- A reached machine that holds a sequence and all its elements, and has produced them. -/
structure Materialized (settings : Settings) (held : List Value) (s : Sequence) (xs : List Value)
    (M : Machine) : Prop where
  reached : Reached settings held M
  sequence : Obtainable held (.sequence s)
  items : Obtainable held (.array xs)
  length : s.length = some xs.length
  elements : xs <+: (M.store.progress s).elements.toList

namespace Materialized

variable {settings : Settings} {held : List Value} {s : Sequence} {xs : List Value} {M M' : Machine}
  {d : Nat}

/-- The elements stay when a program goes on. -/
theorem step (h : Materialized settings held s xs M) {α : Type} {x : Evaluator → Eval α}
    {P : Knowledge → α → Prop} (hx : Client held x P) {a : α}
    (hrun : x (Eval.nested d) settings M = .ok a M') : Materialized settings held s xs M' := by
  obtain ⟨hinput, hM, hheld⟩ := h.reached.sound
  have hgrows := ((hx.preserves hinput hM hheld d).ok hrun).2.1
  have hextends := (h.reached.producing h.sequence).extends_of_grows hgrows
  exact ⟨.step h.reached hx hrun fun _ hK _ => hK, h.sequence, h.items, h.length,
    h.elements.trans hextends.elements⟩

theorem obtainable (h : Materialized settings held s xs M) {v : Value} (hv : v ∈ xs) :
    Obtainable held v :=
  fun K hK => K.array_iff.1 (h.items K hK) v hv

/-- Elements are given without a run of the generator. -/
theorem elementAt (h : Materialized settings held s xs M) (run : Evaluator) (index : Nat) :
    Eval.elementAt run s index settings M = .ok xs[index]? M := by
  by_cases hindex : index < xs.length
  · have hlength : ¬ s.length.any (· ≤ index) = true := by
      simp only [h.length, Option.any_some, decide_eq_true_eq]
      omega
    obtain ⟨rest, hrest⟩ := h.elements
    rw [List.getElem?_eq_getElem hindex]
    refine Eval.elementAt_of_getElem? hlength ?_
    rw [← Array.getElem?_toList, ← hrest, List.getElem?_append_left hindex,
      List.getElem?_eq_getElem hindex]
  · have hlength : s.length.any (· ≤ index) = true := by
      simp only [h.length, Option.any_some, decide_eq_true_eq]
      omega
    rw [Eval.elementAt_of_length_le hlength, List.getElem?_eq_none (Nat.le_of_not_lt hindex)]

/-- A walk through the sequence is a walk through the list of its elements, whatever the visits
do. -/
theorem walk (h : Materialized settings held s xs M) {σ : Type}
    (visit : Evaluator → σ → Value → Eval (Bool × σ))
    (hvisit : ∀ state, ∀ v ∈ xs, Client held (fun run => visit run state v) fun _ _ => True)
    (count index : Nat) (state : σ) :
    Eval.walk (Eval.nested d) s (visit (Eval.nested d)) count index state settings M =
      Eval.walkList (visit (Eval.nested d)) ((xs.drop index).take count) state settings M := by
  -- By induction on the steps that are left; a visit may change the machine, but keeps the
  -- elements.
  induction count generalizing M index state with
  | zero => rfl
  | succ count ih =>
      rw [Eval.walk, Eval.bind_ok (h.elementAt (Eval.nested d) index)]
      by_cases hindex : index < xs.length
      · rw [List.getElem?_eq_getElem hindex, List.drop_eq_getElem_cons hindex, List.take_succ_cons,
          Eval.walkList]
        refine Eval.bind_congr_run fun result N hrun => ?_
        obtain ⟨more, state'⟩ := result
        cases more with
        | false => rfl
        | true =>
            have h' := h.step (hvisit state _ (List.getElem_mem hindex)) hrun
            exact ih h' (index + 1) state'
      · rw [List.getElem?_eq_none (Nat.le_of_not_lt hindex),
          List.drop_eq_nil_of_le (Nat.le_of_not_lt hindex), List.take_nil]
        rfl

theorem requireLength (h : Materialized settings held s xs M) (action : WholeAction)
    (position : Position) : Eval.requireLength s action position = pure xs.length := by
  rw [Eval.requireLength, h.length]

/-- Walks that collect the results of a step. -/
theorem collect (h : Materialized settings held s xs M) {β γ : Type}
    (step : Evaluator → Value → Eval β)
    (hstep : ∀ v ∈ xs, Client held (fun run => step run v) fun _ _ => True) (count : Nat)
    (rest : List β → Eval γ) :
    (Eval.walk (Eval.nested d) s
      (fun made v => step (Eval.nested d) v >>= fun b => pure (true, b :: made)) count 0 [] >>=
        fun made => rest made.reverse) settings M =
      ((xs.take count).mapM (step (Eval.nested d)) >>= rest) settings M := by
  have hwalk := h.walk (d := d)
    (fun run made v => step run v >>= fun b => pure (true, b :: made))
    (fun made v hv K hK => .bind (hstep v hv K hK) fun _ _ _ _ => .pure trivial) count 0 []
  rw [Eval.bind_congr_left hwalk, List.drop_zero, Eval.walkList_collect]
  simp only [bind_assoc, pure_bind, List.append_nil, List.reverse_reverse]

theorem takeElements (h : Materialized settings held s xs M) (count : Nat) :
    Eval.takeElements (Eval.nested d) s count settings M = .ok (xs.take count) M := by
  have hcollect := h.collect (d := d) (fun _ v => pure v) (fun v hv K hK => .pure trivial)
    count pure
  have hpure : (xs.take count).mapM (fun v => (pure v : Eval Value)) = pure (xs.take count) :=
    (List.mapM_pure (f := id)).trans (by rw [List.map_id])
  simp only [pure_bind, hpure] at hcollect
  exact hcollect

theorem toList (h : Materialized settings held s xs M) (position : Position) :
    Eval.toList (Eval.nested d) (.sequence s) position settings M = .ok xs M := by
  rw [Eval.toList, Eval.allElements, h.requireLength, pure_bind, h.takeElements, List.take_length]

theorem mapElements (h : Materialized settings held s xs M) (step : Evaluator → Value → Eval Value)
    (hstep : ∀ v ∈ xs, Client held (fun run => step run v) fun _ _ => True)
    (position : Position) :
    Eval.mapElements (Eval.nested d) s position (step (Eval.nested d)) settings M =
      xs.mapM (step (Eval.nested d)) settings M := by
  have hcollect := h.collect (d := d) step hstep xs.length pure
  rw [Eval.mapElements, h.requireLength, pure_bind]
  rwa [List.take_length, bind_pure] at hcollect

theorem joinElements (h : Materialized settings held s xs M)
    (toText : Evaluator → Value → Eval String)
    (htext : ∀ v ∈ xs, Client held (fun run => toText run v) fun _ _ => True)
    (separator : String) (position : Position) :
    Eval.joinElements (Eval.nested d) s separator position (toText (Eval.nested d)) settings M =
      (xs.mapM (toText (Eval.nested d)) >>= fun texts =>
        pure (String.intercalate separator texts)) settings M := by
  have hcollect := h.collect (d := d) toText htext xs.length fun texts =>
    pure (String.intercalate separator texts)
  rw [Eval.joinElements, h.requireLength, pure_bind]
  rwa [List.take_length] at hcollect

theorem filterElements (h : Materialized settings held s xs M)
    (keep : Evaluator → Value → Eval Bool)
    (hkeep : ∀ v ∈ xs, Client held (fun run => keep run v) fun _ _ => True)
    (position : Position) :
    Eval.filterElements (Eval.nested d) s position (keep (Eval.nested d)) settings M =
      Eval.filterList (keep (Eval.nested d)) xs settings M := by
  have hwalk := h.walk (d := d)
    (fun run kept v => keep run v >>= fun b => pure (true, if b then v :: kept else kept))
    (fun made v hv K hK => .bind (hkeep v hv K hK) fun _ _ _ _ => .pure trivial) xs.length 0 []
  rw [Eval.filterElements, h.requireLength, pure_bind]
  refine (Eval.bind_congr_left hwalk _).trans ?_
  rw [List.drop_zero, List.take_length, Eval.walkList_filter]
  simp only [bind_assoc, pure_bind, List.append_nil, List.reverse_reverse, bind_pure]

theorem anyElement (h : Materialized settings held s xs M)
    (test : Evaluator → Value → Eval Bool)
    (htest : ∀ v ∈ xs, Client held (fun run => test run v) fun _ _ => True)
    (position : Position) :
    Eval.anyElement (Eval.nested d) s position (test (Eval.nested d)) settings M =
      Eval.anyOfList (test (Eval.nested d)) xs settings M := by
  have hwalk := h.walk (d := d)
    (fun run (_ : Bool) v => test run v >>= fun found => pure (!found, found))
    (fun made v hv K hK => .bind (htest v hv K hK) fun _ _ _ _ => .pure trivial) xs.length 0 false
  rw [Eval.anyElement, h.requireLength, pure_bind]
  refine hwalk.trans ?_
  rw [List.drop_zero, List.take_length, Eval.walkList_any]

/-! ### Uses -/

theorem foldElements (h : Materialized settings held s xs M) (map : Option Block)
    (position : Position) :
    Eval.foldElements (Eval.nested d) (.sequence s) map position settings M =
      Eval.foldElements (Eval.nested d) (.array xs) map position settings M := by
  cases map with
  | none => exact h.toList position
  | some block =>
      exact h.mapElements (fun run => Eval.applyBlock run block)
        (fun v hv K hK => .weaken (.block trivial (h.obtainable hv K hK)) fun _ _ _ _ => trivial)
        position

theorem fold (h : Materialized settings held s xs M) {map : Option Block}
    {combinator : Option Combinator} (hparts : map.isSome ∨ combinator.isSome)
    (position : Position) :
    Eval.fold (Eval.nested d) (.sequence s) map combinator position settings M =
      Eval.fold (Eval.nested d) (.array xs) map combinator position settings M := by
  cases combinator with
  | some c =>
      simp only [Eval.fold]
      exact Eval.bind_congr_left (h.foldElements map position) _
  | none =>
      cases map with
      | some block => exact Eval.bind_congr_left (h.foldElements (some block) position) _
      | none => simp at hparts

theorem sequencePlace (h : Materialized settings held s xs M) (i : Int) (position : Position) :
    Eval.sequencePlace s i position = pure (Eval.resolveIndex i xs.length) := by
  rw [Eval.sequencePlace]
  split
  · rw [h.requireLength, pure_bind]
  · rename_i hpositive
    rw [Eval.resolveIndex, if_neg hpositive]

theorem index (h : Materialized settings held s xs M) {w : Value} (hw : Obtainable held w)
    (position : Position) :
    Eval.index (Eval.nested d) (.sequence s) w position settings M =
      Eval.index (Eval.nested d) (.array xs) w position settings M := by
  have hnumber : Client held (fun run => Eval.toNumber run w position) fun _ _ => True :=
    fun K hK => Honest.toNumber position (hw K hK)
  refine Eval.bind_congr_run fun n N hrun => Eval.bind_congr_run fun i N' hrun' => ?_
  have h' := (h.step hnumber hrun).step (d := d)
    (fun K _ => Honest.ofConversion n.toIndex position) hrun'
  simp only [h'.sequencePlace i position, Eval.toList, pure_bind]
  cases hplace : Eval.resolveIndex i xs.length with
  | none => rfl
  | some place => exact Eval.bind_ok (h'.elementAt (Eval.nested d) place)

theorem head (h : Materialized settings held s xs M) (position : Position) :
    Eval.head (Eval.nested d) (.sequence s) position settings M =
      Eval.head (Eval.nested d) (.array xs) position settings M := by
  simp only [Eval.head, Eval.toList, pure_bind, List.head?_eq_getElem?]
  exact Eval.bind_ok (h.elementAt (Eval.nested d) 0)

theorem join (h : Materialized settings held s xs M) (separator : String) (position : Position) :
    Eval.join (Eval.nested d) (.sequence s) separator position settings M =
      Eval.join (Eval.nested d) (.array xs) separator position settings M := by
  have hjoin := h.joinElements (d := d) (fun run => Eval.toText run)
    (fun v hv K hK => Honest.toText (h.obtainable hv K hK)) separator position
  simp only [Eval.join, Eval.toList, pure_bind]
  refine (Eval.bind_congr_left hjoin _).trans ?_
  simp only [bind_assoc, pure_bind]

theorem client_holds (h : Materialized settings held s xs M) (block : Block) :
    ∀ v ∈ xs, Client held (fun run => Eval.holds run block v) fun _ _ => True :=
  fun _ hv K hK => Honest.holds trivial (h.obtainable hv K hK)

theorem zipOperands_left (h : Materialized settings held s xs M) (w : Value)
    (position : Position) :
    Eval.zipOperands (Eval.nested d) (.sequence s) w position settings M =
      Eval.zipOperands (Eval.nested d) (.array xs) w position settings M := by
  have hbounded : (Value.sequence s).isUnbounded = false := by
    rw [Value.isUnbounded, h.length, Option.isNone_some]
  have hlist := h.toList (d := d) position
  unfold Eval.zipOperands
  rw [hbounded]
  cases w.isUnbounded with
  | true => exact Eval.bind_ok hlist
  | false => exact Eval.bind_ok hlist

theorem zipOperands_right (h : Materialized settings held s xs M) {w : Value}
    (hw : Obtainable held w) (position : Position) :
    Eval.zipOperands (Eval.nested d) w (.sequence s) position settings M =
      Eval.zipOperands (Eval.nested d) w (.array xs) position settings M := by
  have hbounded : (Value.sequence s).isUnbounded = false := by
    rw [Value.isUnbounded, h.length, Option.isNone_some]
  unfold Eval.zipOperands
  rw [hbounded]
  cases w.isUnbounded with
  | true => exact Eval.bind_ok (h.toList position)
  | false =>
      -- The left operand is listed first, which may run generators.
      refine Eval.bind_congr_run fun lefts N hrun => ?_
      have hclient : Client held (fun run => Eval.toList run w position) Knowledge.all :=
        fun K hK => Honest.toList position (hw K hK)
      exact Eval.bind_ok ((h.step hclient hrun).toList position)

/-- In a machine that has all elements, a use of the sequence runs like a use of the array. -/
theorem apply_eq (h : Materialized settings held s xs M) (use : Use)
    (hoperands : ∀ w ∈ use.operands, Obtainable held w) (position : Position) :
    use.apply (Eval.nested d) (.sequence s) position settings M =
      use.apply (Eval.nested d) (.array xs) position settings M := by
  cases use with
  | length =>
      simp only [Use.apply, Eval.applyTrailing, Eval.length, h.requireLength, Eval.toList,
        pure_bind]
  | index place => exact h.index (hoperands place List.mem_cons_self) position
  | head => exact h.head position
  | join separator =>
      have hseparator := hoperands separator List.mem_cons_self
      refine Eval.bind_congr_run fun text N hrun => ?_
      exact (h.step (fun K hK => Honest.toText (hseparator K hK)) hrun).join text position
  | filter block =>
      exact Eval.bind_congr_left (h.filterElements _ (h.client_holds block) position) _
  | any block => exact Eval.bind_congr_left (h.anyElement _ (h.client_holds block) position) _
  | fold map combinator hparts => exact h.fold hparts position
  | zipLeft right combinator => exact Eval.bind_congr_left (h.zipOperands_left right position) _
  | zipRight left combinator =>
      exact Eval.bind_congr_left
        (h.zipOperands_right (hoperands left List.mem_cons_self) position) _
  | take count => exact Eval.bind_congr_left (h.takeElements count) _

end Materialized

/-! ## Producing all elements -/

section Production

variable {settings : Settings} {held : List Value} {s : Sequence} {M M' : Machine} {d : Nat}

/-- A walk that takes elements produces them, and stays at its place in the program. -/
theorem Reached.walk_taken (h : Reached settings held M) (hs : Obtainable held (.sequence s))
    {n : Nat} (hlength : s.length = some n) {count : Nat} (taken : List Value) {made : List Value}
    (hbound : taken.length + count ≤ n)
    (htaken : taken.reverse <+: (M.store.progress s).elements.toList)
    (hrun : Eval.walk (Eval.nested d) s (fun taken v => pure (true, v :: taken)) count taken.length
      taken settings M = .ok made M') :
    made.length = taken.length + count ∧ made.reverse <+: (M'.store.progress s).elements.toList ∧
      SamePlace M M' := by
  -- What is taken so far is the front of what has been produced, in the opposite order.
  induction count generalizing M taken with
  | zero =>
      obtain ⟨rfl, rfl⟩ := EStateM.Result.ok.inj hrun
      exact ⟨rfl, htaken, .refl M⟩
  | succ count ih =>
      rw [Eval.walk] at hrun
      have hplace := Eval.elementAt_samePlace (Eval.nested d) settings M s taken.length
      cases helement : Eval.elementAt (Eval.nested d) s taken.length settings M with
      | error halt N =>
          rw [Eval.bind_error helement] at hrun
          cases hrun
      | ok element N =>
          rw [Eval.bind_ok helement] at hrun
          rw [Eval.final_ok helement] at hplace
          obtain ⟨hinput, hM, hheld⟩ := h.sound
          cases element with
          | none =>
              -- Before the length there is an element.
              have hcases := (nested_safe_produced hinput d).elementAt_cases hM (hs _ hheld)
                taken.length
              rw [helement] at hcases
              cases hcases with
              | outside houtside =>
                  simp only [hlength, Option.any_some, decide_eq_true_eq] at houtside
                  omega
          | some v =>
              obtain ⟨hN, -, hv⟩ := h.kept_of_elementAt hs helement
              have hgrows := (((client_element hs _).preserves hinput hM hheld d).ok helement).2.1
              have hfront := htaken.trans ((h.producing hs).extends_of_grows hgrows).elements
              have htaken' : (v :: taken).reverse <+: (N.store.progress s).elements.toList := by
                rw [← Array.getElem?_toList, ← List.length_reverse] at hv
                obtain ⟨hlt, rfl⟩ := List.getElem?_eq_some_iff.1 hv
                rw [List.reverse_cons]
                exact List.concat_get_prefix hfront hlt
              obtain ⟨hmade, hall, hplace'⟩ := ih hN (v :: taken)
                (by rw [List.length_cons]; omega) htaken' hrun
              refine ⟨?_, hall, hplace.trans hplace'⟩
              rw [hmade, List.length_cons]
              omega

/-- A machine that has been asked for all elements has them. -/
theorem Reached.materialized (h : Reached settings held M) (hs : Obtainable held (.sequence s))
    {position : Position} {xs : List Value}
    (hrun : Eval.allElements (Eval.nested d) s position settings M = .ok xs M') :
    Materialized settings (.array xs :: held) s xs M' ∧ SamePlace M M' := by
  have hclient : Client held (fun run => Eval.allElements run s position) Knowledge.all :=
    fun K hK => Honest.allElements position (hs K hK)
  have hreached : Reached settings (.array xs :: held) M' :=
    .step h hclient hrun fun K hK hxs => Knowledge.all_cons (K.array_iff.2 hxs) hK
  rw [Eval.allElements, Eval.requireLength] at hrun
  cases hlength : s.length with
  | none =>
      rw [hlength] at hrun
      cases hrun
  | some n =>
      rw [hlength, pure_bind, Eval.takeElements] at hrun
      cases hwalk : Eval.walk (Eval.nested d) s (fun taken v => pure (true, v :: taken)) n 0 []
          settings M with
      | error halt N =>
          rw [Eval.bind_error hwalk] at hrun
          cases hrun
      | ok made N =>
          rw [Eval.bind_ok hwalk] at hrun
          obtain ⟨rfl, rfl⟩ := EStateM.Result.ok.inj hrun
          obtain ⟨hmade, hall, hplace⟩ := h.walk_taken hs hlength [] (by simp) List.nil_prefix hwalk
          refine ⟨⟨hreached, ?_, ?_, ?_, hall⟩, hplace⟩
          · exact fun K hK => hs K fun v hv => hK v (List.mem_cons_of_mem _ hv)
          · exact fun K hK => hK _ List.mem_cons_self
          · rw [hlength, List.length_reverse, hmade, List.length_nil, Nat.zero_add]

end Production

/-- If all elements of a sequence can be produced, every use of the sequence ends like the same use
of the array of its elements: a use of either that ends, with a value or an error, settles with the
same value or error for the other, and leaves the same scope.  The sequence is used in the machine
before its elements are asked for, where the other operands are held, and the array in the machine
that has produced them.  The output has no limit. -/
theorem Use.settles_materialized {settings : Settings} {held : List Value} {M M' : Machine}
    {s : Sequence} {xs : List Value} {d₀ : Nat} {position₀ : Position}
    (h : Reached settings held M) (hs : Obtainable held (.sequence s))
    (hunlimited : M.output.room = none)
    (hrun : Eval.allElements (Eval.nested d₀) s position₀ settings M = .ok xs M') (use : Use)
    (hoperands : ∀ w ∈ use.operands, Obtainable held w) (position : Position)
    (result : Except EvalError Value) (scope : Scope) :
    ((∃ d, EndsAt settings M (fun run => use.apply run (.sequence s) position) result scope d) →
      Settles settings M' (fun run => use.apply run (.array xs) position) result scope) ∧
    ((∃ d, EndsAt settings M' (fun run => use.apply run (.array xs) position) result scope d) →
      Settles settings M (fun run => use.apply run (.sequence s) position) result scope) := by
  obtain ⟨hinput, hM, hheld⟩ := h.sound
  obtain ⟨hmaterialized, hplace⟩ := h.materialized hs hrun
  obtain ⟨-, hM', hheld'⟩ := hmaterialized.reached.sound
  have hclient : Client held (fun run => Eval.allElements run s position₀) Knowledge.all :=
    fun K hK => Honest.allElements position₀ (hs K hK)
  have hgrows := ((hclient.preserves hinput hM hheld d₀).ok hrun).2.1
  have hunlimited' := hgrows.unlimited.2 hunlimited
  have huse : ∀ K : Knowledge, K.all held →
      Honest .free K (fun run => use.apply run (.sequence s) position) Knowledge.has :=
    fun K hK => use.honest (fun w hw => hoperands w hw K hK) (hs K hK) position
  have hknown : M'.knowledge.all held := fun v hv => hgrows.known (hheld v hv)
  -- In the machine that has the elements, the two uses are the same.
  have hsame : ∀ d, EndsAt settings M' (fun run => use.apply run (.sequence s) position) result
      scope d ↔ EndsAt settings M' (fun run => use.apply run (.array xs) position) result scope d :=
    fun d => endsAt_congr (hmaterialized.apply_eq use (fun w hw K hK => hoperands w hw K
      fun v hv => hK v (List.mem_cons_of_mem _ hv)) position)
  -- The use of the sequence is carried from one machine to the other, in both directions.
  constructor
  · rintro ⟨d, hends⟩
    have hhonest := huse (shared M' M) fun v hv => ⟨hknown v hv, hheld v hv⟩
    obtain ⟨D, hsettles⟩ := hhonest.settles hinput hM' hM
      ⟨hplace.scope.symm, hplace.lookback.symm, hplace.site.symm⟩ hunlimited' hunlimited hends
    exact ⟨D, fun d' hd => (hsame d').1 (hsettles d' hd)⟩
  · rintro ⟨d, hends⟩
    have hhonest := huse (shared M M') fun v hv => ⟨hheld v hv, hknown v hv⟩
    exact hhonest.settles hinput hM hM' hplace hunlimited hunlimited' ((hsame d).2 hends)

/-! ## An instance -/

namespace Collecting

/-- The variable in which texts are collected. -/
def name : String := "y"

/-- The scope in which a text has been collected. -/
def collected (text : String) : Scope := Scope.empty.set name (.text text)

/-- The block `{y : y | _}`, which appends to the collected text. -/
def block : Block :=
  ⟨implicitName, ⟨[.binary .assign (.var name .start) (.binary .concat (.var name .start)
    (.var implicitName .start) .none .start) .none .start], .start⟩, .start⟩

/-- The first three growing texts. -/
def sequence : Sequence := ⟨[0], [.text "a"], Growing.generator, some 3, collected ""⟩

/-- The elements of the sequence. -/
def elements : List Value := [.text "a", .text "ab", .text "abb"]

/-- The machine that has collected a text and produced as many elements behind the first one. -/
def machine (text : String) (runs : Nat) : Machine :=
  ⟨collected text, [⟨sequence, (elements.take (runs + 1)).toArray, runs⟩], .empty, ⟨[], 1⟩,
    .unlimited⟩

/-- The map without a combinator. -/
def mapping : Use := .fold (some block) none (.inl rfl)

theorem reached_machine : Reached .small [.sequence sequence] (machine "" 0) := by
  have hstart : Reached .small [] { Machine.blank with scope := collected "" } := by
    refine .start (.text "") fun other v hv => ?_
    have hempty : ∀ other v, Scope.empty.lookup other = some v → v.Plain :=
      fun _ _ h => by simp [Scope.empty, Scope.lookup] at h
    exact Scope.forall_set hempty (.text "") other v hv
  have hseeds : ∀ K : Knowledge, K.all [.text "a"] :=
    fun K => Knowledge.all_cons (K.text "a") fun _ h => by simp at h
  have hmake : Eval.makeSequence [.text "a"] Growing.generator (some 3) .small
      { Machine.blank with scope := collected "" } = .ok (.sequence sequence) (machine "" 0) := by
    rfl
  exact .step (d := 0) hstart (fun K _ => .makeSequence (hseeds K) trivial) hmake
    fun _ _ hv => Knowledge.all_cons hv (fun _ h => by simp at h)

/-- The block appends its argument to the collected text, and gives the result. -/
theorem applyBlock_collect (runs : Nat) (text letters : String) :
    Eval.applyBlock (Eval.nested 4) block (.text letters) .small (machine text runs) =
      .ok (.text (text ++ letters)) (machine (text ++ letters) runs) := by
  rfl

/-- Mapping the block over the growing texts gives the collected texts and leaves the last one in
the variable, for the sequence as for the array. -/
theorem mapping_settles :
    EndsAt .small (machine "" 2) (fun run => mapping.apply run (.array elements) .start)
        (.ok (.array [.text "a", .text "aab", .text "aababb"])) (collected "aababb") 4 ∧
      Settles .small (machine "" 0)
        (fun run => mapping.apply run (.sequence sequence) .start)
        (.ok (.array [.text "a", .text "aab", .text "aababb"])) (collected "aababb") := by
  have hmap : mapping.apply (Eval.nested 4) (.array elements) .start .small
      (machine "" 2) =
        .ok (.array [.text "a", .text "aab", .text "aababb"]) (machine "aababb" 2) := by
    simp only [mapping, Use.apply, Eval.fold, Eval.foldElements, Eval.toList, elements, pure_bind,
      List.mapM_cons, List.mapM_nil, bind_assoc]
    rw [Eval.bind_ok (applyBlock_collect ..), Eval.bind_ok (applyBlock_collect ..),
      Eval.bind_ok (applyBlock_collect ..)]
    rfl
  have hends : EndsAt .small (machine "" 2)
      (fun run => mapping.apply run (.array elements) .start)
      (.ok (.array [.text "a", .text "aab", .text "aababb"])) (collected "aababb") 4 :=
    (endsAt_of_ok (x := fun run => mapping.apply run (.array elements) .start) hmap).2 ⟨rfl, rfl⟩
  have hrun : Eval.allElements (Eval.nested 4) sequence .start .small (machine "" 0) =
      .ok elements (machine "" 2) := by rfl
  exact ⟨hends, (Use.settles_materialized reached_machine (fun _ h => h _ List.mem_cons_self) rfl
    hrun mapping (fun _ hw => absurd hw List.not_mem_nil) .start _ _).2 ⟨4, hends⟩⟩

end Collecting

end Terse
