/-!
# Bindings of names

A finite map from names to values as a list of pairs, each name bound once when built by
`insert`.  `update` takes over the values that another list of bindings gives to names that are
bound already, some names left out.
-/

namespace Terse

/-- A list of names with their values. -/
abbrev Bindings (α : Type) := List (String × α)

namespace Bindings

variable {α : Type}

/-- The value of a name. -/
def find? (bindings : Bindings α) (name : String) : Option α :=
  match bindings with
  | [] => none
  | (other, value) :: rest => if name = other then some value else find? rest name

/-- Binds a name, replacing the value it has. -/
def insert (bindings : Bindings α) (name : String) (value : α) : Bindings α :=
  match bindings with
  | [] => [(name, value)]
  | (other, old) :: rest =>
    if name = other then (name, value) :: rest else (other, old) :: insert rest name value

/-- Takes over the values of bound names from `source`, except for the names in `excluded`. -/
def update (bindings source : Bindings α) (excluded : List String) : Bindings α :=
  bindings.map fun (name, value) =>
    if excluded.contains name then (name, value) else (name, (source.find? name).getD value)

@[simp] theorem find?_nil (name : String) : find? ([] : Bindings α) name = none := rfl

theorem find?_cons (name other : String) (value : α) (rest : Bindings α) :
    find? ((other, value) :: rest) name = if name = other then some value else find? rest name :=
  rfl

theorem find?_insert (bindings : Bindings α) (name other : String) (value : α) :
    (bindings.insert name value).find? other =
      if other = name then some value else bindings.find? other := by
  induction bindings with
  | nil => simp [insert, find?_cons]
  | cons pair rest ih =>
    obtain ⟨first, old⟩ := pair
    by_cases h : name = first
    · subst h
      by_cases ho : other = name <;> simp [insert, find?_cons, ho]
    · by_cases ho : other = first
      · subst ho
        have hne : ¬ other = name := fun h' => h h'.symm
        simp [insert, h, find?_cons, hne]
      · simp [insert, h, find?_cons, ho, ih]

theorem find?_update (bindings source : Bindings α) (excluded : List String) (name : String) :
    (bindings.update source excluded).find? name =
      (bindings.find? name).map fun value =>
        if excluded.contains name then value else (source.find? name).getD value := by
  induction bindings with
  | nil => rfl
  | cons pair rest ih =>
    obtain ⟨first, old⟩ := pair
    have step : update ((first, old) :: rest) source excluded =
        (first, if excluded.contains first then old else (source.find? first).getD old) ::
          update rest source excluded := by
      simp only [update, List.map_cons, List.cons.injEq, and_true]
      split <;> rfl
    rw [step, find?_cons, find?_cons, ih]
    by_cases h : name = first
    · subst h; simp
    · simp [h]

/-- A property of all bindings is kept when a value that has it is bound. -/
theorem forall_insert {P : String → α → Prop} {bindings : Bindings α}
    (hall : ∀ name value, bindings.find? name = some value → P name value) {name : String}
    {value : α} (hvalue : P name value) :
    ∀ other found, (bindings.insert name value).find? other = some found → P other found := by
  intro other found hfound
  rw [find?_insert] at hfound
  split at hfound
  · rename_i hsame
    rw [hsame, ← Option.some.inj hfound]
    exact hvalue
  · exact hall other found hfound

/-- A property of all bindings is kept when values that have it are taken over. -/
theorem forall_update {P : String → α → Prop} {bindings source : Bindings α}
    (hall : ∀ name value, bindings.find? name = some value → P name value)
    (hsource : ∀ name value, source.find? name = some value → P name value)
    (excluded : List String) :
    ∀ name found, (bindings.update source excluded).find? name = some found → P name found := by
  intro name found hfound
  rw [find?_update] at hfound
  obtain ⟨value, hvalue, rfl⟩ := Option.map_eq_some_iff.1 hfound
  split
  · exact hall name value hvalue
  · cases hname : source.find? name with
    | none => exact hall name value hvalue
    | some taken => exact hsource name taken hname

end Bindings

end Terse
