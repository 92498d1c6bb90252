import Terse.Value

/-!
# Scopes

A scope binds variables and functions.  Blocks, calls and combinators run in a copy of the scope
around them; `merge` then takes over what the copy says about names that both scopes bind.

In the scope of a generator, reading the generator's parameter walks back through the elements
that the sequence has so far.  `Lookback` holds those elements and how many of them have not been
read; the scope only knows the parameter's name, and forgets it when the name is bound anew.
-/

namespace Terse

/-- The elements that a generator can read back, and how many of them are unread. -/
structure Lookback where
  history : Array Value
  unread : Nat

namespace Lookback

/-- Nothing to read back. -/
def empty : Lookback := ⟨#[], 0⟩

/-- All elements unread. -/
def ofHistory (history : Array Value) : Lookback := ⟨history, history.size⟩

/-- The newest unread element. -/
def next? (lookback : Lookback) : Option (Value × Lookback) :=
  match lookback.unread with
  | 0 => none
  | unread + 1 => (lookback.history[unread]?).map (·, ⟨lookback.history, unread⟩)

end Lookback

namespace Scope

/-- The scope without bindings. -/
def empty : Scope := ⟨[], [], none⟩

/-- The value that is bound to a variable. -/
def lookup (scope : Scope) (name : String) : Option Value :=
  Bindings.find? scope.values name

/-- Reads a variable: the newest unread element for the parameter of a generator while there is
one, else the value bound to it. -/
def get? (scope : Scope) (lookback : Lookback) (name : String) : Option (Value × Lookback) :=
  let bound := (scope.lookup name).map (·, lookback)
  if scope.recurrence = some name then lookback.next?.or bound else bound

/-- Binds a variable.  A parameter of a generator is no longer read back. -/
def set (scope : Scope) (name : String) (value : Value) : Scope :=
  { scope with
    values := Bindings.insert scope.values name value
    recurrence := if scope.recurrence = some name then none else scope.recurrence }

/-- Binds several variables, one after another. -/
def setAll (scope : Scope) (values : List (String × Value)) : Scope :=
  values.foldl (fun scope (name, value) => scope.set name value) scope

/-- The function of a name. -/
def function? (scope : Scope) (name : String) : Option Function :=
  Bindings.find? scope.functions name

/-- Binds a function. -/
def define (scope : Scope) (name : String) (function : Function) : Scope :=
  { scope with functions := Bindings.insert scope.functions name function }

/-- Takes over the variables and functions that both scopes bind from an inner scope, except for
the names in `excluded`. -/
def merge (scope inner : Scope) (excluded : List String) : Scope :=
  { scope with
    values := Bindings.update scope.values inner.values excluded
    functions := Bindings.update scope.functions inner.functions excluded }

/-- Starts reading a parameter back from the history of a sequence. -/
def lookBackBy (scope : Scope) (param : String) : Scope :=
  { scope with recurrence := some param }

theorem lookup_set (scope : Scope) (name other : String) (value : Value) :
    (scope.set name value).lookup other =
      if other = name then some value else scope.lookup other :=
  Bindings.find?_insert scope.values name other value

theorem lookup_merge (scope inner : Scope) (excluded : List String) (name : String) :
    (scope.merge inner excluded).lookup name =
      (scope.lookup name).map fun value =>
        if excluded.contains name then value else (inner.lookup name).getD value :=
  Bindings.find?_update scope.values inner.values excluded name

end Scope

namespace Sequence

/-- The scope in which the element behind `elements` is produced: the parameter of the generator
is the newest element, and is read back from there on. -/
def nextScope (sequence : Sequence) (elements : Array Value) : Scope :=
  let param := sequence.generator.param
  let scope := match elements.back? with
    | some newest => sequence.scope.set param newest
    | none => sequence.scope
  scope.lookBackBy param

end Sequence

end Terse
