import Terse.Evaluation.Basic

/-!
# Sequences at work

`elementAt` produces the elements of a sequence up to an index and keeps them in the store, so
that no element is produced twice.  `walk` visits elements in order, producing each only when its
turn comes.  Operations that need all elements ask for the length first.
-/

namespace Terse

namespace Machine

/-- The machine that produces the element behind `elements`: in the scope of the sequence, on its
history, and with a place of its own for making sequences. -/
def enter (outer : Machine) (sequence : Sequence) (elements : Array Value) : Machine :=
  { outer with
    scope := sequence.nextScope elements
    lookback := .ofHistory elements
    site := .ofElement sequence elements.size }

/-- The machine after an element was produced: only sequences and output are taken over. -/
def reenter (outer : Machine) (store : Store) (output : Output) : Machine :=
  { outer with store := store, output := output }

end Machine

namespace Eval

variable (run : Evaluator)

/-- The progress of a sequence. -/
def progress (sequence : Sequence) : Eval Progress := return (← get).store.progress sequence

/-- Makes a sequence in the current scope. -/
def makeSequence (seeds : List Value) (generator : Block) (length : Option Nat) : Eval Value := do
  let machine ← get
  let sequence := ⟨machine.site.label, seeds, generator, length, machine.scope⟩
  set { machine with store := machine.store.add sequence, site := machine.site.next }
  return .sequence sequence

/-- Runs a step that produces the element behind `elements`.  If it fails, the sequences that it
made are forgotten. -/
def producing {α : Type} (sequence : Sequence) (elements : Array Value) (step : Eval α) : Eval α :=
  fun settings outer =>
    match step settings (outer.enter sequence elements) with
    | .ok value inner => .ok value (outer.reenter inner.store inner.output)
    | .error halt inner =>
      let frame := (Site.ofElement sequence elements.size).frame
      .error halt (outer.reenter (inner.store.discard frame) inner.output)

/-- Runs the generator of a sequence once and appends the value. -/
def generate (sequence : Sequence) : Eval Unit := do
  let elements := (← progress sequence).elements
  let value ← producing sequence elements (program run sequence.generator.body)
  modify fun machine => { machine with store := machine.store.push sequence.label value }

/-- Runs the generator until an index is reached, at most `count` times. -/
def fill (sequence : Sequence) (index : Nat) : Nat → Eval Unit
  | 0 => return ()
  | count + 1 => do
    if (← progress sequence).elements.size ≤ index then
      generate run sequence
      fill sequence index count

/-- The element at an index, produced if need be; none from the length on. -/
def elementAt (sequence : Sequence) (index : Nat) : Eval (Option Value) := do
  if sequence.length.any (· ≤ index) then return none
  else
    fill run sequence index (index + 1 - (← progress sequence).elements.size)
    return (← progress sequence).elements[index]?

/-- Visits at most `count` elements from an index on, while `visit` asks for more. -/
def walk {σ : Type} (sequence : Sequence) (visit : σ → Value → Eval (Bool × σ)) :
    (count index : Nat) → σ → Eval σ
  | 0, _, state => return state
  | count + 1, index, state => do
    match ← elementAt run sequence index with
    | none => return state
    | some value =>
      let (more, state) ← visit state value
      if more then walk sequence visit count (index + 1) state else return state

/-- The first `count` elements, or all if there are fewer. -/
def takeElements (sequence : Sequence) (count : Nat) : Eval (List Value) := do
  let taken ← walk run sequence (fun taken value => return (true, value :: taken)) count 0 []
  return taken.reverse

/-- The length of a sequence; without one the action fails. -/
def requireLength (sequence : Sequence) (action : WholeAction) (position : Position) : Eval Nat :=
  match sequence.length with
  | some length => return length
  | none => fail (.unbounded action position)

/-- All elements. -/
def allElements (sequence : Sequence) (position : Position) : Eval (List Value) := do
  takeElements run sequence (← requireLength sequence .materialize position)

/-- The results of a step on all elements. -/
def mapElements (sequence : Sequence) (position : Position) (step : Value → Eval Value) :
    Eval (List Value) := do
  let length ← requireLength sequence .map position
  let visit mapped value := do
    return (true, (← step value) :: mapped)
  let mapped ← walk run sequence visit length 0 []
  return mapped.reverse

/-- The elements that a test keeps. -/
def filterElements (sequence : Sequence) (position : Position) (keep : Value → Eval Bool) :
    Eval (List Value) := do
  let length ← requireLength sequence .filter position
  let visit kept value := do
    return (true, if ← keep value then value :: kept else kept)
  let kept ← walk run sequence visit length 0 []
  return kept.reverse

/-- Whether a test holds of some element; the elements behind it are not visited. -/
def anyElement (sequence : Sequence) (position : Position) (test : Value → Eval Bool) :
    Eval Bool := do
  let length ← requireLength sequence .filter position
  let visit (_ : Bool) (value : Value) : Eval (Bool × Bool) := do
    let found ← test value
    return (!found, found)
  walk run sequence visit length 0 false

/-- The texts of all elements with a separator between them. -/
def joinElements (sequence : Sequence) (separator : String) (position : Position)
    (toText : Value → Eval String) : Eval String := do
  let length ← requireLength sequence .join position
  let visit texts value := do
    return (true, (← toText value) :: texts)
  let texts ← walk run sequence visit length 0 []
  return String.intercalate separator texts.reverse

end Eval

end Terse
