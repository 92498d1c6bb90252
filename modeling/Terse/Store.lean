import Terse.Scope

/-!
# The store of sequences

A sequence as a value does not change; the elements that it has produced are its progress, which
the store keeps under the label of the sequence.  Labels are handed out by the site: the place at
which the program, or the production of an element, has arrived in making sequences.
-/

namespace Terse

/-- A sequence with the elements it has so far. -/
structure Progress where
  sequence : Sequence
  elements : Array Value
  /-- How many elements the generator has produced. -/
  runs : Nat

namespace Progress

/-- A sequence that has only its first elements. -/
def start (sequence : Sequence) : Progress := ⟨sequence, sequence.seeds.toArray, 0⟩

/-- The elements produced so far, up to the length. -/
def computed (progress : Progress) : List Value :=
  match progress.sequence.length with
  | some length => progress.elements.toList.take length
  | none => progress.elements.toList

/-- Appends an element that the generator produced. -/
def push (progress : Progress) (value : Value) : Progress :=
  { progress with elements := progress.elements.push value, runs := progress.runs + 1 }

end Progress

/-- The sequences that were made, the newest first. -/
abbrev Store := List Progress

namespace Store

/-- The progress of the sequence with a label. -/
def find? (store : Store) (label : Label) : Option Progress :=
  match store with
  | [] => none
  | progress :: rest =>
    if progress.sequence.label = label then some progress else find? rest label

/-- Adds a new sequence. -/
def add (store : Store) (sequence : Sequence) : Store := .start sequence :: store

/-- Appends an element to the sequence with a label. -/
def push (store : Store) (label : Label) (value : Value) : Store :=
  match store with
  | [] => []
  | progress :: rest =>
    if progress.sequence.label = label then progress.push value :: rest
    else progress :: push rest label value

/-- Forgets the sequences whose labels start with `frame`. -/
def discard (store : Store) (frame : Label) : Store :=
  store.filter fun progress => !frame.isPrefixOf progress.sequence.label

/-- The progress of a sequence. -/
def progress (store : Store) (sequence : Sequence) : Progress :=
  (store.find? sequence.label).getD (.start sequence)

end Store

/-- Where sequences are made: the front part that their labels share, and how many there are
already. -/
structure Site where
  frame : Label
  made : Nat

namespace Site

/-- The place at which a program starts. -/
def root : Site := ⟨[], 0⟩

/-- The place at which the production of an element starts. -/
def ofElement (sequence : Sequence) (index : Nat) : Site := ⟨sequence.label ++ [index], 0⟩

/-- The label of the next sequence. -/
def label (site : Site) : Label := site.frame ++ [site.made]

/-- The place behind the next sequence. -/
def next (site : Site) : Site := ⟨site.frame, site.made + 1⟩

end Site

end Terse
