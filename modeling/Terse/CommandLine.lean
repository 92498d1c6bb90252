import Terse.Run

/-!
# The command line

`Arguments.parse?` reads the arguments of the command, and `report` says what the command writes
and with which status it ends, given the files and the standard input.
-/

namespace Terse.CommandLine

/-- The options and the program of a command. -/
structure Arguments where
  /-- Whether the program is the name of a file. -/
  file : Bool := false
  precision : Option Nat := none
  /-- The lines of input, the last one first. -/
  input : List String := []
  wrap : Bool := false
  dictionary : Option String := none
  tokens : Bool := false
  tree : Bool := false
  pack : Bool := false
  contents : Option String := none

/-- The options that stand alone. -/
inductive Flag where
  | file
  | wrap
  | tokens
  | tree
  | pack

/-- The options with a value. -/
inductive Setting where
  | precision
  | input
  | dictionary

/-- What the name of an option stands for. -/
inductive Switch where
  | flag (flag : Flag)
  | setting (setting : Setting)

/-- The options by their long names. -/
def long? : String → Option Switch
  | "file" => some (.flag .file)
  | "wrap" => some (.flag .wrap)
  | "tokens" => some (.flag .tokens)
  | "ast" => some (.flag .tree)
  | "pack" => some (.flag .pack)
  | "precision" => some (.setting .precision)
  | "input" => some (.setting .input)
  | "dictionary" => some (.setting .dictionary)
  | _ => none

/-- The options by their short names. -/
def short? : Char → Option Switch
  | 'f' => some (.flag .file)
  | 'w' => some (.flag .wrap)
  | 'p' => some (.setting .precision)
  | 'i' => some (.setting .input)
  | 'd' => some (.setting .dictionary)
  | _ => none

namespace Arguments

/-- Sets a flag, once. -/
def setFlag (arguments : Arguments) : Flag → Option Arguments
  | .file => if arguments.file then none else some { arguments with file := true }
  | .wrap => if arguments.wrap then none else some { arguments with wrap := true }
  | .tokens => if arguments.tokens then none else some { arguments with tokens := true }
  | .tree => if arguments.tree then none else some { arguments with tree := true }
  | .pack => if arguments.pack then none else some { arguments with pack := true }

/-- Reads a precision: a positive number that is a word. -/
def readPrecision? (text : String) : Option Nat :=
  let digits := match text.toList with
    | '+' :: digits => digits
    | digits => digits
  (Decimal.readPlainDigits? digits).filter fun n => 0 < n && Word.holds n

/-- Gives a setting its value; only lines of input may be given more than once. -/
def setValue (arguments : Arguments) (setting : Setting) (value : String) : Option Arguments :=
  match setting with
  | .precision =>
    if arguments.precision.isSome then none
    else (readPrecision? value).map fun n => { arguments with precision := some n }
  | .input => some { arguments with input := value :: arguments.input }
  | .dictionary =>
    if arguments.dictionary.isSome || value == "" then none
    else some { arguments with dictionary := some value }

/-- Takes the program, once. -/
def setContents (arguments : Arguments) (contents : String) : Option Arguments :=
  if arguments.contents.isSome then none else some { arguments with contents := some contents }

/-- Reads a group of short options; the last of them may need a value that is still to come. -/
def readShorts (arguments : Arguments) : List Char → Option (Arguments × Option Setting)
  | [] => some (arguments, none)
  | c :: rest =>
    match short? c with
    | some (.flag flag) => do readShorts (← arguments.setFlag flag) rest
    | some (.setting setting) =>
      match rest with
      | [] => some (arguments, some setting)
      | '=' :: value => (arguments.setValue setting (String.ofList value)).map (·, none)
      | value => (arguments.setValue setting (String.ofList value)).map (·, none)
    | none => none

/-- Reads a long option, which may need a value that is still to come. -/
def readLong (arguments : Arguments) (cs : List Char) : Option (Arguments × Option Setting) :=
  let name := String.ofList (cs.takeWhile (· != '='))
  match long? name, cs.dropWhile (· != '=') with
  | some (.flag flag), [] => (arguments.setFlag flag).map (·, none)
  | some (.flag _), _ => none
  | some (.setting setting), [] => some (arguments, some setting)
  | some (.setting setting), _ :: value =>
    (arguments.setValue setting (String.ofList value)).map (·, none)
  | none, _ => none

/-- Reads arguments.  `pending` is a setting whose value comes next; an argument that looks like an
option is not a value. -/
def readAll (arguments : Arguments) (pending : Option Setting) : List String → Option Arguments
  | [] => if pending.isSome then none else some arguments
  | arg :: rest =>
    match arg.toList, pending with
    | ['-', '-'], none => rest.foldlM setContents arguments
    | '-' :: '-' :: name, none => do
      let (arguments, pending) ← arguments.readLong name
      readAll arguments pending rest
    | '-' :: c :: shorts, none => do
      let (arguments, pending) ← arguments.readShorts (c :: shorts)
      readAll arguments pending rest
    | '-' :: _ :: _, some _ => none
    | _, some setting => do readAll (← arguments.setValue setting arg) none rest
    | _, none => do readAll (← arguments.setContents arg) none rest

/-- Reads the arguments of a command, which has exactly one program. -/
def parse? (args : List String) : Option Arguments :=
  (readAll {} none args).filter (·.contents.isSome)

/-- The names of the files that a command reads. -/
def files (arguments : Arguments) : List String :=
  (if arguments.file then arguments.contents.toList else []) ++ arguments.dictionary.toList

/-- Whether a command reads the standard input. -/
def readsInput (arguments : Arguments) : Bool :=
  arguments.input.isEmpty && !arguments.pack

end Arguments

/-- What a command writes, and the status it ends with. -/
structure Report where
  status : Nat
  output : String
  errors : String

/-- The end of a command that failed. -/
def failed (output : String) (error : String) : Report := ⟨1, output, error ++ "\n"⟩

/-- The end of a command with arguments that cannot be read. -/
def usage : Report := ⟨2, "", ""⟩

/-- The contents of a file, or the message that it cannot be read. -/
def readFile (files : String → Option String) (what name : String) : Except String String :=
  match files name with
  | some contents => .ok contents
  | none =>
    .error s!"Failed to read the {what} '{name}'. Perhaps this file does not exist?"

/-- The lines of the standard input. -/
def inputLines (input : ByteArray) : Except String (List String) :=
  match String.fromUTF8? input with
  | some text => .ok (Source.lines text)
  | none => .error "stream did not contain valid UTF-8"

/-- Packs a program. -/
def packReport (source : String) : Report :=
  match Packing.pack source with
  | some packed => ⟨0, packed ++ "\n", ""⟩
  | none => failed "" "Only printable ASCII programs can be packed."

/-- Runs a program. -/
def runReport (options : Options) (source : String) : Report :=
  match Run.source options source true .unlimited with
  | .ok _ output => ⟨0, output.written, ""⟩
  | .error failure output => failed output.written (failure.render source)

/-- What a command does, given the files and the standard input. -/
def Arguments.report (arguments : Arguments) (files : String → Option String)
    (input : ByteArray) : Report :=
  let contents := arguments.contents.getD ""
  let source := if arguments.file then readFile files "program file" contents else .ok contents
  match source with
  | .error message => failed "" message
  | .ok source =>
    if arguments.pack then packReport source
    else
      match arguments.dictionary.mapM (readFile files "dictionary") with
      | .error message => failed "" message
      | .ok words =>
        let options : Options := {
          precision := arguments.precision.getD Session.defaultPrecision
          input := if arguments.input.isEmpty then inputLines input
            else .ok arguments.input.reverse
          wrap := arguments.wrap
          listTokens := arguments.tokens
          listTree := arguments.tree
          dictionary := (words.map Dictionary.ofText).getD .empty }
        runReport options source

/-- What the command does with its arguments. -/
def report (args : List String) (files : String → Option String) (input : ByteArray) : Report :=
  match Arguments.parse? args with
  | some arguments => arguments.report files input
  | none => usage

end Terse.CommandLine
