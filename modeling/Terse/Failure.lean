import Terse.Evaluation.Basic
import Terse.Grammar.Basic
import Terse.Token.Lexeme

/-!
# Failures

A program fails while its text is cut into tokens, while the tokens are read, while it is
evaluated, or when a text cannot be written or read.  A failure has a message and mostly a place,
and is shown with an excerpt of the source.
-/

namespace Terse

inductive Failure where
  | lex (error : LexError)
  | grammar (error : SyntaxError)
  | evaluation (error : EvalError)
  | stream (reason : String)
  /-- The program nests deeper than allowed. -/
  | exhausted
deriving DecidableEq

namespace Failure

def ofStop : Grammar.Stop → Failure
  | .fault error => .grammar error
  | .exhausted | .overrun => .exhausted

def ofHalt : Halt → Failure
  | .fault error => .evaluation error
  | .exhausted => .exhausted

/-- The place of a failure, if it has one. -/
def position? : Failure → Option Position
  | lex error => some error.position
  | grammar error => some error.position
  | evaluation error => error.position?
  | stream _ | exhausted => none

/-- The wording of the cause. -/
def details : Failure → String
  | lex error => "Unrecognized input '" ++ String.ofList [error.char] ++ "'."
  | grammar error => error.details
  | evaluation error => error.details
  | stream reason => s!"I/O failure: {reason}"
  | exhausted => "The program nests too deeply."

/-- The message of a failure, which names its place. -/
def message (failure : Failure) : String :=
  match failure.position? with
  | some position => s!"Error on {position.describe}: {failure.details}"
  | none => failure.details

/-- The message, and below it the source line of the failure with a caret. -/
def render (failure : Failure) (source : String) : String :=
  match failure.position? with
  | some position => failure.message ++ "\n" ++ Source.excerpt source position
  | none => failure.message

end Failure

end Terse
