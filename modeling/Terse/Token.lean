import Terse.Source
import Terse.Text.Quoted

/-!
# Tokens

A token is a text literal, a numeral, a name or a symbol, with the place it starts at.  Texts are
kept without their quotes and with their escapes resolved; all other tokens are kept as written.
-/

namespace Terse

/-- The quote a text literal starts with.  Double quotes give the text itself, the others a
dictionary text. -/
inductive Quote where
  | double
  | single
  | backtick
deriving DecidableEq

/-- The name of a quote in listings. -/
def Quote.label : Quote → String
  | double => "Double"
  | single => "Single"
  | backtick => "Backtick"

/-- What a token is. -/
inductive Token.Kind where
  | text (quote : Quote)
  | numeral
  | name
  | symbol
deriving DecidableEq

structure Token where
  kind : Token.Kind
  text : String
  position : Position
deriving DecidableEq

namespace Token

/-- Whether a token is the symbol with the given spelling. -/
def isSymbol (token : Token) (spelling : String) : Bool :=
  token.kind == .symbol && token.text == spelling

/-- The name of a kind in listings. -/
def Kind.label : Kind → String
  | text quote => "String(" ++ quote.label ++ ")"
  | numeral => "Integer"
  | name => "Variable"
  | symbol => "Punctuation"

/-- The line that shows a token in a listing. -/
def listing (token : Token) : String :=
  "Token \x7b kind: " ++ token.kind.label ++ ", text: " ++ Text.quoted token.text ++
    ", span: Span \x7b line: " ++ toString token.position.line ++ ", column: " ++
    toString token.position.column ++ " \x7d \x7d"

end Token

end Terse
