import Terse.Token

/-!
# From characters to tokens

A rule says how many characters at the front of a text it takes, none where it does not apply.
The rule that takes the most characters makes the next token; among rules that take equally many
the first one does.  Spaces, tabs, carriage returns, form feeds and line feeds stand between
tokens and have no other meaning.  A text literal may lack its closing quote.

Reading keeps the number of the line that it has got to and the byte at which that line starts.
Both change at a line feed between tokens and behind a text that goes over several lines.  The
position of a token is counted in characters from the start of its line.
-/

namespace Terse

/-- A character at which no token starts. -/
structure LexError where
  char : Char
  position : Position
deriving DecidableEq

namespace Lexeme

/-! ## Quoted texts -/

/-- The characters that close a text: a double quote, or either of the other two. -/
def closers : Quote → List Char
  | .double => ['\x22']
  | .single | .backtick => ['\x27', '\x60']

/-- The quote that a character opens. -/
def quote? (c : Char) : Option Quote :=
  if c = '\x22' then some .double
  else if c = '\x27' then some .single
  else if c = '\x60' then some .backtick
  else none

/-- The number of characters behind an opening quote that belong to the text, its closing quote
included.  A backslash takes the next character with it, but a backslash in front of a line feed
ends the text. -/
def bodyLength (closing : List Char) : List Char → Nat
  | [] => 0
  | '\\' :: '\n' :: _ => 1
  | '\\' :: _ :: cs => bodyLength closing cs + 2
  | c :: cs => if closing.contains c then 1 else bodyLength closing cs + 1

/-- The text of a quoted body: up to its closing quote, with escaped quotes resolved and, where
`breaks` holds, with a line feed for `\n`.  Other backslashes stay. -/
def unescape (closing : List Char) (breaks : Bool) : List Char → List Char
  | [] => []
  | '\\' :: c :: cs =>
    if closing.contains c then c :: unescape closing breaks cs
    else if breaks && c == 'n' then '\n' :: unescape closing breaks cs
    else '\\' :: c :: unescape closing breaks cs
  | c :: cs => if closing.contains c then [] else c :: unescape closing breaks cs

/-! ## Numerals and names -/

/-- The number of decimal digits at the front. -/
def digitsLength (cs : List Char) : Nat := (cs.takeWhile Char.isDigit).length

/-- The length of digits with an optional fraction at the front. -/
def mantissaLength (cs : List Char) : Nat :=
  let whole := digitsLength cs
  match cs.drop whole with
  | '.' :: rest =>
    let fraction := digitsLength rest
    if fraction = 0 then whole else whole + 1 + fraction
  | _ => whole

/-- The length of an exponent at the front, `e` and digits with an optional `_` between them. -/
def exponentLength : List Char → Nat
  | 'e' :: '_' :: cs =>
    let digits := digitsLength cs
    if digits = 0 then 0 else digits + 2
  | 'e' :: cs =>
    let digits := digitsLength cs
    if digits = 0 then 0 else digits + 1
  | _ => 0

/-- The length of a bare exponent at the front, `e` and digits. -/
def bareExponentLength : List Char → Nat
  | 'e' :: cs =>
    let digits := digitsLength cs
    if digits = 0 then 0 else digits + 1
  | _ => 0

/-- The length of a numeral without its sign at the front. -/
def unsignedLength (cs : List Char) : Nat :=
  let mantissa := mantissaLength cs
  if mantissa = 0 then bareExponentLength cs
  else mantissa + exponentLength (cs.drop mantissa)

/-- The length of a numeral at the front; a `_` in front of it is its minus sign. -/
def numeralLength : List Char → Nat
  | '_' :: cs =>
    let length := unsignedLength cs
    if length = 0 then 0 else length + 1
  | cs => unsignedLength cs

/-- Whether a name may start with a character. -/
def startsName (c : Char) : Bool := c.isAlpha || c == '_'

/-- Whether a name may go on with a character. -/
def continuesName (c : Char) : Bool := c.isAlphanum || c == '_'

/-- The length of a name at the front. -/
def nameLength : List Char → Nat
  | [] => 0
  | c :: cs => if startsName c then (cs.takeWhile continuesName).length + 1 else 0

/-! ## Symbols -/

/-- The symbols of two characters. -/
def longSymbols : List String :=
  ["!!", ":v", ":^", "++", "--", ":*", ":/", ":+", ":-", ":>", ":<", "|:", "$:", "<=", ">=",
    "!=", "||", "&&", ":|", "->", "=>", ":!", ":i", "@:", ":_", ":\x7b", ":\x7d", ":@", ":n",
    ":s", ".\x7b", ".\x7d", ".|", "..", "^*", ":="]

/-- The symbols of one character. -/
def shortSymbols : List String :=
  ["!", "$", "#", "\\", "=", "<", ">", "+", "-", "*", "/", "%", "^", "|", "@", ".", "~", "&",
    "?", "\x7b", "\x7d", "(", ")", "[", "]", ",", ";", ":"]

/-- The length of a symbol at the front. -/
def symbolLength (cs : List Char) : Nat :=
  if longSymbols.any (·.toList == cs.take 2) then 2
  else if shortSymbols.any (·.toList == cs.take 1) then 1
  else 0

/-! ## The longest match -/

/-- The rules for tokens, the first of them winning a tie. -/
inductive Rule where
  | text
  | numeral
  | name
  | symbol
deriving DecidableEq

def Rule.all : List Rule := [.text, .numeral, .name, .symbol]

/-- The number of characters at the front that a rule takes. -/
def Rule.length : Rule → List Char → Nat
  | .text, c :: cs =>
    match quote? c with
    | some quote => bodyLength (closers quote) cs + 1
    | none => 0
  | .text, [] => 0
  | .numeral, cs => numeralLength cs
  | .name, cs => nameLength cs
  | .symbol, cs => symbolLength cs

/-- The better of a rule and the best one so far. -/
def Rule.better (cs : List Char) (best : Option (Rule × Nat)) (rule : Rule) :
    Option (Rule × Nat) :=
  let length := rule.length cs
  match best with
  | some (_, most) => if most < length then some (rule, length) else best
  | none => if 0 < length then some (rule, length) else none

/-- The rule that takes the most characters at the front, and their number. -/
def longest? (cs : List Char) : Option (Rule × Nat) :=
  Rule.all.foldl (Rule.better cs) none

/-- The token that a rule makes of the characters it took. -/
def Rule.token (rule : Rule) (lexeme : List Char) (position : Position) : Token :=
  match rule, lexeme with
  | .text, c :: body =>
    let quote := (quote? c).getD .double
    ⟨.text quote, String.ofList (unescape (closers quote) (quote == .double) body), position⟩
  | .text, [] => ⟨.text .double, "", position⟩
  | .numeral, _ => ⟨.numeral, String.ofList lexeme, position⟩
  | .name, _ => ⟨.name, String.ofList lexeme, position⟩
  | .symbol, _ => ⟨.symbol, String.ofList lexeme, position⟩

/-- Whether a character only separates tokens. -/
def isSpace (c : Char) : Bool :=
  c == ' ' || c == '\t' || c == '\r' || c == '\x0c' || c == '\n'

/-! ## Lines -/

/-- The line that reading has got to: its number, counted from one, and the byte that it starts
at. -/
structure Line where
  number : Nat
  start : String.Pos.Raw
deriving DecidableEq

/-- The byte of the last line feed, counted from the first character. -/
def lastBreak? : List Char → Option Nat
  | [] => none
  | c :: cs =>
    match lastBreak? cs with
    | some byte => some (c.utf8Size + byte)
    | none => if c = '\n' then some 0 else none

namespace Line

/-- The line at the beginning of a text. -/
def first : Line := ⟨1, 0⟩

/-- The line behind a line feed, which ends at a byte. -/
def next (line : Line) (stop : String.Pos.Raw) : Line := ⟨line.number + 1, stop⟩

/-- The line behind a lexeme, which starts at a byte.  Only texts go over several lines. -/
def behind (line : Line) (start : String.Pos.Raw) (lexeme : List Char) : Line :=
  match lastBreak? lexeme with
  | some byte => ⟨line.number + lexeme.count '\n', ⟨start.byteIdx + byte + 1⟩⟩
  | none => line

/-- The place of a byte of the line.  Columns count the characters in front of it, which may take
several bytes each. -/
def position (line : Line) (source : String) (byte : String.Pos.Raw) : Position :=
  ⟨line.number, (String.Pos.Raw.extract source line.start byte).length + 1⟩

end Line

/-- The tokens of the rest of a source text, which starts at a byte; its first `skip` characters
belong to a token that is already made, and the line is that behind them. -/
def scan (source : String) :
    Nat → String.Pos.Raw → Line → List Char → Except LexError (List Token)
  | _, _, _, [] => .ok []
  | skip + 1, byte, line, c :: cs => scan source skip (byte + c) line cs
  | 0, byte, line, c :: cs =>
    if c = '\n' then scan source 0 (byte + c) (line.next (byte + c)) cs
    else if isSpace c then scan source 0 (byte + c) line cs
    else match longest? (c :: cs) with
      | none => .error ⟨c, line.position source byte⟩
      | some (rule, length) => do
        let lexeme := (c :: cs).take length
        let rest ← scan source (length - 1) (byte + c) (line.behind byte lexeme) cs
        .ok (rule.token lexeme (line.position source byte) :: rest)

end Lexeme

/-- The tokens of a source text. -/
def tokenize (source : String) : Except LexError (List Token) :=
  Lexeme.scan source 0 0 .first source.toList

end Terse
