import LetScript.Source.Position

/-!
# Tokens

The language has twenty-seven kinds of token: operators and delimiters, words and digit runs,
the seven keywords, the end of input, and bytes that start no token. A token carries its kind,
the text it was read from and the bytes that text covers. The names of the kinds are part of
what the program prints, in messages and in token listings.
-/

namespace LetScript

/-- The kinds of token. -/
inductive Kind where
  | illegal
  | eof
  | identifier
  | integer
  | assignment
  | equals
  | not
  | notEquals
  | less
  | greater
  | plus
  | dash
  | slash
  | star
  | comma
  | semicolon
  | openParen
  | closeParen
  | openCurly
  | closeCurly
  | kwFn
  | kwLet
  | kwTrue
  | kwFalse
  | kwIf
  | kwElse
  | kwReturn
deriving DecidableEq, Repr

namespace Kind

/-- The name under which a kind is printed. -/
def name : Kind → String
  | illegal => "Illegal"
  | eof => "EOF"
  | identifier => "Identifier"
  | integer => "Integer"
  | assignment => "Assignment"
  | equals => "Equals"
  | not => "Not"
  | notEquals => "NotEquals"
  | less => "Less"
  | greater => "Greater"
  | plus => "Plus"
  | dash => "Dash"
  | slash => "Slash"
  | star => "Star"
  | comma => "Comma"
  | semicolon => "Semicolon"
  | openParen => "OpenParen"
  | closeParen => "CloseParen"
  | openCurly => "OpenCurly"
  | closeCurly => "CloseCurly"
  | kwFn => "Fn"
  | kwLet => "Let"
  | kwTrue => "True"
  | kwFalse => "False"
  | kwIf => "If"
  | kwElse => "Else"
  | kwReturn => "Return"

/-- Every kind, once. -/
def all : List Kind :=
  [illegal, eof, identifier, integer, assignment, equals, not, notEquals, less, greater, plus,
    dash, slash, star, comma, semicolon, openParen, closeParen, openCurly, closeCurly, kwFn,
    kwLet, kwTrue, kwFalse, kwIf, kwElse, kwReturn]

theorem mem_all (kind : Kind) : kind ∈ all := by
  cases kind <;> decide

/-- The kind that is printed as `name`. -/
def ofName? (name : String) : Option Kind :=
  all.find? fun kind => kind.name = name

/-- A kind is found again under its name. -/
theorem ofName?_name (kind : Kind) : ofName? kind.name = some kind := by
  cases kind <;> decide

/-- The kind of a word: one of the seven keywords, or else an identifier. -/
def ofWord (word : String) : Kind :=
  if word = "fn" then kwFn
  else if word = "let" then kwLet
  else if word = "true" then kwTrue
  else if word = "false" then kwFalse
  else if word = "if" then kwIf
  else if word = "else" then kwElse
  else if word = "return" then kwReturn
  else identifier

end Kind

/-- A token: its kind, its text, and the bytes it covers. -/
structure Token where
  kind : Kind
  literal : String
  span : Span
deriving DecidableEq, Repr

namespace Token

/-- The token that ends every input, standing after the last byte. -/
def endOfInput (finish : Position) : Token := ⟨.eof, "", ⟨finish, finish⟩⟩

/-- Where a token starts. -/
def position (token : Token) : Position := token.span.start

/-- Whether the token's kind is among `kinds`. -/
def isOneOf (token : Token) (kinds : List Kind) : Bool := kinds.contains token.kind

/-- The text of a token on its own. -/
def text (token : Token) : String :=
  "Token \x7b\nkind: " ++ token.kind.name ++ ",\nliteral: " ++ token.literal ++ "\x7d"

/-- A token's entry in a listing: the text is shown only where the kind leaves it open. -/
def summary (token : Token) : String :=
  if token.isOneOf [.identifier, .integer, .illegal] then
    token.kind.name ++ " (" ++ token.literal ++ ")"
  else
    token.kind.name ++ " ()"

end Token

end LetScript
