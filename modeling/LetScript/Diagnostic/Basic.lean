import LetScript.Text.Quoted
import LetScript.Token.Basic

/-!
# Diagnostics

A diagnostic says why a statement could not be read, and at which position. There are six causes.
Each has a name, a message, and most have a tip that is shown beside the message; messages and
tips spell tokens by the names of their kinds.
-/

namespace LetScript

/-- Why a statement could not be read. -/
inductive Cause where
  /-- An illegal token stands where an expression should start. -/
  | unrecognisedToken (literal : String)
  /-- The next token is of another kind than the only one allowed. -/
  | unexpectedToken (expected found : Kind)
  /-- No expression starts with a token of this kind. -/
  | noPrefixRule (kind : Kind)
  /-- The digits are no integer of 64 bits with a sign. -/
  | unreadableInteger (literal : String)
  /-- The input ends inside a block. -/
  | unterminatedBlock
  /-- Expressions and blocks are nested deeper than the limit. -/
  | nestingTooDeep (limit : Nat)
deriving DecidableEq, Repr

namespace Cause

/-- The name of the cause. -/
def name : Cause → String
  | unrecognisedToken _ => "UnrecognisedToken"
  | unexpectedToken .. => "UnexpectedToken"
  | noPrefixRule _ => "NoPrefixParser"
  | unreadableInteger _ => "NumberParseError"
  | unterminatedBlock => "UnterminatedBlock"
  | nestingTooDeep _ => "NestingTooDeep"

/-- What happened, in one line. -/
def message : Cause → String
  | unrecognisedToken literal => "unrecognised token: " ++ Quoted.encode literal
  | unexpectedToken expected found =>
    "expected next token to be " ++ expected.name ++ ", got " ++ found.name ++ " instead"
  | noPrefixRule kind => "no prefix parse function for " ++ kind.name ++ " found"
  | unreadableInteger literal => "could not parse " ++ Quoted.encode literal ++ " as integer"
  | unterminatedBlock => "expected next token to be CloseCurly, got EOF instead"
  | nestingTooDeep limit => "expression nested deeper than " ++ toString limit ++ " levels"

/-- What to try, where there is something to say. -/
def tip? : Cause → Option String
  | unrecognisedToken _ => none
  | unexpectedToken .semicolon _ => some "did you miss a semicolon?"
  | unexpectedToken .. => none
  | noPrefixRule kind => some ("`" ++ kind.name ++ "` cannot start an expression")
  | unreadableInteger literal =>
    some ("Invalid number: `" ++ literal ++ "`, is it above the integer limit?")
  | unterminatedBlock => some "add a closing `\x7d`"
  | nestingTooDeep _ => some "split the expression up with `let` bindings"

end Cause

/-- A cause and the position it is reported at. -/
structure Diagnostic where
  cause : Cause
  position : Position
deriving DecidableEq, Repr

namespace Diagnostic

/-- The message of the diagnostic's cause. -/
def message (diagnostic : Diagnostic) : String := diagnostic.cause.message

end Diagnostic

end LetScript
