import LetScript.Program.Attempt
import LetScript.Text.Quoted
import LetScript.Tree.Printer

/-!
# The record of a reading

Reading a source leaves a record of events in the order they happen: a token is drawn, a
statement is read, a diagnostic is made. Tokens are drawn as late as the reading allows, so the
current token and the one after it are always among those drawn; the end of input leaves no
event. The event of a diagnostic comes before those of the tokens that are then skipped.
-/

namespace LetScript

/-- The detail of an event: statements and diagnostics at the coarser level, tokens at the
finer one. -/
inductive Event.Detail where
  | coarse
  | fine
deriving DecidableEq, Repr

/-- Something that happens while a source is read. -/
inductive Event where
  | lexed (token : Token)
  | parsed (statement : Stmt)
  | refused (diagnostic : Diagnostic)

namespace Event

/-- How detailed a record has to be to show the event. -/
def detail : Event → Detail
  | lexed _ => .fine
  | parsed _ => .coarse
  | refused _ => .coarse

/-- The event in words. -/
def message : Event → String
  | lexed token => "lexed " ++ token.kind.name ++ " " ++ Quoted.encode token.literal
  | parsed statement => "parsed statement `" ++ statement.text ++ "`"
  | refused diagnostic => "recorded diagnostic: " ++ diagnostic.message

/-- The tokens drawn while a cursor moves from one place to another. -/
def drawn (start stop : Cursor) : List Event :=
  ((start.tokens.drop 2).take (start.tokens.length - stop.tokens.length)).map lexed

/-- What came of an attempt. -/
def ofResult : Except Diagnostic Stmt → Event
  | .ok statement => parsed statement
  | .error diagnostic => refused diagnostic

/-- The events of one attempt. -/
def ofAttempt (attempt : Attempt) : List Event :=
  drawn attempt.start attempt.stop ++ ofResult attempt.result :: drawn attempt.stop attempt.next

/-- The events of reading on from a fresh cursor, which has drawn its first two tokens. -/
def record (start : Cursor) (attempts : List Attempt) : List Event :=
  (start.tokens.take 2).map lexed ++ attempts.flatMap ofAttempt

/-- The events that a record of the given detail shows. -/
def shown (detail : Detail) (events : List Event) : List Event :=
  match detail with
  | .fine => events
  | .coarse => events.filter fun event => event.detail = .coarse

end Event

/-- The record of reading `source`. -/
def log (source : String) (file : Option String) : List Event :=
  Event.record (.ofString source file) (sourceAttempts source file)

end LetScript
