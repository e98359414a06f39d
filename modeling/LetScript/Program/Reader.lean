import LetScript.Program.Attempt

/-!
# Reading a source step by step

A reader holds everything that reading depends on: the cursor, the table of rules, how many
levels of nesting are in use, and the diagnostics recorded so far. Each routine can be run on
its own from wherever the reader stands, with the levels that are still free.

A routine changes nothing but the cursor. Rules are changed only by registering others, levels
only by entering and leaving, and diagnostics are recorded only by reading a whole program.
-/

namespace LetScript

/-- The state of reading a source. -/
structure Reader where
  cursor : Cursor
  table : Table
  /-- The levels of nesting in use. -/
  nesting : Nat
  diagnostics : List Diagnostic
  nesting_le : nesting ≤ nestingLimit := by decide

namespace Reader

/-- Stands on the first token of `source`, with the rules of the language. -/
def ofString (source : String) (file : Option String) : Reader where
  cursor := .ofString source file
  table := .standard
  nesting := 0
  diagnostics := []

/-- The routines for the levels that are free. -/
def level (reader : Reader) : Level := reader.table.level (nestingLimit - reader.nesting)

/-- Runs a routine from where the reader stands. -/
def run {α : Type} (reader : Reader) (routine : Routine α) : Except Diagnostic α × Reader :=
  ((routine.run reader.cursor).1, { reader with cursor := (routine.run reader.cursor).2 })

/-- Enters one more level, or fails at the current token if none is free. -/
def enter (reader : Reader) : Except Diagnostic Unit × Reader :=
  if h : reader.nesting < nestingLimit then
    (.ok (), { reader with nesting := reader.nesting + 1, nesting_le := h })
  else
    (.error ⟨.nestingTooDeep nestingLimit, reader.cursor.position⟩, reader)

/-- Leaves a level, if any is in use. -/
def leave (reader : Reader) : Reader :=
  { reader with
    nesting := reader.nesting - 1
    nesting_le := Nat.le_trans (Nat.sub_le ..) reader.nesting_le }

/-- Registers what a kind of token does at the start of an expression. -/
def withPrefixRule (reader : Reader) (kind : Kind) (rule : PrefixRule) : Reader :=
  { reader with table := reader.table.withPrefixRule kind rule }

/-- Registers what a kind of token does after an expression. -/
def withInfixRule (reader : Reader) (kind : Kind) (power : Power) (rule : InfixRule) : Reader :=
  { reader with table := reader.table.withInfixRule kind power rule }

/-- The attempts to read statements up to the end of input. -/
def attempts (reader : Reader) : List Attempt :=
  LetScript.attempts reader.level.readStmt reader.cursor

/-- Reads statements up to the end of input and records the diagnostics of those left out. -/
def readProgram (reader : Reader) : Program × Reader :=
  let found := reader.attempts
  (Attempt.program found,
    { reader with
      cursor := (found.getLast?.map Attempt.next).getD reader.cursor
      diagnostics := reader.diagnostics ++ Attempt.diagnostics found })

end Reader

end LetScript
