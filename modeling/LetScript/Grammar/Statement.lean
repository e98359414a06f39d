import LetScript.Grammar.Expression

/-!
# Reading statements and blocks

A statement is read from its first token to its last; a semicolon after it belongs to it. The
semicolon of a binding or a return may be left out only at the end of the input or of the
enclosing block, that of an expression anywhere.

A block holds statements up to its closing brace. Expressions and blocks nest: the routines for
`n` levels call those for `n - 1` levels, and with no level left every one of them fails. A
source is read with a hundred levels.
-/

namespace LetScript

open Routine

namespace Level

variable (inner : Level)

/-- Reads a binding, from its keyword on. -/
def readBinding : Routine Stmt := do
  let token ← current
  expectPeek .identifier
  let name ← current
  expectPeek .assignment
  advance
  let value ← inner.expr .lowest
  expectTerminator
  return .binding token (.ofToken name) value

/-- Reads a return, from its keyword on. -/
def readReturning : Routine Stmt := do
  let token ← current
  let cursor ← here
  if cursor.peek.kind = .semicolon ∨ cursor.peekEndsStatement then
    expectTerminator
    return .returning token none
  else
    advance
    let value ← inner.expr .lowest
    expectTerminator
    return .returning token (some value)

/-- Reads an expression on its own. -/
def readExpression : Routine Stmt := do
  let token ← current
  let value ← inner.expr .lowest
  if (← peekKind) = .semicolon then
    advance
  return .expression token value

/-- Reads the statement that starts with the current token. -/
def readStmt : Routine Stmt := do
  match (← current).kind with
  | .kwLet => inner.readBinding
  | .kwReturn => inner.readReturning
  | _ => inner.readExpression

end Level

/-- One run of `readStmts`. -/
def readStmts.run (statement : Routine Stmt) (cursor : Cursor) :
    Except Diagnostic (List Stmt) × Cursor :=
  match htokens : cursor.tokens with
  | [] => (.error ⟨.unterminatedBlock, cursor.position⟩, cursor)
  | token :: _ =>
    if token.kind = .closeCurly then
      (.ok [], cursor)
    else
      match h : statement.run cursor with
      | (.error diagnostic, after) => (.error diagnostic, after)
      | (.ok first, after) =>
        have : after.advance.tokens.length < cursor.tokens.length := by
          have hle := statement.length_tokens_run_le cursor
          rw [h] at hle
          simp_all only [Cursor.tokens_advance, List.length_tail, List.length_cons]
          omega
        match readStmts.run statement after.advance with
        | (.error diagnostic, last) => (.error diagnostic, last)
        | (.ok rest, last) => (.ok (first :: rest), last)
termination_by cursor.tokens.length
decreasing_by assumption

theorem readStmts.reaches_run (statement : Routine Stmt) (cursor : Cursor) :
    cursor.Reaches (readStmts.run statement cursor).2 := by
  fun_induction readStmts.run statement cursor with
  | case1 => exact .refl
  | case2 => exact .refl
  | case3 cursor _ _ _ _ _ _ h =>
    have hstatement := statement.reaches cursor
    rw [h] at hstatement
    exact hstatement
  | case4 cursor _ _ _ _ _ _ h _ _ _ hrest ih =>
    have hstatement := statement.reaches cursor
    rw [h] at hstatement
    rw [hrest] at ih
    exact hstatement.advance.trans ih
  | case5 cursor _ _ _ _ _ _ h _ _ _ hrest ih =>
    have hstatement := statement.reaches cursor
    rw [h] at hstatement
    rw [hrest] at ih
    exact hstatement.advance.trans ih

/-- Reads statements up to a closing brace, on which the cursor stays. -/
def readStmts (statement : Routine Stmt) : Routine (List Stmt) :=
  ⟨readStmts.run statement, readStmts.reaches_run statement⟩

namespace Level

/-- Reads a block, from its opening brace on. -/
def readBlock (inner : Level) : Routine Block := do
  let token ← current
  advance
  let statements ← readStmts inner.readStmt
  return ⟨token, statements⟩

end Level

/-- How deep expressions and blocks may be nested. -/
def nestingLimit : Nat := 100

/-- The routines for expressions and blocks when `levels` more of them may be nested. -/
def Table.level (table : Table) (levels : Nat) : Level :=
  match levels with
  | 0 =>
    { expr := fun _ => fail (.nestingTooDeep nestingLimit)
      block := fail (.nestingTooDeep nestingLimit) }
  | levels + 1 =>
    let inner := table.level levels
    { expr := inner.readExpr table
      block := inner.readBlock }

/-- Reads one statement of a source. -/
def Table.statement (table : Table) : Routine Stmt := (table.level nestingLimit).readStmt

end LetScript
