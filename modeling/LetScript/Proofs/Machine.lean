import LetScript.Grammar.Statement
import LetScript.Proofs.Window

/-!
# A machine that does one thing after the other

A machine holds everything that reading depends on and changes it step by step: it draws tokens when
it advances, counts the frames it enters and leaves, and keeps the rules and the diagnostics. Beside
these it keeps the calls for a block that have not returned yet, which nothing that it does depends
on.

A procedure is code that uses a machine. From where the machine stands it comes to a result and to
the operations performed for it, one by one, so whatever happens in between can be told from these.
Nothing keeps a procedure from running for ever: each call is made with a smaller number and each
loop takes no more rounds than that, and where nothing is left of it the run is cut off.

The procedures for expressions, blocks, statements and programs follow. Each is named for the
routine that does the same with a cursor, where the levels that are free take the place of the
frames entered.
-/

namespace LetScript

/-- All that reading depends on, and the blocks that are being read. -/
structure Machine where
  window : Window
  table : Table
  /-- The frames that were entered and not left. -/
  nesting : Nat
  diagnostics : List Diagnostic
  /-- The calls for a block that have not returned, the last one first, each with the window it was
  made at. -/
  blocks : List Window

namespace Machine

/-- What may be done with a machine. -/
inductive Operation where
  | advance
  | enter
  | leave
  | withPrefixRule (kind : Kind) (rule : PrefixRule)
  | withInfixRule (kind : Kind) (power : Power) (rule : InfixRule)
  | record (diagnostic : Diagnostic)
  /-- Asks whether a statement may end before the next token. -/
  | askEnd
  | callBlock
  | returnBlock

/-- Stands on the first token of `source`, with the rules of the language. -/
def ofString (source : String) (file : Option String) : Machine where
  window := .ofString source file
  table := .standard
  nesting := 0
  diagnostics := []
  blocks := []

/-- Does one thing. A frame is not entered where the limit is reached. -/
def perform (m : Machine) : Operation → Machine
  | .advance => { m with window := m.window.advance }
  | .enter => if m.nesting < nestingLimit then { m with nesting := m.nesting + 1 } else m
  | .leave => { m with nesting := m.nesting - 1 }
  | .withPrefixRule kind rule => { m with table := m.table.withPrefixRule kind rule }
  | .withInfixRule kind power rule => { m with table := m.table.withInfixRule kind power rule }
  | .record diagnostic => { m with diagnostics := m.diagnostics ++ [diagnostic] }
  | .askEnd => m
  | .callBlock => { m with blocks := m.window :: m.blocks }
  | .returnBlock => { m with blocks := m.blocks.tail }

/-- What becomes of a machine by one operation after the other. -/
def after (m : Machine) (operations : List Operation) : Machine := operations.foldl perform m

/-- The operations, each with the machine that it is performed on. -/
def moments (m : Machine) : List Operation → List (Machine × Operation)
  | [] => []
  | operation :: rest => (m, operation) :: (m.perform operation).moments rest

@[simp] theorem after_cons (m : Machine) (operation : Operation) (rest : List Operation) :
    m.after (operation :: rest) = (m.perform operation).after rest := rfl

@[simp] theorem after_append (m : Machine) (first second : List Operation) :
    m.after (first ++ second) = (m.after first).after second :=
  List.foldl_append

@[simp] theorem moments_append (m : Machine) (first second : List Operation) :
    m.moments (first ++ second) = m.moments first ++ (m.after first).moments second := by
  induction first generalizing m with
  | nil => rfl
  | cons operation rest ih => simp [moments, ih]

/-- A frame is never entered beyond the limit. -/
theorem nesting_perform_le {m : Machine} (h : m.nesting ≤ nestingLimit) (operation : Operation) :
    (m.perform operation).nesting ≤ nestingLimit := by
  cases operation with
  | enter =>
    rw [perform]
    split
    · assumption
    · exact h
  | leave => exact Nat.le_trans (Nat.sub_le _ _) h
  | _ => exact h

theorem nesting_after_le {m : Machine} (h : m.nesting ≤ nestingLimit)
    (operations : List Operation) : (m.after operations).nesting ≤ nestingLimit := by
  induction operations generalizing m with
  | nil => exact h
  | cons operation rest ih => exact ih (nesting_perform_le h operation)

end Machine

/-- Code that uses a machine: the result and the operations performed for it, `none` being a run
that is cut off. -/
def Procedure (α : Type) : Type :=
  Machine → Option (Except Diagnostic α × List Machine.Operation)

namespace Procedure

variable {α β γ : Type}

protected def pure (value : α) : Procedure α := fun _ => some (.ok value, [])

/-- Goes on with what the first procedure gave, unless that failed or was cut off. -/
protected def bind (first : Procedure α) (next : α → Procedure β) : Procedure β := fun m =>
  match first m with
  | none => none
  | some (.error diagnostic, done) => some (.error diagnostic, done)
  | some (.ok value, done) =>
    (next value (m.after done)).map fun (result, more) => (result, done ++ more)

instance : Monad Procedure where
  pure := Procedure.pure
  bind := Procedure.bind

/-- The run that is cut off. -/
def cutOff : Procedure α := fun _ => none

/-- Looks at the machine. -/
def machine : Procedure Machine := fun m => some (.ok m, [])

/-- Does one thing. -/
def perform (operation : Machine.Operation) : Procedure Unit := fun _ => some (.ok (), [operation])

/-- Fails with a diagnostic. -/
def refuse (diagnostic : Diagnostic) : Procedure α := fun _ => some (.error diagnostic, [])

/-- Does one thing at the end, also if the procedure fails. -/
def endingWith (procedure : Procedure α) (operation : Machine.Operation) : Procedure α := fun m =>
  (procedure m).map fun (result, done) => (result, done ++ [operation])

/-- Gives a failure as a value. -/
def attempt (procedure : Procedure α) : Procedure (Except Diagnostic α) := fun m =>
  (procedure m).map fun (result, done) => (.ok result, done)

/-- The current token. -/
def current : Procedure Token := do
  return (← machine).window.current

/-- The kind of the next token. -/
def peekKind : Procedure Kind := do
  return (← machine).window.peek.kind

/-- Moves on to the next token. -/
def advance : Procedure Unit := perform .advance

/-- Fails at the current token. -/
def fail (cause : Cause) : Procedure α := do
  refuse ⟨cause, (← current).position⟩

/-- Moves on to the next token if it is of the given kind, and fails at it if not. -/
def expectPeek (kind : Kind) : Procedure Unit := do
  let next := (← machine).window.peek
  if next.kind = kind then
    advance
  else
    refuse ⟨.unexpectedToken kind next.kind, next.position⟩

/-- Asks whether a statement may end before the next token. -/
def peekEndsStatement : Procedure Bool := do
  perform .askEnd
  return (← machine).window.peekEndsStatement

/-- Whether a return ends before the next token, which is asked only if that is no semicolon. -/
def peekEndsReturn : Procedure Bool := do
  if (← peekKind) = .semicolon then
    return true
  else
    peekEndsStatement

/-- Reads the semicolon after a statement, which may be left out where the input or the enclosing
block ends. -/
def expectTerminator : Procedure Unit := do
  if ← peekEndsStatement then
    return ()
  else
    expectPeek .semicolon

/-- Runs a procedure in a frame of its own, which is left in any case. -/
def framed (procedure : Procedure α) : Procedure α := do
  if (← machine).nesting < nestingLimit then
    perform .enter
    procedure.endingWith .leave
  else
    fail (.nestingTooDeep nestingLimit)

/-- As long as the test finds something, advances and puts `value` through the body. -/
def whileNext (test : Machine → Option γ) (body : γ → α → Procedure α) : Nat → α → Procedure α
  | 0, _ => cutOff
  | rounds + 1, value => do
    match test (← machine) with
    | none => return value
    | some found =>
      advance
      let next ← body found value
      whileNext test body rounds next

/-- Reads members with a comma between each two, up to the closing parenthesis. -/
def readMembers (rounds : Nat) (member : Procedure α) : Procedure (List α) := do
  if (← peekKind) = .closeParen then
    advance
    return []
  else
    let first ← member
    let members ← whileNext
      (fun m => if m.window.peek.kind = .comma then some () else none)
      (fun _ members => return members ++ [← member])
      rounds [first]
    expectPeek .closeParen
    return members

def readIdentifier : Procedure Expr := do
  return .identifier (.ofToken (← current))

def readInteger : Procedure Expr := do
  let token ← current
  match integerValue? token.literal with
  | some value => return .integer token value
  | none => fail (.unreadableInteger token.literal)

def readBoolean : Procedure Expr := do
  let token ← current
  return .boolean token (token.kind = .kwTrue)

def readParameter : Procedure Identifier := do
  expectPeek .identifier
  return .ofToken (← current)

/-- Reads statements up to a closing brace. -/
def readStmts (statement : Procedure Stmt) : Nat → Procedure (List Stmt)
  | 0 => cutOff
  | rounds + 1 => do
    let token ← current
    if token.kind = .closeCurly then
      return []
    else if token.kind = .eof then
      fail .unterminatedBlock
    else
      let first ← statement
      advance
      let rest ← readStmts statement rounds
      return first :: rest

/-- Skips the rest of a broken statement, token by token. -/
def skip (inside : Bool) : Nat → Procedure Unit
  | 0 => cutOff
  | rounds + 1 => do
    let window := (← machine).window
    if window.current.kind = .eof then
      return ()
    else if window.current.kind = .semicolon ∧ window.openBraces = 0 then
      return ()
    else if window.current.kind = .closeCurly ∧ inside ∧ window.openBraces = 0 then
      if window.peek.kind = .semicolon then
        advance
    else
      advance
      skip inside rounds

/-- Goes on to the next statement. One that is broken is recorded and skipped first. -/
def goOn (rounds : Nat) : Except Diagnostic Stmt → Procedure Unit
  | .ok _ => advance
  | .error diagnostic => do
    perform (.record diagnostic)
    skip (0 < (← machine).window.openBraces) rounds
    advance

/-- Reads statements until it stands on the end of the input, and records the diagnostics of those
left out. -/
def readProgram (statement : Procedure Stmt) : Nat → Procedure (List Stmt)
  | 0 => cutOff
  | rounds + 1 => do
    if (← current).kind = .eof then
      return []
    else
      match ← attempt statement with
      | .ok tree =>
        advance
        let trees ← readProgram statement rounds
        return tree :: trees
      | .error diagnostic =>
        perform (.record diagnostic)
        skip (0 < (← machine).window.openBraces) rounds
        advance
        readProgram statement rounds

end Procedure

/-- The procedures for what is nested in an expression or statement. -/
structure Procedures where
  expr : Power → Procedure Expr
  block : Procedure Block

namespace Procedures

open Procedure

variable (inner : Procedures) (rounds : Nat)

def readPrefixOp : Procedure Expr := do
  let token ← current
  advance
  let right ← inner.expr .unary
  return .prefixOp token token.literal right

def readGrouping : Procedure Expr := do
  advance
  let expr ← inner.expr .lowest
  expectPeek .closeParen
  return expr

def readConditional : Procedure Expr := do
  let token ← current
  expectPeek .openParen
  advance
  let condition ← inner.expr .lowest
  expectPeek .closeParen
  expectPeek .openCurly
  let consequence ← inner.block
  if (← peekKind) = .kwElse then
    advance
    expectPeek .openCurly
    let alternative ← inner.block
    return .conditional token condition consequence (some alternative)
  else
    return .conditional token condition consequence none

def readFunction : Procedure Expr := do
  let token ← current
  expectPeek .openParen
  let parameters ← Procedure.readMembers rounds Procedure.readParameter
  expectPeek .openCurly
  let body ← inner.block
  return .function token parameters body

def readArgument : Procedure Expr := do
  advance
  inner.expr .lowest

def readCall (callee : Expr) : Procedure Expr := do
  let token ← current
  let arguments ← Procedure.readMembers rounds inner.readArgument
  return .call token callee arguments

def readInfixOp (left : Expr) : Procedure Expr := do
  let token ← current
  let power := (← machine).table.power token.kind
  advance
  let right ← inner.expr power
  return .infixOp token left token.literal right

def readPrefix : PrefixRule → Procedure Expr
  | .identifier => Procedure.readIdentifier
  | .integer => Procedure.readInteger
  | .boolean => Procedure.readBoolean
  | .prefixOp => inner.readPrefixOp
  | .grouping => inner.readGrouping
  | .conditional => inner.readConditional
  | .function => inner.readFunction rounds

def readInfix : InfixRule → Expr → Procedure Expr
  | .infixOp, left => inner.readInfixOp left
  | .call, callee => inner.readCall rounds callee

/-- Reads an expression in the frame that was entered for it. -/
def readNested (power : Power) : Procedure Expr := do
  let token ← current
  match (← machine).table.prefixRule token.kind with
  | none => fail (Level.refusal token)
  | some rule =>
    let left ← inner.readPrefix rounds rule
    whileNext (fun m => m.table.infixRuleAbove power m.window.peek.kind)
      (inner.readInfix rounds) rounds left

def readBinding : Procedure Stmt := do
  let token ← current
  expectPeek .identifier
  let name ← current
  expectPeek .assignment
  advance
  let value ← inner.expr .lowest
  expectTerminator
  return .binding token (.ofToken name) value

def readReturning : Procedure Stmt := do
  let token ← current
  if ← peekEndsReturn then
    expectTerminator
    return .returning token none
  else
    advance
    let value ← inner.expr .lowest
    expectTerminator
    return .returning token (some value)

def readExpression : Procedure Stmt := do
  let token ← current
  let value ← inner.expr .lowest
  if (← peekKind) = .semicolon then
    advance
  return .expression token value

def readStmt : Procedure Stmt := do
  match (← current).kind with
  | .kwLet => inner.readBinding
  | .kwReturn => inner.readReturning
  | _ => inner.readExpression

/-- Reads a block in the frame that was entered for it. -/
def readBody : Procedure Block := do
  let token ← current
  advance
  let statements ← Procedure.readStmts inner.readStmt rounds
  return ⟨token, statements⟩

/-- Reads a block, from the call to the return. -/
def readBlock : Procedure Block := do
  perform .callBlock
  (framed (inner.readBody rounds)).endingWith .returnBlock

end Procedures

/-- The procedures for expressions and blocks, where the number bounds the calls inside one another
and the rounds of each loop. -/
def procedures : Nat → Procedures
  | 0 => ⟨fun _ => .cutOff, .cutOff⟩
  | rounds + 1 =>
    let inner := procedures rounds
    ⟨fun power => .framed (inner.readNested rounds power), inner.readBlock rounds⟩

/-- What may be read from where a machine stands, apart from whole programs. -/
inductive Reading : Type → Type where
  | expr (power : Power) : Reading Expr
  | block : Reading Block
  | stmt : Reading Stmt
  | binding : Reading Stmt
  | returning : Reading Stmt
  | expression : Reading Stmt
  /-- Reads by the rule of a token at the start of an expression. -/
  | ofPrefixRule (rule : PrefixRule) : Reading Expr
  /-- Reads by the rule of a token after an expression. -/
  | ofInfixRule (rule : InfixRule) (left : Expr) : Reading Expr

namespace Reading

variable {α : Type}

/-- The procedure for a reading. -/
def procedure (rounds : Nat) : Reading α → Procedure α
  | expr power => (procedures rounds).expr power
  | block => (procedures rounds).block
  | stmt => (procedures rounds).readStmt
  | binding => (procedures rounds).readBinding
  | returning => (procedures rounds).readReturning
  | expression => (procedures rounds).readExpression
  | ofPrefixRule rule => (procedures rounds).readPrefix rounds rule
  | ofInfixRule rule left => (procedures rounds).readInfix rounds rule left

/-- The routine for a reading by the rules of a table. -/
def routine (level : Level) (table : Table) : Reading α → Routine α
  | expr power => level.expr power
  | block => level.block
  | stmt => level.readStmt
  | binding => level.readBinding
  | returning => level.readReturning
  | expression => level.readExpression
  | ofPrefixRule rule => level.readPrefix rule
  | ofInfixRule rule left => level.readInfix table rule left

end Reading

end LetScript
