import LetScript.Grammar.Routine
import LetScript.Grammar.Table
import LetScript.Text.Decimal
import LetScript.Tree.Basic

/-!
# Reading expressions

An expression is read from its first token to its last, on which the cursor stays. The rule of
the first token reads what it can on its own; then, as long as the next token binds tighter than
the expression's surroundings, that token's rule takes what was read so far as its left part.
An operator reads its right operand with its own power as the surroundings, so operators of one
power group to the left.

What stands inside an expression is read by the routines of a level, which are parameters here:
a level one deeper is used for every operand, argument, condition and block.
-/

namespace LetScript

open Routine

/-- The routines for what is nested in an expression or statement. -/
structure Level where
  /-- Reads an expression whose operators bind tighter than the given power. -/
  expr : Power → Routine Expr
  /-- Reads a block, from its opening brace to its closing one. -/
  block : Routine Block

/-- The largest integer that can be written. -/
def maxInteger : Nat := 9223372036854775807

/-- The integer that a text of digits stands for, unless it is too large. -/
def integerValue? (literal : String) : Option Int64 :=
  match Decimal.value? literal.toList with
  | none => none
  | some value => if value ≤ maxInteger then some (.ofNat value) else none

/-- Reads the current token as a name. -/
def readIdentifier : Routine Expr := do
  return .identifier (.ofToken (← current))

/-- Reads the current token as an integer. -/
def readInteger : Routine Expr := do
  let token ← current
  match integerValue? token.literal with
  | some value => return .integer token value
  | none => fail (.unreadableInteger token.literal)

/-- Reads the current token as a boolean. -/
def readBoolean : Routine Expr := do
  let token ← current
  return .boolean token (token.kind = .kwTrue)

/-- Reads members with a comma between each two, up to the closing parenthesis.

Starts before the first member and leaves the cursor on the parenthesis. -/
def readMembers {α : Type} (member : Routine α) : Routine (List α) := do
  if (← peekKind) = .closeParen then
    advance
    return []
  else
    let first ← member
    let members ← whileNext
      (fun cursor => if cursor.peek.kind = .comma then some () else none)
      (fun _ members => return members ++ [← member])
      [first]
    expectPeek .closeParen
    return members

/-- Reads one parameter of a function. -/
def readParameter : Routine Identifier := do
  expectPeek .identifier
  return .ofToken (← current)

namespace Level

variable (inner : Level)

/-- Reads an operator and its operand. -/
def readPrefixOp : Routine Expr := do
  let token ← current
  advance
  let right ← inner.expr .unary
  return .prefixOp token token.literal right

/-- Reads an expression in parentheses. -/
def readGrouping : Routine Expr := do
  advance
  let expr ← inner.expr .lowest
  expectPeek .closeParen
  return expr

/-- Reads a conditional: a condition in parentheses, a block, and perhaps a second one. -/
def readConditional : Routine Expr := do
  let token ← current
  expectPeek .openParen
  advance
  let condition ← inner.expr .lowest
  expectPeek .closeParen
  expectPeek .openCurly
  let consequence ← inner.block
  if (← peekKind) = .kwElse then
    advance
    expectPeek .openCurly
    let alternative ← inner.block
    return .conditional token condition consequence (some alternative)
  else
    return .conditional token condition consequence none

/-- Reads a function: parameters in parentheses, and a block. -/
def readFunction : Routine Expr := do
  let token ← current
  expectPeek .openParen
  let parameters ← readMembers readParameter
  expectPeek .openCurly
  let body ← inner.block
  return .function token parameters body

/-- Reads one argument of a call, from the token before it on. -/
def readArgument : Routine Expr := do
  advance
  inner.expr .lowest

/-- Reads the arguments of a call, from the opening parenthesis on. -/
def readCall (callee : Expr) : Routine Expr := do
  let token ← current
  let arguments ← readMembers inner.readArgument
  return .call token callee arguments

/-- Reads the right operand of the operator the cursor stands on. -/
def readInfixOp (table : Table) (left : Expr) : Routine Expr := do
  let token ← current
  advance
  let right ← inner.expr (table.power token.kind)
  return .infixOp token left token.literal right

/-- Reads by the rule of the token that an expression starts with. -/
def readPrefix : PrefixRule → Routine Expr
  | .identifier => readIdentifier
  | .integer => readInteger
  | .boolean => readBoolean
  | .prefixOp => inner.readPrefixOp
  | .grouping => inner.readGrouping
  | .conditional => inner.readConditional
  | .function => inner.readFunction

/-- Reads by the rule of a token that follows an expression. -/
def readInfix (table : Table) : InfixRule → Expr → Routine Expr
  | .infixOp, left => inner.readInfixOp table left
  | .call, callee => inner.readCall callee

/-- Why no expression starts with a token that has no rule there. -/
def refusal (token : Token) : Cause :=
  if token.kind = .illegal then .unrecognisedToken token.literal else .noPrefixRule token.kind

/-- Reads an expression whose operators bind tighter than `power`. -/
def readExpr (table : Table) (power : Power) : Routine Expr := do
  let token ← current
  match table.prefixRule token.kind with
  | none => fail (refusal token)
  | some rule =>
    let left ← inner.readPrefix rule
    whileNext (fun cursor => table.infixRuleAbove power cursor.peek.kind)
      (inner.readInfix table) left

end Level

end LetScript
