import LetScript.Token.Basic

/-!
# The tree of a program

A program is a list of statements. A statement binds a name, returns, or is an expression on its
own; blocks of statements are the bodies of functions and the arms of conditionals, so
expressions, statements and blocks contain one another.

Every node keeps the token it was built from. The name, value or operator that a node stands for
is kept beside that token: reading a source makes the two agree, and a tree built otherwise need
not. Parentheses that only group leave no node.
-/

namespace LetScript

/-- A name, where it is bound or used. -/
structure Identifier where
  token : Token
  name : String
deriving DecidableEq, Repr

/-- The identifier that a token spells. -/
def Identifier.ofToken (token : Token) : Identifier := ⟨token, token.literal⟩

mutual

/-- An expression. -/
inductive Expr where
  | identifier (id : Identifier)
  | integer (token : Token) (value : Int64)
  | boolean (token : Token) (value : Bool)
  /-- An operator before its operand. -/
  | prefixOp (token : Token) (operator : String) (right : Expr)
  /-- An operator between its operands. -/
  | infixOp (token : Token) (left : Expr) (operator : String) (right : Expr)
  | conditional (token : Token) (condition : Expr) (consequence : Block)
      (alternative : Option Block)
  | function (token : Token) (parameters : List Identifier) (body : Block)
  /-- A call, whose token is the opening parenthesis. -/
  | call (token : Token) (callee : Expr) (arguments : List Expr)

/-- A statement. -/
inductive Stmt where
  | binding (token : Token) (id : Identifier) (value : Expr)
  | returning (token : Token) (value : Option Expr)
  /-- An expression on its own, with the first token of the statement. -/
  | expression (token : Token) (value : Expr)

/-- Statements in braces, with the token of the opening one. -/
structure Block where
  token : Token
  statements : List Stmt

end

/-- The statements of a source, in order. -/
structure Program where
  statements : List Stmt

/-- The token that an expression was built from. -/
def Expr.token : Expr → Token
  | .identifier id => id.token
  | .integer token _ => token
  | .boolean token _ => token
  | .prefixOp token _ _ => token
  | .infixOp token _ _ _ => token
  | .conditional token _ _ _ => token
  | .function token _ _ => token
  | .call token _ _ => token

/-- The token that a statement was built from. -/
def Stmt.token : Stmt → Token
  | .binding token _ _ => token
  | .returning token _ => token
  | .expression token _ => token

/-- The text of the first statement's token, and nothing for the empty program. -/
def Program.literal (program : Program) : String :=
  match program.statements with
  | [] => ""
  | statement :: _ => statement.token.literal

end LetScript
