import LetScript.Tree.Basic

/-!
# Printing trees

A tree is printed as a text close to source. Operators come out in parentheses, so the grouping
of an expression is visible whatever the source looked like: `(-a)`, `(a + (b * c))`. A list
stands between parentheses with a comma and a space between its members.

The printed text keeps less than the source. The statements of a block or program follow each
other without separator, blocks lose their braces, and an expression statement its semicolon.
Integers and booleans are printed as their token's text and identifiers and operators as the
name kept in the node.
-/

namespace LetScript

/-- The texts in parentheses, a comma and a space between each two. -/
def parenthesised (texts : List String) : String :=
  "(" ++ ", ".intercalate texts ++ ")"

mutual

/-- The text of an expression. -/
def Expr.text : Expr → String
  | .identifier id => id.name
  | .integer token _ => token.literal
  | .boolean token _ => token.literal
  | .prefixOp _ operator right => "(" ++ operator ++ right.text ++ ")"
  | .infixOp _ left operator right =>
    "(" ++ left.text ++ " " ++ operator ++ " " ++ right.text ++ ")"
  | .conditional _ condition consequence none =>
    "if" ++ condition.text ++ " " ++ consequence.text
  | .conditional _ condition consequence (some alternative) =>
    "if" ++ condition.text ++ " " ++ consequence.text ++ "else " ++ alternative.text
  | .function token parameters body =>
    token.literal ++ parenthesised (parameters.map Identifier.name) ++ " " ++ body.text
  | .call _ callee arguments => callee.text ++ parenthesised (Expr.texts arguments)

/-- The texts of several expressions. -/
def Expr.texts : List Expr → List String
  | [] => []
  | expr :: rest => expr.text :: Expr.texts rest

/-- The text of a statement. -/
def Stmt.text : Stmt → String
  | .binding token id value => token.literal ++ " " ++ id.name ++ " = " ++ value.text ++ ";"
  | .returning token none => token.literal ++ ";"
  | .returning token (some value) => token.literal ++ " " ++ value.text ++ ";"
  | .expression _ value => value.text

/-- The texts of several statements, one after the other. -/
def Stmt.texts : List Stmt → String
  | [] => ""
  | statement :: rest => statement.text ++ Stmt.texts rest

/-- The text of a block: that of its statements. -/
def Block.text : Block → String
  | ⟨_, statements⟩ => Stmt.texts statements

end

/-- The text of a program: that of its statements. -/
def Program.text (program : Program) : String := Stmt.texts program.statements

end LetScript
