import LetScript.Token.Basic

/-!
# How tightly operators bind, and where a token may stand

An expression is read by two rules for each kind of token: what it does at the start of an
expression, and what it does after one. A kind without a rule may not stand there. A rule after
an expression comes with a power, and the stronger of two neighbouring operators takes the
operand between them.

The rules are values of a table, so that reading is the same for every choice of operators and
powers. The standard table is the language's own.
-/

namespace LetScript

/-- How tightly an operator binds, weakest first. -/
inductive Power where
  | lowest
  | equality
  | relational
  | additive
  | multiplicative
  | unary
  | call
deriving DecidableEq, Repr

namespace Power

/-- The place of a power among the seven. -/
def rank : Power → Nat
  | lowest => 0
  | equality => 1
  | relational => 2
  | additive => 3
  | multiplicative => 4
  | unary => 5
  | call => 6

instance : LT Power := ⟨fun weaker stronger => weaker.rank < stronger.rank⟩

instance : LE Power := ⟨fun weaker stronger => weaker.rank ≤ stronger.rank⟩

instance (a b : Power) : Decidable (a < b) := inferInstanceAs (Decidable (a.rank < b.rank))

instance (a b : Power) : Decidable (a ≤ b) := inferInstanceAs (Decidable (a.rank ≤ b.rank))

/-- No operator binds more weakly than the lowest power. -/
theorem lowest_le (power : Power) : lowest ≤ power := Nat.zero_le _

end Power

/-- What a token does at the start of an expression. -/
inductive PrefixRule where
  | identifier
  | integer
  | boolean
  /-- An operator on the expression after it. -/
  | prefixOp
  /-- A parenthesis around an expression. -/
  | grouping
  | conditional
  | function
deriving DecidableEq, Repr

/-- What a token does after an expression. -/
inductive InfixRule where
  /-- An operator between that expression and the next. -/
  | infixOp
  /-- A call of that expression. -/
  | call
deriving DecidableEq, Repr

/-- The rules for each kind of token. -/
structure Table where
  prefixRule : Kind → Option PrefixRule
  infixRule : Kind → Option (Power × InfixRule)

namespace Table

/-- The power of a kind after an expression, the lowest if it has no rule there. -/
def power (table : Table) (kind : Kind) : Power :=
  ((table.infixRule kind).map Prod.fst).getD .lowest

/-- The rule of a kind after an expression, if it binds tighter than `power`. -/
def infixRuleAbove (table : Table) (power : Power) (kind : Kind) : Option InfixRule :=
  if power < table.power kind then (table.infixRule kind).map Prod.snd else none

/-- The table with `rule` for `kind` at the start of an expression. -/
def withPrefixRule (table : Table) (kind : Kind) (rule : PrefixRule) : Table :=
  { table with
    prefixRule := fun other => if other = kind then some rule else table.prefixRule other }

/-- The table with `rule` and its power for `kind` after an expression. -/
def withInfixRule (table : Table) (kind : Kind) (power : Power) (rule : InfixRule) : Table :=
  { table with
    infixRule := fun other => if other = kind then some (power, rule) else table.infixRule other }

/-- The rules of the language. -/
def standard : Table where
  prefixRule
    | .identifier => some .identifier
    | .integer => some .integer
    | .kwTrue | .kwFalse => some .boolean
    | .dash | .not => some .prefixOp
    | .openParen => some .grouping
    | .kwIf => some .conditional
    | .kwFn => some .function
    | _ => none
  infixRule
    | .equals | .notEquals => some (.equality, .infixOp)
    | .less | .greater => some (.relational, .infixOp)
    | .plus | .dash => some (.additive, .infixOp)
    | .star | .slash => some (.multiplicative, .infixOp)
    | .openParen => some (.call, .call)
    | _ => none

end Table

end LetScript
