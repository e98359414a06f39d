import LetScript.Grammar.Expression
import LetScript.Proofs.Clauses
import LetScript.Proofs.Passage

/-!
# The grammar of the language

The grammar is stratified in the usual way. Each stratum of expressions has its operators, whose
left operand is of the same stratum and whose right operand is of the next tighter one, so
operators of one stratum group to the left. Below the binary strata come the prefix operators,
then the calls, then the primary expressions.

A derivation ties a phrase to the tokens it is made of and to the largest number of frames that
are open at once inside it. A frame is opened by what stands in parentheses, by the operand of a
prefix operator, by a right operand, by the expression of a statement and by a block; a left
operand and a callee open none. Parentheses that only group leave no node in the tree.

A statement is derived with the kind of the token after it, because a binding or a return may
leave its semicolon out only at the end of the input or of the enclosing block, and an expression
only where no operator or parenthesis follows that would continue it.
-/

namespace LetScript

/-- The strata of expressions, weakest first. -/
inductive Stratum where
  | equality
  | relational
  | additive
  | multiplicative
  | unary
  | call
  | primary
deriving DecidableEq, Repr

namespace Stratum

/-- The operators between two operands. -/
def operators : Stratum → List Kind
  | equality => [.equals, .notEquals]
  | relational => [.less, .greater]
  | additive => [.plus, .dash]
  | multiplicative => [.star, .slash]
  | _ => []

/-- The next tighter stratum. -/
def tighter : Stratum → Stratum
  | equality => relational
  | relational => additive
  | additive => multiplicative
  | multiplicative => unary
  | unary => call
  | call => primary
  | primary => primary

end Stratum

namespace Kind

/-- Whether a token of this kind after an expression continues it. -/
def continuesExpr (kind : Kind) : Prop :=
  kind = .openParen ∨ ∃ stratum : Stratum, kind ∈ stratum.operators

/-- Whether an expression may start with a token of this kind. -/
def startsExpr : Kind → Bool
  | identifier | integer | kwTrue | kwFalse | dash | not | openParen | kwIf | kwFn => true
  | _ => false

/-- Whether a statement may start with a token of this kind. -/
def startsStmt : Kind → Bool
  | kwLet | kwReturn => true
  | kind => kind.startsExpr

end Kind

/-- Names with a comma between each two, as parameters. -/
inductive Names : List Identifier → List Token → Prop where
  | one {name : Token} : name.kind = .identifier → Names [.ofToken name] [name]
  | more {parameters : List Identifier} {tokens : List Token} {comma name : Token} :
      Names parameters tokens → comma.kind = .comma → name.kind = .identifier →
        Names (parameters ++ [.ofToken name]) (tokens ++ [comma, name])

/-- The parameters of a function, perhaps none. -/
inductive Parameters : List Identifier → List Token → Prop where
  | none : Parameters [] []
  | some {parameters : List Identifier} {tokens : List Token} :
      Names parameters tokens → Parameters parameters tokens

/-- The end of a binding or a return: a semicolon, or nothing at the end of the input or of the
enclosing block. -/
inductive Terminator (inside : Bool) (next : Kind) : List Token → Prop where
  | semicolon {token : Token} : token.kind = .semicolon → Terminator inside next [token]
  | endOfInput : next = .eof → Terminator inside next []
  | endOfBlock : inside = true → next = .closeCurly → Terminator inside next []

/-- The end of an expression on its own: a semicolon, or nothing where it is not continued. -/
inductive LooseEnd (next : Kind) : List Token → Prop where
  | semicolon {token : Token} : token.kind = .semicolon → LooseEnd next [token]
  | nothing : ¬ next.continuesExpr → LooseEnd next []

/-- What a list of tokens may be read as. -/
inductive Phrase where
  | expr (stratum : Stratum) (tree : Expr)
  /-- One argument or more, with a comma between each two. -/
  | someArguments (trees : List Expr)
  | arguments (trees : List Expr)
  | block (tree : Block)
  /-- A statement, in a block or not, before a token of the kind `next`. -/
  | stmt (inside : Bool) (next : Kind) (tree : Stmt)
  | stmts (inside : Bool) (next : Kind) (trees : List Stmt)

/-- The grammar of the language: a phrase, its tokens, and the number of frames open at once
inside it. -/
inductive Derives : Phrase → List Token → Nat → Prop where
  | tighter {stratum : Stratum} {tree : Expr} {tokens : List Token} {nesting : Nat} :
      Derives (.expr stratum.tighter tree) tokens nesting →
        Derives (.expr stratum tree) tokens nesting
  | infixOp {stratum : Stratum} {left right : Expr} {op : Token} {first second : List Token}
      {m n : Nat} :
      Derives (.expr stratum left) first m → op.kind ∈ stratum.operators →
        Derives (.expr stratum.tighter right) second n →
          Derives (.expr stratum (.infixOp op left op.literal right))
            (first ++ op :: second) (max m (n + 1))
  | prefixOp {right : Expr} {op : Token} {tokens : List Token} {n : Nat} :
      op.kind = .dash ∨ op.kind = .not → Derives (.expr .unary right) tokens n →
        Derives (.expr .unary (.prefixOp op op.literal right)) (op :: tokens) (n + 1)
  | call {callee : Expr} {trees : List Expr} {opening closing : Token}
      {first second : List Token} {m n : Nat} :
      Derives (.expr .call callee) first m → opening.kind = .openParen →
        Derives (.arguments trees) second n → closing.kind = .closeParen →
          Derives (.expr .call (.call opening callee trees))
            (first ++ opening :: (second ++ [closing])) (max m n)
  | identifier {token : Token} : token.kind = .identifier →
      Derives (.expr .primary (.identifier (.ofToken token))) [token] 0
  | integer {token : Token} {value : Nat} : token.kind = .integer →
      Decimal.value? token.literal.toList = some value → value ≤ maxInteger →
        Derives (.expr .primary (.integer token (.ofNat value))) [token] 0
  | boolean {token : Token} : token.kind = .kwTrue ∨ token.kind = .kwFalse →
      Derives (.expr .primary (.boolean token (token.kind = .kwTrue))) [token] 0
  | grouping {tree : Expr} {opening closing : Token} {tokens : List Token} {n : Nat} :
      opening.kind = .openParen → Derives (.expr .equality tree) tokens n →
        closing.kind = .closeParen →
          Derives (.expr .primary tree) (opening :: (tokens ++ [closing])) (n + 1)
  | conditional {condition : Expr} {consequence : Block} {kw opening closing : Token}
      {first second : List Token} {m n : Nat} :
      kw.kind = .kwIf → opening.kind = .openParen →
        Derives (.expr .equality condition) first m → closing.kind = .closeParen →
          Derives (.block consequence) second n →
            Derives (.expr .primary (.conditional kw condition consequence none))
              (kw :: opening :: (first ++ closing :: second)) (max (m + 1) n)
  | conditionalElse {condition : Expr} {consequence alternative : Block}
      {kw opening closing kwElse : Token} {first second third : List Token} {m n k : Nat} :
      kw.kind = .kwIf → opening.kind = .openParen →
        Derives (.expr .equality condition) first m → closing.kind = .closeParen →
          Derives (.block consequence) second n → kwElse.kind = .kwElse →
            Derives (.block alternative) third k →
              Derives (.expr .primary (.conditional kw condition consequence (some alternative)))
                (kw :: opening :: (first ++ closing :: (second ++ kwElse :: third)))
                (max (m + 1) (max n k))
  | function {parameters : List Identifier} {body : Block} {kw opening closing : Token}
      {first second : List Token} {n : Nat} :
      kw.kind = .kwFn → opening.kind = .openParen → Parameters parameters first →
        closing.kind = .closeParen → Derives (.block body) second n →
          Derives (.expr .primary (.function kw parameters body))
            (kw :: opening :: (first ++ closing :: second)) n
  | oneArgument {tree : Expr} {tokens : List Token} {n : Nat} :
      Derives (.expr .equality tree) tokens n →
        Derives (.someArguments [tree]) tokens (n + 1)
  | moreArguments {trees : List Expr} {tree : Expr} {comma : Token} {first second : List Token}
      {m n : Nat} :
      Derives (.someArguments trees) first m → comma.kind = .comma →
        Derives (.expr .equality tree) second n →
          Derives (.someArguments (trees ++ [tree])) (first ++ comma :: second)
            (max m (n + 1))
  | noArguments : Derives (.arguments []) [] 0
  | arguments {trees : List Expr} {tokens : List Token} {n : Nat} :
      Derives (.someArguments trees) tokens n →
        Derives (.arguments trees) tokens n
  | block {trees : List Stmt} {opening closing : Token} {tokens : List Token} {n : Nat} :
      opening.kind = .openCurly → Derives (.stmts true .closeCurly trees) tokens n →
        closing.kind = .closeCurly →
          Derives (.block ⟨opening, trees⟩) (opening :: (tokens ++ [closing])) (n + 1)
  | binding {inside : Bool} {next : Kind} {value : Expr} {kw name assignment : Token}
      {first second : List Token} {n : Nat} :
      kw.kind = .kwLet → name.kind = .identifier → assignment.kind = .assignment →
        Derives (.expr .equality value) first n → Terminator inside next second →
          Derives (.stmt inside next (.binding kw (.ofToken name) value))
            (kw :: name :: assignment :: (first ++ second)) (n + 1)
  | returningNothing {inside : Bool} {next : Kind} {kw : Token} {tokens : List Token} :
      kw.kind = .kwReturn → Terminator inside next tokens →
        Derives (.stmt inside next (.returning kw none)) (kw :: tokens) 0
  | returning {inside : Bool} {next : Kind} {value : Expr} {kw : Token}
      {first second : List Token} {n : Nat} :
      kw.kind = .kwReturn → Derives (.expr .equality value) first n →
        Terminator inside next second →
          Derives (.stmt inside next (.returning kw (some value)))
            (kw :: (first ++ second)) (n + 1)
  | expression {inside : Bool} {next : Kind} {value : Expr} {token : Token}
      {first second : List Token} {n : Nat} :
      Derives (.expr .equality value) (token :: first) n → LooseEnd next second →
        Derives (.stmt inside next (.expression token value))
          (token :: (first ++ second)) (n + 1)
  | noStmts {inside : Bool} {next : Kind} : Derives (.stmts inside next []) [] 0
  | moreStmts {inside : Bool} {next : Kind} {tree : Stmt} {trees : List Stmt}
      {first second : List Token} {m n : Nat} :
      Derives (.stmt inside (firstKind second next) tree) first m →
        Derives (.stmts inside next trees) second n →
          Derives (.stmts inside next (tree :: trees)) (first ++ second) (max m n)

namespace Kind

/-- A kind that starts an expression is no keyword of a statement and ends no arguments. -/
theorem ne_of_startsExpr {kind : Kind} (h : kind.startsExpr = true) :
    kind ≠ .kwLet ∧ kind ≠ .kwReturn ∧ kind ≠ .closeParen := by
  refine ⟨?_, ?_, ?_⟩ <;> rintro rfl <;> contradiction

theorem startsStmt_of_startsExpr {kind : Kind} (h : kind.startsExpr = true) :
    kind.startsStmt = true := by
  cases kind <;> first | rfl | contradiction

/-- A kind that starts a statement starts neither a block nor the rest of a statement. -/
theorem ne_of_startsStmt {kind : Kind} (h : kind.startsStmt = true) :
    kind ≠ .kwElse ∧ kind ≠ .openCurly ∧ kind ≠ .closeCurly ∧ kind ≠ .semicolon := by
  refine ⟨?_, ?_, ?_, ?_⟩ <;> rintro rfl <;> contradiction

/-- An operator is a plain token and no keyword. -/
theorem plain_of_mem_operators {kind : Kind} {stratum : Stratum} (h : kind ∈ stratum.operators) :
    kind.Plain ∧ kind ≠ .kwElse := by
  refine ⟨⟨?_, ?_, ?_, ?_, ?_⟩, ?_⟩ <;> rintro rfl <;> cases stratum <;>
    simp [Stratum.operators] at h

end Kind

theorem Names.clause {parameters : List Identifier} {tokens : List Token}
    (h : Names parameters tokens) : Clause tokens := by
  induction h with
  | one hname => exact .single (by simp [hname])
  | more _ hcomma hname ih =>
    exact ih.append (.cons (by simp [hcomma]) (.single (by simp [hname])))

/-- Names start with a name. -/
theorem Names.firstKind_eq {parameters : List Identifier} {tokens : List Token}
    (h : Names parameters tokens) (next : Kind) : firstKind tokens next = .identifier := by
  induction h with
  | one hname => exact hname
  | more hnames _ _ ih =>
    cases hnames with
    | one hname => exact hname
    | more => simpa [firstKind_append] using ih

theorem Parameters.clause {parameters : List Identifier} {tokens : List Token}
    (h : Parameters parameters tokens) : Clause tokens := by
  cases h with
  | none => exact .nil
  | some hnames => exact hnames.clause

theorem Terminator.sentence {inside : Bool} {next : Kind} {tokens : List Token}
    (h : Terminator inside next tokens) : Sentence tokens := by
  cases h with
  | semicolon hkind => exact .ended .nil hkind
  | endOfInput _ => exact .clause .nil
  | endOfBlock _ _ => exact .clause .nil

theorem LooseEnd.sentence {next : Kind} {tokens : List Token} (h : LooseEnd next tokens) :
    Sentence tokens := by
  cases h with
  | semicolon hkind => exact .ended .nil hkind
  | nothing _ => exact .clause .nil

/-- What is seen of a phrase by one who only looks at its braces and semicolons and at whether
its tokens are legal. -/
def Phrase.Outline (tokens : List Token) : Phrase → Prop
  | stmt _ _ _ => Sentence tokens
  | stmts _ _ _ => Contents tokens
  | _ => Clause tokens

namespace Derives

/-- A statement is a sentence, and what it is made of are clauses. -/
theorem outline {phrase : Phrase} {tokens : List Token} {nesting : Nat}
    (h : Derives phrase tokens nesting) : phrase.Outline tokens := by
  induction h with
  | tighter _ ih => exact ih
  | infixOp _ hop _ ihleft ihright =>
    exact ihleft.append (ihright.cons (Kind.plain_of_mem_operators hop).1)
  | prefixOp hop _ ih =>
    exact ih.cons (by rcases hop with hop | hop <;> simp [hop])
  | call _ hopening _ hclosing ihcallee ih =>
    exact ihcallee.append (.cons (by simp [hopening]) (ih.append (.single (by simp [hclosing]))))
  | identifier hkind => exact .single (by simp [hkind])
  | integer hkind _ _ => exact .single (by simp [hkind])
  | boolean hkind => exact .single (by rcases hkind with hkind | hkind <;> simp [hkind])
  | grouping hopening _ hclosing ih =>
    exact .cons (by simp [hopening]) (ih.append (.single (by simp [hclosing])))
  | conditional hkw hopening _ hclosing _ ihcondition ihblock =>
    exact .cons (by simp [hkw]) (.cons (by simp [hopening]) (ihcondition.append
      (ihblock.cons (by simp [hclosing]))))
  | conditionalElse hkw hopening _ hclosing _ helse _ ihcondition ihfirst ihsecond =>
    exact .cons (by simp [hkw]) (.cons (by simp [hopening]) (ihcondition.append
      (.cons (by simp [hclosing]) (ihfirst.append (ihsecond.cons (by simp [helse]))))))
  | function hkw hopening hparameters hclosing _ ih =>
    exact .cons (by simp [hkw]) (.cons (by simp [hopening]) (hparameters.clause.append
      (ih.cons (by simp [hclosing]))))
  | oneArgument _ ih => exact ih
  | moreArguments _ hcomma _ ihfirst ihsecond =>
    exact ihfirst.append (ihsecond.cons (by simp [hcomma]))
  | noArguments => exact .nil
  | arguments _ ih => exact ih
  | block hopening _ hclosing ih => exact .braced hopening hclosing ih
  | binding hkw hname hassignment _ hend ih =>
    exact .append (.cons (by simp [hkw]) (.cons (by simp [hname])
      (.cons (by simp [hassignment]) ih))) hend.sentence
  | returningNothing hkw hend => exact .append (.single (by simp [hkw])) hend.sentence
  | returning hkw _ hend ih => exact .append (.cons (by simp [hkw]) ih) hend.sentence
  | expression _ hend ih => exact .append ih hend.sentence
  | noStmts => exact .nil
  | moreStmts _ _ ihfirst ihrest => exact (Sentence.contents ihfirst).append ihrest

/-- The tokens of every phrase may stand in a block. -/
theorem contents {phrase : Phrase} {tokens : List Token} {nesting : Nat}
    (h : Derives phrase tokens nesting) : Contents tokens := by
  have houtline := h.outline
  cases phrase with
  | expr _ _ => exact Clause.toContents houtline
  | someArguments _ => exact Clause.toContents houtline
  | arguments _ => exact Clause.toContents houtline
  | block _ => exact Clause.toContents houtline
  | stmt _ _ _ => exact Sentence.contents houtline
  | stmts _ _ _ => exact houtline

/-- The braces of every phrase are balanced. -/
theorem balanced {phrase : Phrase} {tokens : List Token} {nesting : Nat}
    (h : Derives phrase tokens nesting) : Balanced tokens :=
  h.contents.balanced

/-- An expression starts with a token that may start one. -/
theorem exists_first_of_expr {stratum : Stratum} {tree : Expr} {tokens : List Token}
    {nesting : Nat} (h : Derives (.expr stratum tree) tokens nesting) :
    ∃ first rest, tokens = first :: rest ∧ first.kind.startsExpr = true := by
  generalize hphrase : Phrase.expr stratum tree = phrase at h
  induction h generalizing stratum tree with
  | tighter _ ih =>
    cases hphrase
    exact ih rfl
  | infixOp _ _ _ ih _ =>
    cases hphrase
    obtain ⟨first, rest, rfl, hfirst⟩ := ih rfl
    exact ⟨first, _, rfl, hfirst⟩
  | prefixOp hop _ _ =>
    exact ⟨_, _, rfl, by rcases hop with hop | hop <;> simp [hop, Kind.startsExpr]⟩
  | call _ _ _ _ ih _ =>
    cases hphrase
    obtain ⟨first, rest, rfl, hfirst⟩ := ih rfl
    exact ⟨first, _, rfl, hfirst⟩
  | identifier hkind => exact ⟨_, _, rfl, by simp [hkind, Kind.startsExpr]⟩
  | integer hkind _ _ => exact ⟨_, _, rfl, by simp [hkind, Kind.startsExpr]⟩
  | boolean hkind =>
    exact ⟨_, _, rfl, by rcases hkind with hkind | hkind <;> simp [hkind, Kind.startsExpr]⟩
  | grouping hopening _ _ _ => exact ⟨_, _, rfl, by simp [hopening, Kind.startsExpr]⟩
  | conditional hkw => exact ⟨_, _, rfl, by simp [hkw, Kind.startsExpr]⟩
  | conditionalElse hkw => exact ⟨_, _, rfl, by simp [hkw, Kind.startsExpr]⟩
  | function hkw => exact ⟨_, _, rfl, by simp [hkw, Kind.startsExpr]⟩
  | _ => cases hphrase

/-- Arguments start with a token that may start an expression. -/
theorem exists_first_of_someArguments {trees : List Expr} {tokens : List Token} {nesting : Nat}
    (h : Derives (.someArguments trees) tokens nesting) :
    ∃ first rest, tokens = first :: rest ∧ first.kind.startsExpr = true := by
  generalize hphrase : Phrase.someArguments trees = phrase at h
  induction h generalizing trees with
  | oneArgument htree _ => exact htree.exists_first_of_expr
  | moreArguments _ _ _ ih _ =>
    obtain ⟨first, rest, rfl, hfirst⟩ := ih rfl
    exact ⟨first, _, rfl, hfirst⟩
  | _ => cases hphrase

/-- A statement starts with its keyword or with a token that may start an expression. -/
theorem exists_first_of_stmt {inside : Bool} {next : Kind} {tree : Stmt} {tokens : List Token}
    {nesting : Nat} (h : Derives (.stmt inside next tree) tokens nesting) :
    ∃ first rest, tokens = first :: rest ∧ first.kind.startsStmt = true := by
  cases h with
  | binding hkw => exact ⟨_, _, rfl, by simp [hkw, Kind.startsStmt]⟩
  | returningNothing hkw => exact ⟨_, _, rfl, by simp [hkw, Kind.startsStmt]⟩
  | returning hkw => exact ⟨_, _, rfl, by simp [hkw, Kind.startsStmt]⟩
  | expression hvalue =>
    obtain ⟨first, rest, heq, hfirst⟩ := hvalue.exists_first_of_expr
    obtain ⟨rfl, rfl⟩ := List.cons.inj heq
    exact ⟨_, _, rfl, Kind.startsStmt_of_startsExpr hfirst⟩

/-- Statements are followed by another statement or by what follows them all. -/
theorem firstKind_of_stmts {inside : Bool} {next : Kind} {trees : List Stmt}
    {tokens : List Token} {nesting : Nat}
    (h : Derives (.stmts inside next trees) tokens nesting)
    (hnext : next ≠ .kwElse ∧ next ≠ .semicolon) :
    firstKind tokens next ≠ .kwElse ∧ firstKind tokens next ≠ .semicolon := by
  cases h with
  | noStmts => exact hnext
  | moreStmts hfirst _ =>
    obtain ⟨first, rest, rfl, hkind⟩ := hfirst.exists_first_of_stmt
    obtain ⟨helse, -, -, hsemicolon⟩ := Kind.ne_of_startsStmt hkind
    exact ⟨helse, hsemicolon⟩

end Derives

end LetScript
