import LetScript.Grammar.Statement

/-!
# Moving spans

Where a token stands in its source is recorded in the tree and in diagnostics, but nothing is
decided by it. To say so, spans and positions are mapped by a relocation: a function on spans and
one on positions that agree on where a span starts. It acts on tokens, and from there on trees,
diagnostics and cursors.

A relocation that forgets all places leaves what two sources with the same kinds and texts have in
common.
-/

namespace LetScript

/-- A function on spans and one on positions that belong together. -/
structure Relocation where
  span : Span → Span
  position : Position → Position
  start_span (s : Span) : (span s).start = position s.start
  span_empty (p : Position) : span ⟨p, p⟩ = ⟨position p, position p⟩

namespace Relocation

/-- Forgets where everything stands. -/
def erase : Relocation where
  span _ := .null
  position _ := .null
  start_span _ := rfl
  span_empty _ := rfl

/-- Leaves everything where it is. -/
protected def id : Relocation where
  span s := s
  position p := p
  start_span _ := rfl
  span_empty _ := rfl

/-- Moves both ends of a span. -/
def ofPosition (f : Position → Position) : Relocation where
  span s := ⟨f s.start, f s.stop⟩
  position := f
  start_span _ := rfl
  span_empty _ := rfl

end Relocation

/-- The token at another place. -/
def Token.relocate (g : Relocation) (token : Token) : Token :=
  { token with span := g.span token.span }

/-- The name with its token at another place. -/
def Identifier.relocate (g : Relocation) (id : Identifier) : Identifier :=
  { id with token := id.token.relocate g }

mutual

/-- The expression with its tokens at other places. -/
def Expr.relocate (g : Relocation) : Expr → Expr
  | .identifier id => .identifier (id.relocate g)
  | .integer token value => .integer (token.relocate g) value
  | .boolean token value => .boolean (token.relocate g) value
  | .prefixOp token operator right => .prefixOp (token.relocate g) operator (right.relocate g)
  | .infixOp token left operator right =>
    .infixOp (token.relocate g) (left.relocate g) operator (right.relocate g)
  | .conditional token condition consequence none =>
    .conditional (token.relocate g) (condition.relocate g) (consequence.relocate g) none
  | .conditional token condition consequence (some alternative) =>
    .conditional (token.relocate g) (condition.relocate g) (consequence.relocate g)
      (some (alternative.relocate g))
  | .function token parameters body =>
    .function (token.relocate g) (parameters.map (Identifier.relocate g)) (body.relocate g)
  | .call token callee arguments =>
    .call (token.relocate g) (callee.relocate g) (Expr.relocateAll g arguments)

/-- The expressions with their tokens at other places. -/
def Expr.relocateAll (g : Relocation) : List Expr → List Expr
  | [] => []
  | tree :: trees => tree.relocate g :: Expr.relocateAll g trees

/-- The statement with its tokens at other places. -/
def Stmt.relocate (g : Relocation) : Stmt → Stmt
  | .binding token id value => .binding (token.relocate g) (id.relocate g) (value.relocate g)
  | .returning token none => .returning (token.relocate g) none
  | .returning token (some value) => .returning (token.relocate g) (some (value.relocate g))
  | .expression token value => .expression (token.relocate g) (value.relocate g)

/-- The statements with their tokens at other places. -/
def Stmt.relocateAll (g : Relocation) : List Stmt → List Stmt
  | [] => []
  | tree :: trees => tree.relocate g :: Stmt.relocateAll g trees

/-- The block with its tokens at other places. -/
def Block.relocate (g : Relocation) : Block → Block
  | ⟨token, statements⟩ => ⟨token.relocate g, Stmt.relocateAll g statements⟩

end

@[simp] theorem Token.relocate_id (token : Token) : token.relocate .id = token := rfl

@[simp] theorem Identifier.relocate_id (id : Identifier) : id.relocate .id = id := rfl

mutual

theorem Expr.relocate_id : (tree : Expr) → tree.relocate .id = tree
  | .identifier _ => rfl
  | .integer _ _ => rfl
  | .boolean _ _ => rfl
  | .prefixOp _ _ right => by rw [Expr.relocate, Expr.relocate_id right, Token.relocate_id]
  | .infixOp _ left _ right => by
    rw [Expr.relocate, Expr.relocate_id left, Expr.relocate_id right, Token.relocate_id]
  | .conditional _ condition consequence none => by
    rw [Expr.relocate, Expr.relocate_id condition, Block.relocate_id consequence,
      Token.relocate_id]
  | .conditional _ condition consequence (some alternative) => by
    rw [Expr.relocate, Expr.relocate_id condition, Block.relocate_id consequence,
      Block.relocate_id alternative, Token.relocate_id]
  | .function _ parameters body => by
    rw [Expr.relocate, Block.relocate_id body, Token.relocate_id]
    exact congrArg (Expr.function _ · _) (List.map_id' parameters)
  | .call _ callee arguments => by
    rw [Expr.relocate, Expr.relocate_id callee, Expr.relocateAll_id arguments,
      Token.relocate_id]

theorem Expr.relocateAll_id : (trees : List Expr) → Expr.relocateAll .id trees = trees
  | [] => rfl
  | tree :: trees => by
    rw [Expr.relocateAll, Expr.relocate_id tree, Expr.relocateAll_id trees]

theorem Stmt.relocate_id : (tree : Stmt) → tree.relocate .id = tree
  | .binding _ _ value => by
    rw [Stmt.relocate, Expr.relocate_id value, Token.relocate_id, Identifier.relocate_id]
  | .returning _ none => rfl
  | .returning _ (some value) => by
    rw [Stmt.relocate, Expr.relocate_id value, Token.relocate_id]
  | .expression _ value => by rw [Stmt.relocate, Expr.relocate_id value, Token.relocate_id]

theorem Stmt.relocateAll_id : (trees : List Stmt) → Stmt.relocateAll .id trees = trees
  | [] => rfl
  | tree :: trees => by
    rw [Stmt.relocateAll, Stmt.relocate_id tree, Stmt.relocateAll_id trees]

theorem Block.relocate_id : (tree : Block) → tree.relocate .id = tree
  | ⟨_, statements⟩ => by
    rw [Block.relocate, Stmt.relocateAll_id statements, Token.relocate_id]

end

/-- The diagnostic at another place. -/
def Diagnostic.relocate (g : Relocation) (diagnostic : Diagnostic) : Diagnostic :=
  { diagnostic with position := g.position diagnostic.position }

/-- The cursor with its tokens at other places. -/
def Cursor.relocate (g : Relocation) (cursor : Cursor) : Cursor :=
  ⟨cursor.tokens.map (Token.relocate g), g.position cursor.finish, cursor.openBraces⟩

section

variable (g : Relocation)

theorem Expr.relocateAll_eq (trees : List Expr) :
    Expr.relocateAll g trees = trees.map (Expr.relocate g) := by
  induction trees with
  | nil => rw [Expr.relocateAll, List.map_nil]
  | cons tree trees ih => rw [Expr.relocateAll, ih, List.map_cons]

theorem Stmt.relocateAll_eq (trees : List Stmt) :
    Stmt.relocateAll g trees = trees.map (Stmt.relocate g) := by
  induction trees with
  | nil => rw [Stmt.relocateAll, List.map_nil]
  | cons tree trees ih => rw [Stmt.relocateAll, ih, List.map_cons]

@[simp] theorem Token.kind_relocate (token : Token) : (token.relocate g).kind = token.kind := rfl

@[simp] theorem Token.literal_relocate (token : Token) :
    (token.relocate g).literal = token.literal := rfl

theorem Token.position_relocate (token : Token) :
    (token.relocate g).position = g.position token.position :=
  g.start_span token.span

theorem Token.relocate_endOfInput (finish : Position) :
    (Token.endOfInput finish).relocate g = .endOfInput (g.position finish) := by
  simp only [relocate, endOfInput, g.span_empty]

namespace Cursor

variable (c : Cursor)

@[simp] theorem current_relocate : (c.relocate g).current = c.current.relocate g := by
  cases htokens : c.tokens with
  | nil => simp [current, relocate, htokens, Token.relocate_endOfInput]
  | cons token rest => simp [current, relocate, htokens]

@[simp] theorem peek_relocate : (c.relocate g).peek = c.peek.relocate g := by
  have htail : (c.relocate g).tokens.tail = c.tokens.tail.map (Token.relocate g) :=
    List.map_tail.symm
  rw [peek, peek, htail]
  cases c.tokens.tail with
  | nil => exact (Token.relocate_endOfInput g c.finish).symm
  | cons token rest => rfl

@[simp] theorem openBraces_relocate : (c.relocate g).openBraces = c.openBraces := rfl

@[simp] theorem advance_relocate : (c.relocate g).advance = c.advance.relocate g := by
  rw [advance, peek_relocate]
  simp [relocate, advance]

theorem tokens_relocate_eq_nil : (c.relocate g).tokens = [] ↔ c.tokens = [] := List.map_eq_nil_iff

end Cursor

end

end LetScript
