import LetScript.Proofs.Parts
import LetScript.Proofs.Segments
import LetScript.Tree.Equality
import Mathlib.Data.List.Flatten

/-!
# Where the tokens of a tree come from

Every node keeps the token it was built from. Read in the order of the source, where the operator of
an infix expression comes after its left operand and the parenthesis of a call after the callee, the
tokens that a statement keeps are those of its range, in order and each once. What the tree leaves
out is only the punctuation that its shape stands for: the parentheses of a group, a condition or a
list, the closing ones, commas, the equals sign of a binding, semicolons and the keyword before an
alternative.

The same holds of each node on its own, however deep in the tree: it stands at a part of the
statement's derivation, keeps the tokens of that part in order, and what it says agrees with the
token it keeps. The token of an expression on its own is not built from anything; it is the first
one of the statement's part, as are those of the other statements.
-/

namespace LetScript

/-- The kinds of token that may leave no trace in a tree. -/
def Kind.silent : Kind → Bool
  | openParen | closeParen | closeCurly | comma | assignment | semicolon | kwElse => true
  | _ => false

/-- The second list is what is kept of the first, in order and each token once, and only tokens that
may leave no trace are left out. -/
inductive Retains : List Token → List Token → Prop where
  | nil : Retains [] []
  | keep {tokens kept : List Token} (token : Token) : Retains tokens kept →
      Retains (token :: tokens) (token :: kept)
  | leave {tokens kept : List Token} {token : Token} : token.kind.silent = true →
      Retains tokens kept → Retains (token :: tokens) kept

namespace Retains

theorem append {first kept second kept' : List Token} (hfirst : Retains first kept)
    (hsecond : Retains second kept') : Retains (first ++ second) (kept ++ kept') := by
  induction hfirst with
  | nil => exact hsecond
  | keep token _ ih => exact ih.keep token
  | leave hsilent _ ih => exact ih.leave hsilent

/-- What is kept stands at places of the tokens one after the other. -/
theorem sublist {tokens kept : List Token} (h : Retains tokens kept) : kept.Sublist tokens := by
  induction h with
  | nil => exact .slnil
  | keep token _ ih => exact ih.cons_cons token
  | leave _ _ ih => exact ih.cons _

end Retains

mutual

/-- The tokens that an expression keeps, in the order of the source. -/
def Expr.retained : Expr → List Token
  | .identifier id => [id.token]
  | .integer token _ => [token]
  | .boolean token _ => [token]
  | .prefixOp token _ right => token :: right.retained
  | .infixOp token left _ right => left.retained ++ token :: right.retained
  | .conditional token condition consequence none =>
    token :: (condition.retained ++ consequence.retained)
  | .conditional token condition consequence (some alternative) =>
    token :: (condition.retained ++ (consequence.retained ++ alternative.retained))
  | .function token parameters body => token :: (parameters.map Identifier.token ++ body.retained)
  | .call token callee arguments => callee.retained ++ token :: Expr.retainedAll arguments

/-- The tokens that several expressions keep. -/
def Expr.retainedAll : List Expr → List Token
  | [] => []
  | tree :: trees => tree.retained ++ Expr.retainedAll trees

/-- The tokens that a statement keeps. An expression on its own keeps those of the expression, among
which its own one may be. -/
def Stmt.retained : Stmt → List Token
  | .binding token id value => token :: id.token :: value.retained
  | .returning token none => [token]
  | .returning token (some value) => token :: value.retained
  | .expression _ value => value.retained

/-- The tokens that several statements keep. -/
def Stmt.retainedAll : List Stmt → List Token
  | [] => []
  | tree :: trees => tree.retained ++ Stmt.retainedAll trees

/-- The tokens that a block keeps, its opening brace first. -/
def Block.retained : Block → List Token
  | ⟨token, statements⟩ => token :: Stmt.retainedAll statements

end

/-- A part of a tree that keeps a token. -/
inductive Node where
  | identifier (id : Identifier)
  | expr (tree : Expr)
  | stmt (tree : Stmt)
  | block (tree : Block)

mutual

/-- An expression with all the nodes inside it. -/
def Expr.nodes : Expr → List Node
  | .identifier id => [.expr (.identifier id)]
  | .integer token value => [.expr (.integer token value)]
  | .boolean token value => [.expr (.boolean token value)]
  | .prefixOp token operator right => .expr (.prefixOp token operator right) :: right.nodes
  | .infixOp token left operator right =>
    .expr (.infixOp token left operator right) :: (left.nodes ++ right.nodes)
  | .conditional token condition consequence none =>
    .expr (.conditional token condition consequence none) ::
      (condition.nodes ++ consequence.nodes)
  | .conditional token condition consequence (some alternative) =>
    .expr (.conditional token condition consequence (some alternative)) ::
      (condition.nodes ++ (consequence.nodes ++ alternative.nodes))
  | .function token parameters body =>
    .expr (.function token parameters body) :: (parameters.map .identifier ++ body.nodes)
  | .call token callee arguments =>
    .expr (.call token callee arguments) :: (callee.nodes ++ Expr.nodesAll arguments)

/-- Several expressions with all the nodes inside them. -/
def Expr.nodesAll : List Expr → List Node
  | [] => []
  | tree :: trees => tree.nodes ++ Expr.nodesAll trees

/-- A statement with all the nodes inside it. -/
def Stmt.nodes : Stmt → List Node
  | .binding token id value => .stmt (.binding token id value) :: .identifier id :: value.nodes
  | .returning token none => [.stmt (.returning token none)]
  | .returning token (some value) => .stmt (.returning token (some value)) :: value.nodes
  | .expression token value => .stmt (.expression token value) :: value.nodes

/-- Several statements with all the nodes inside them. -/
def Stmt.nodesAll : List Stmt → List Node
  | [] => []
  | tree :: trees => tree.nodes ++ Stmt.nodesAll trees

/-- A block with all the nodes inside it. -/
def Block.nodes : Block → List Node
  | ⟨token, statements⟩ => .block ⟨token, statements⟩ :: Stmt.nodesAll statements

end

theorem Expr.retainedAll_eq_flatMap (trees : List Expr) :
    Expr.retainedAll trees = trees.flatMap Expr.retained := by
  induction trees with
  | nil => rfl
  | cons tree trees ih => rw [Expr.retainedAll, ih, List.flatMap_cons]

theorem Expr.nodesAll_eq_flatMap (trees : List Expr) :
    Expr.nodesAll trees = trees.flatMap Expr.nodes := by
  induction trees with
  | nil => rfl
  | cons tree trees ih => rw [Expr.nodesAll, ih, List.flatMap_cons]

/-- The name of an identifier is what its token spells. -/
def Identifier.Agrees (id : Identifier) : Prop :=
  id.token.kind = .identifier ∧ id.name = id.token.literal

namespace Node

/-- What a node says is what its token says. -/
def Agrees : Node → Prop
  | identifier id => id.Agrees
  | expr (.identifier id) => id.Agrees
  | expr (.integer token value) => token.kind = .integer ∧ ∃ number,
      Decimal.value? token.literal.toList = some number ∧ number ≤ maxInteger ∧
        value.toInt = number
  | expr (.boolean token value) =>
      (token.kind = .kwTrue ∨ token.kind = .kwFalse) ∧ value = decide (token.kind = .kwTrue)
  | expr (.prefixOp token operator _) =>
      (token.kind = .dash ∨ token.kind = .not) ∧ operator = token.literal
  | expr (.infixOp token _ operator _) =>
      (∃ stratum : Stratum, token.kind ∈ stratum.operators) ∧ operator = token.literal
  | expr (.conditional token _ _ _) => token.kind = .kwIf
  | expr (.function token _ _) => token.kind = .kwFn
  | expr (.call token _ _) => token.kind = .openParen
  | stmt (.binding token _ _) => token.kind = .kwLet
  | stmt (.returning token _) => token.kind = .kwReturn
  | stmt (.expression _ _) => True
  | block tree => tree.token.kind = .openCurly

/-- The node stands at a part of the whole, of whose tokens it keeps all but the punctuation, and a
statement has the first of them for its token. -/
def StandsIn (whole : Phrase) (tokens : List Token) : Node → Prop
  | identifier id => id.token ∈ tokens
  | expr tree => ∃ before stratum range,
      Part whole tokens before (.expr stratum tree) range ∧ Retains range tree.retained
  | stmt tree => ∃ before inside next range,
      Part whole tokens before (.stmt inside next tree) range ∧ Retains range tree.retained ∧
        range.head? = some tree.token
  | block tree => ∃ before range,
      Part whole tokens before (.block tree) range ∧ Retains range tree.retained

end Node

/-- The tokens that are kept, and the nodes, which say what their tokens do. -/
structure Accounts (tokens kept : List Token) (nodes : List Node) : Prop where
  retains : Retains tokens kept
  agrees : ∀ node ∈ nodes, node.Agrees

namespace Accounts

variable {tokens kept first second kept' : List Token} {token : Token} {nodes nodes' : List Node}

theorem nil : Accounts [] [] [] := ⟨.nil, List.forall_mem_nil _⟩

theorem append (h : Accounts first kept nodes) (h' : Accounts second kept' nodes') :
    Accounts (first ++ second) (kept ++ kept') (nodes ++ nodes') :=
  ⟨h.retains.append h'.retains, List.forall_mem_append.mpr ⟨h.agrees, h'.agrees⟩⟩

/-- A token before the others is kept. -/
theorem keep (token : Token) (h : Accounts tokens kept nodes) :
    Accounts (token :: tokens) (token :: kept) nodes := by
  have hkeep : Accounts [token] [token] [] := ⟨.keep token .nil, List.forall_mem_nil _⟩
  exact hkeep.append h

/-- Tokens after the others are left out. -/
theorem leaveEnd (h : Accounts first kept nodes) (h' : Accounts second [] []) :
    Accounts (first ++ second) kept nodes := by
  simpa using h.append h'

/-- A token is left out. -/
theorem left {kind : Kind} (hkind : token.kind = kind) (hsilent : kind.silent = true) :
    Accounts [token] [] [] :=
  ⟨.leave (hkind ▸ hsilent) .nil, List.forall_mem_nil _⟩

/-- A token before the others is left out. -/
theorem leave {kind : Kind} (h : Accounts tokens kept nodes) (hkind : token.kind = kind)
    (hsilent : kind.silent = true) : Accounts (token :: tokens) kept nodes :=
  (left hkind hsilent).append h

/-- All the tokens make up one node more. -/
theorem node {node : Node} (h : Accounts tokens kept nodes) (hagrees : node.Agrees) :
    Accounts tokens kept (node :: nodes) :=
  ⟨h.retains, List.forall_mem_cons.mpr ⟨hagrees, h.agrees⟩⟩

/-- A name is kept. -/
theorem name (hname : token.kind = .identifier) :
    Accounts [token] [token] [.identifier (.ofToken token)] :=
  (nil.keep token).node ⟨hname, rfl⟩

end Accounts

/-- The names of parameters are kept, and the commas left out. -/
theorem Names.accounts {parameters : List Identifier} {tokens : List Token}
    (h : Names parameters tokens) :
    Accounts tokens (parameters.map Identifier.token) (parameters.map .identifier) := by
  induction h with
  | one hname => exact .name hname
  | more _ hcomma hname ih =>
    have hmore := ih.append ((Accounts.name hname).leave hcomma rfl)
    simpa [Identifier.ofToken] using hmore

theorem Parameters.accounts {parameters : List Identifier} {tokens : List Token}
    (h : Parameters parameters tokens) :
    Accounts tokens (parameters.map Identifier.token) (parameters.map .identifier) := by
  cases h with
  | none => exact .nil
  | some hnames => exact hnames.accounts

theorem Terminator.accounts {inside : Bool} {next : Kind} {tokens : List Token}
    (h : Terminator inside next tokens) : Accounts tokens [] [] := by
  cases h with
  | semicolon hsemicolon => exact .left hsemicolon rfl
  | endOfInput => exact .nil
  | endOfBlock => exact .nil

theorem LooseEnd.accounts {next : Kind} {tokens : List Token} (h : LooseEnd next tokens) :
    Accounts tokens [] [] := by
  cases h with
  | semicolon hsemicolon => exact .left hsemicolon rfl
  | nothing => exact .nil

namespace Phrase

/-- The tokens that the trees of a phrase keep. -/
def retained : Phrase → List Token
  | expr _ tree => tree.retained
  | someArguments trees => Expr.retainedAll trees
  | arguments trees => Expr.retainedAll trees
  | block tree => tree.retained
  | stmt _ _ tree => tree.retained
  | stmts _ _ trees => Stmt.retainedAll trees

/-- The nodes of the trees of a phrase. -/
def nodes : Phrase → List Node
  | expr _ tree => tree.nodes
  | someArguments trees => Expr.nodesAll trees
  | arguments trees => Expr.nodesAll trees
  | block tree => tree.nodes
  | stmt _ _ tree => tree.nodes
  | stmts _ _ trees => Stmt.nodesAll trees

end Phrase

/-- A phrase keeps the tokens that it is derived from but for the punctuation, and its nodes say
what their tokens do. -/
theorem Derives.accounts {phrase : Phrase} {tokens : List Token} {nesting : Nat}
    (h : Derives phrase tokens nesting) : Accounts tokens phrase.retained phrase.nodes := by
  induction h with
  | tighter _ ih => exact ih
  | infixOp _ hop _ left right => exact (left.append (right.keep _)).node ⟨⟨_, hop⟩, rfl⟩
  | prefixOp hop _ right => exact (right.keep _).node ⟨hop, rfl⟩
  | call _ hopening _ hclosing callee arguments =>
    have hlist := arguments.leaveEnd (.left hclosing rfl)
    exact (callee.append (hlist.keep _)).node hopening
  | identifier hname => exact (Accounts.nil.keep _).node ⟨hname, rfl⟩
  | integer hinteger hvalue hle =>
    have hlt := Nat.lt_succ_of_le hle
    exact (Accounts.nil.keep _).node ⟨hinteger, _, hvalue, hle, Int64.toInt_ofNat_of_lt hlt⟩
  | boolean hkind => exact (Accounts.nil.keep _).node ⟨hkind, rfl⟩
  | grouping hopening _ hclosing ih => exact (ih.leaveEnd (.left hclosing rfl)).leave hopening rfl
  | conditional hif hopening _ hclosing _ condition consequence =>
    have hrest := condition.append (consequence.leave hclosing rfl)
    exact ((hrest.leave hopening rfl).keep _).node hif
  | conditionalElse hif hopening _ hclosing _ helse _ condition consequence alternative =>
    have harms := consequence.append (alternative.leave helse rfl)
    have hrest := condition.append (harms.leave hclosing rfl)
    exact ((hrest.leave hopening rfl).keep _).node hif
  | function hfn hopening hparameters hclosing _ body =>
    have hrest := hparameters.accounts.append (body.leave hclosing rfl)
    exact ((hrest.leave hopening rfl).keep _).node hfn
  | oneArgument _ ih =>
    simpa [Phrase.retained, Phrase.nodes, Expr.retainedAll, Expr.nodesAll] using ih
  | moreArguments _ hcomma _ ih last =>
    have hmore := ih.append (last.leave hcomma rfl)
    simpa [Phrase.retained, Phrase.nodes, Expr.retainedAll_eq_flatMap, Expr.nodesAll_eq_flatMap]
      using hmore
  | noArguments => exact .nil
  | arguments _ ih => exact ih
  | block hopening _ hclosing ih =>
    have hbody := ih.leaveEnd (.left hclosing rfl)
    exact (hbody.keep _).node hopening
  | binding hlet hname hassignment _ hend value =>
    have hvalue := (value.leaveEnd hend.accounts).leave hassignment rfl
    exact (((Accounts.name hname).append hvalue).keep _).node hlet
  | returningNothing hreturn hend => exact (hend.accounts.keep _).node hreturn
  | returning hreturn _ hend value =>
    exact ((value.leaveEnd hend.accounts).keep _).node hreturn
  | expression _ hend value => exact (value.leaveEnd hend.accounts).node trivial
  | noStmts => exact .nil
  | moreStmts _ _ first rest => exact first.append rest

/-- A statement starts with its token. -/
theorem Derives.head?_of_stmt {inside : Bool} {next : Kind} {tree : Stmt} {tokens : List Token}
    {nesting : Nat} (h : Derives (.stmt inside next tree) tokens nesting) :
    tokens.head? = some tree.token := by
  cases h <;> rfl

/-- The node that a phrase is the phrase of. -/
def Phrase.node? : Phrase → Option Node
  | expr _ tree => some (.expr tree)
  | block tree => some (.block tree)
  | stmt _ _ tree => some (.stmt tree)
  | someArguments _ | arguments _ | stmts _ _ _ => none

/-- The nodes of a piece. -/
def Piece.nodes : Piece → List Node
  | own _ => []
  | names parameters _ => parameters.map .identifier
  | part phrase _ => phrase.nodes

/-- The nodes of a phrase are its own one and those of its pieces. -/
theorem Composed.cases_of_mem_nodes {phrase : Phrase} {pieces : List Piece} {node : Node}
    (h : Composed phrase pieces) (hmem : node ∈ phrase.nodes) :
    phrase.node? = some node ∨ ∃ piece ∈ pieces, node ∈ piece.nodes := by
  cases h <;>
    simp_all [Phrase.nodes, Phrase.node?, Piece.nodes, Expr.nodes, Stmt.nodes, Block.nodes,
      Expr.nodesAll_eq_flatMap, Stmt.nodesAll, eq_comm]

/-- The node of a part stands there. -/
theorem Part.standsIn {whole phrase : Phrase} {tokens before range : List Token} {node : Node}
    (h : Part whole tokens before phrase range) (hnode : phrase.node? = some node) :
    node.StandsIn whole tokens := by
  obtain ⟨nesting, hderives⟩ := h.derives
  have hretains := hderives.accounts.retains
  cases phrase with
  | expr stratum tree =>
    cases hnode
    exact ⟨before, stratum, range, h, hretains⟩
  | block tree =>
    cases hnode
    exact ⟨before, range, h, hretains⟩
  | stmt inside next tree =>
    cases hnode
    exact ⟨before, inside, next, range, h, hretains, hderives.head?_of_stmt⟩
  | _ => cases hnode

/-- Every node of a phrase in the derivation of a whole stands in the whole. -/
theorem Part.standsIn_of_mem_nodes {whole phrase : Phrase} {tokens before range : List Token}
    {node : Node} (h : Part whole tokens before phrase range) (hmem : node ∈ phrase.nodes) :
    node.StandsIn whole tokens := by
  obtain ⟨nesting, hderives⟩ := h.derives
  refine hderives.induct_composed (P := fun phrase range => ∀ {before : List Token},
    Part whole tokens before phrase range → node ∈ phrase.nodes → node.StandsIn whole tokens)
    (fun {phrase pieces} hcomposed hderived ih before hpart hmem => ?_) h hmem
  rcases hcomposed.cases_of_mem_nodes hmem with hnode | ⟨piece, hpiece, hmem⟩
  · exact hpart.standsIn hnode
  · obtain ⟨first, second, rfl⟩ := List.append_of_mem hpiece
    cases piece with
    | own => contradiction
    | names parameters ids =>
      obtain ⟨id, hid, rfl⟩ := List.mem_map.mp hmem
      have hparameters : Parameters parameters ids := hderived _ hpiece
      have hkept := hparameters.accounts.retains.sublist.subset (List.mem_map_of_mem hid)
      obtain ⟨after, heq⟩ := hpart.exists_eq_append
      simp [Node.StandsIn, heq, Piece.tokens, hkept]
    | part inner range => exact ih inner range hpiece (hpart.inside hcomposed hderived) hmem

/-- What trees keep of their ranges, they keep of all of them together. -/
theorem retained_sublist_flatten {found : List Attempt} {trees : List Stmt}
    (h : List.Forall₂ (fun attempt tree => Retains attempt.extent tree.retained) found trees) :
    (trees.flatMap Stmt.retained).Sublist (found.map Attempt.extent).flatten := by
  induction h with
  | nil => exact .slnil
  | cons hretains _ ih => exact hretains.sublist.append ih

/-- Each statement of a program is derived from the tokens taken for it, which follow each other in
the source and of which the first is the statement's token. It accounts for these tokens, and each
of its nodes for those of the part that it stands at. A statement anywhere in the derivation has the
first token of its part. All the tokens that the statements of the program keep stand one after the
other in the source. -/
theorem accounts_of_source (source : String) (file : Option String) :
    List.Forall₂
        (fun attempt tree => attempt.result = .ok tree ∧
          attempt.tokens <:+: tokenize source file ∧ attempt.tokens.head? = some tree.token ∧
          Accounts attempt.tokens tree.retained tree.nodes ∧
          ∃ next,
            (∀ node ∈ tree.nodes, node.StandsIn (.stmt false next tree) attempt.tokens) ∧
            ∀ before inside follow inner range,
              Part (.stmt false next tree) attempt.tokens before (.stmt inside follow inner) range →
                range.head? = some inner.token)
        ((sourceAttempts source file).filter Attempt.succeeded)
        (parse source file).1.statements ∧
      ((parse source file).1.statements.flatMap Stmt.retained).Sublist (tokenize source file) := by
  have hcontent : ((sourceAttempts source file).map Attempt.extent).flatten =
      (Lexer.ofString source file).content := (tokens_eq_flatten (.ofString source file)).symm
  have hread (attempt : Attempt) (hmem : attempt ∈ sourceAttempts source file) (tree : Stmt)
      (hresult : attempt.result = .ok tree) : attempt.extent = attempt.tokens ∧
        ∃ next nesting, Derives (.stmt false next tree) attempt.tokens nesting := by
    obtain ⟨houtside, hattempt⟩ := outside_of_mem_sourceAttempts hmem
    obtain ⟨⟨nesting, -, hderives⟩, -⟩ := Attempt.derives_of_result hattempt houtside hresult
    refine ⟨?_, _, nesting, hderives⟩
    rw [hattempt] at hresult ⊢
    exact Attempt.extent_of_ok hresult
  constructor
  · refine Attempt.forall₂_program fun attempt hmem tree hresult => ?_
    obtain ⟨hextent, next, nesting, hderives⟩ := hread attempt hmem tree hresult
    have hwithin : attempt.tokens <:+: (Lexer.ofString source file).content := by
      rw [← hcontent, ← hextent]
      exact List.infix_of_mem_flatten (List.mem_map_of_mem hmem)
    refine ⟨hwithin.trans (List.prefix_append _ _).isInfix, hderives.head?_of_stmt,
      hderives.accounts, next, fun node hnode => (Part.whole hderives).standsIn_of_mem_nodes hnode,
      fun before inside follow inner range hpart => ?_⟩
    obtain ⟨inner, hinner⟩ := hpart.derives
    exact hinner.head?_of_stmt
  · have hretains : List.Forall₂ (fun attempt tree => Retains attempt.extent tree.retained)
        ((sourceAttempts source file).filter Attempt.succeeded)
        (parse source file).1.statements := by
      refine (Attempt.forall₂_program fun attempt hmem tree hresult => ?_).imp fun _ _ h => h.2
      obtain ⟨hextent, next, nesting, hderives⟩ := hread attempt hmem tree hresult
      exact hextent ▸ hderives.accounts.retains
    have hranges : (((sourceAttempts source file).filter Attempt.succeeded).map
        Attempt.extent).Sublist _ := List.filter_sublist.map Attempt.extent
    have hsublist := (retained_sublist_flatten hretains).trans hranges.flatten
    rw [hcontent] at hsublist
    exact hsublist.trans (List.sublist_append_left _ _)

/-- A group on its own in a block is a statement whose token is the opening parenthesis, though its
expression keeps only what stands between the parentheses. -/
theorem accounts_of_group :
    let source := "fn() { (a) }"
    ∃ (attempt : Attempt) (next : Kind) (whole inner : Stmt),
      (parse source none).1.statements = [whole] ∧ attempt.result = .ok whole ∧
        attempt.tokens.head? = some whole.token ∧ whole.token.literal = "fn" ∧
        .stmt inner ∈ whole.nodes ∧ inner.token.literal = "(" ∧
        inner.retained.map Token.literal = ["a"] ∧
        Node.StandsIn (.stmt false next whole) attempt.tokens (.stmt inner) := by
  intro source
  let token (kind : Kind) (literal : String) (start stop : Nat) : Token :=
    ⟨kind, literal, ⟨⟨start, "shell"⟩, ⟨stop, "shell"⟩⟩⟩
  let inner : Stmt :=
    .expression (token .openParen "(" 7 8) (.identifier (.ofToken (token .identifier "a" 8 9)))
  let whole : Stmt :=
    .expression (token .kwFn "fn" 0 2)
      (.function (token .kwFn "fn" 0 2) [] ⟨token .openCurly "\x7b" 5 6, [inner]⟩)
  have hstatements : (parse source none).1.statements = [whole] := by decide +kernel
  have hinner : Node.stmt inner ∈ whole.nodes := by
    simp [whole, inner, Stmt.nodes, Expr.nodes, Block.nodes, Stmt.nodesAll]
  obtain ⟨hall, -⟩ := accounts_of_source source none
  rw [hstatements] at hall
  obtain ⟨attempt, _, ⟨hresult, -, hhead, -, next, hstands, -⟩, -⟩ :=
    List.forall₂_cons_right_iff.mp hall
  exact ⟨attempt, next, whole, inner, hstatements, hresult, hhead, rfl, hinner, rfl, rfl,
    hstands _ hinner⟩

/-- Of a group nothing is kept, and of a call the opening parenthesis. -/
example : ((parse "let a = (f(1) + b);" none).1.statements.flatMap Stmt.retained).map
    Token.literal = ["let", "a", "f", "(", "1", "+", "b"] := by
  decide +kernel

end LetScript
