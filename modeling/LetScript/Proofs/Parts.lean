import LetScript.Proofs.Derivation

/-!
# The parts of a phrase

A rule of the grammar puts a phrase together from pieces, one after the other: tokens of its own,
names, and smaller phrases. A derivation is a tree of such rules, so every phrase in it has a place
among the tokens of the whole. It begins where the pieces before it end, and all of these pieces are
derived as well, up to the whole. This ties the place of a phrase to how the tokens are read; that
some tokens of the source could be read as the phrase would not.
-/

namespace LetScript

/-- What a rule of the grammar puts together. -/
inductive Piece where
  | own (tokens : List Token)
  | names (parameters : List Identifier) (tokens : List Token)
  | part (phrase : Phrase) (tokens : List Token)

namespace Piece

def tokens : Piece → List Token
  | own tokens => tokens
  | names _ tokens => tokens
  | part _ tokens => tokens

/-- The names are parameters, and a phrase has the property. -/
def Holds (P : Phrase → List Token → Prop) : Piece → Prop
  | own _ => True
  | names parameters tokens => Parameters parameters tokens
  | part phrase tokens => P phrase tokens

theorem Holds.imp {P Q : Phrase → List Token → Prop}
    (himp : ∀ phrase tokens, P phrase tokens → Q phrase tokens) {piece : Piece}
    (h : piece.Holds P) : piece.Holds Q := by
  cases piece with
  | part => exact himp _ _ h
  | _ => exact h

/-- Names and phrases are derived from their tokens. -/
def Derived : Piece → Prop := Holds fun phrase tokens => ∃ nesting, Derives phrase tokens nesting

end Piece

/-- The pieces that a phrase is put together from, for each rule of the grammar. -/
inductive Composed : Phrase → List Piece → Prop where
  | tighter {stratum : Stratum} {tree : Expr} {tokens : List Token} :
      Composed (.expr stratum tree) [.part (.expr stratum.tighter tree) tokens]
  | infixOp {stratum : Stratum} {left right : Expr} {op : Token} {first second : List Token} :
      op.kind ∈ stratum.operators →
        Composed (.expr stratum (.infixOp op left op.literal right))
          [.part (.expr stratum left) first, .own [op],
            .part (.expr stratum.tighter right) second]
  | prefixOp {right : Expr} {op : Token} {tokens : List Token} :
      op.kind = .dash ∨ op.kind = .not →
        Composed (.expr .unary (.prefixOp op op.literal right))
          [.own [op], .part (.expr .unary right) tokens]
  | call {callee : Expr} {trees : List Expr} {opening closing : Token}
      {first second : List Token} :
      opening.kind = .openParen → closing.kind = .closeParen →
        Composed (.expr .call (.call opening callee trees))
          [.part (.expr .call callee) first, .own [opening], .part (.arguments trees) second,
            .own [closing]]
  | identifier {token : Token} : token.kind = .identifier →
      Composed (.expr .primary (.identifier (.ofToken token))) [.own [token]]
  | integer {token : Token} {value : Nat} : token.kind = .integer →
      Decimal.value? token.literal.toList = some value → value ≤ maxInteger →
        Composed (.expr .primary (.integer token (.ofNat value))) [.own [token]]
  | boolean {token : Token} : token.kind = .kwTrue ∨ token.kind = .kwFalse →
      Composed (.expr .primary (.boolean token (token.kind = .kwTrue))) [.own [token]]
  | grouping {tree : Expr} {opening closing : Token} {tokens : List Token} :
      opening.kind = .openParen → closing.kind = .closeParen →
        Composed (.expr .primary tree)
          [.own [opening], .part (.expr .equality tree) tokens, .own [closing]]
  | conditional {condition : Expr} {consequence : Block} {kw opening closing : Token}
      {first second : List Token} :
      kw.kind = .kwIf → opening.kind = .openParen → closing.kind = .closeParen →
        Composed (.expr .primary (.conditional kw condition consequence none))
          [.own [kw, opening], .part (.expr .equality condition) first, .own [closing],
            .part (.block consequence) second]
  | conditionalElse {condition : Expr} {consequence alternative : Block}
      {kw opening closing kwElse : Token} {first second third : List Token} :
      kw.kind = .kwIf → opening.kind = .openParen → closing.kind = .closeParen →
        kwElse.kind = .kwElse →
          Composed (.expr .primary (.conditional kw condition consequence (some alternative)))
            [.own [kw, opening], .part (.expr .equality condition) first, .own [closing],
              .part (.block consequence) second, .own [kwElse], .part (.block alternative) third]
  | function {parameters : List Identifier} {body : Block} {kw opening closing : Token}
      {first second : List Token} :
      kw.kind = .kwFn → opening.kind = .openParen → closing.kind = .closeParen →
        Composed (.expr .primary (.function kw parameters body))
          [.own [kw, opening], .names parameters first, .own [closing],
            .part (.block body) second]
  | oneArgument {tree : Expr} {tokens : List Token} :
      Composed (.someArguments [tree]) [.part (.expr .equality tree) tokens]
  | moreArguments {trees : List Expr} {tree : Expr} {comma : Token} {first second : List Token} :
      comma.kind = .comma →
        Composed (.someArguments (trees ++ [tree]))
          [.part (.someArguments trees) first, .own [comma], .part (.expr .equality tree) second]
  | noArguments : Composed (.arguments []) []
  | arguments {trees : List Expr} {tokens : List Token} :
      Composed (.arguments trees) [.part (.someArguments trees) tokens]
  | block {trees : List Stmt} {opening closing : Token} {tokens : List Token} :
      opening.kind = .openCurly → closing.kind = .closeCurly →
        Composed (.block ⟨opening, trees⟩)
          [.own [opening], .part (.stmts true .closeCurly trees) tokens, .own [closing]]
  | binding {inside : Bool} {next : Kind} {value : Expr} {kw name assignment : Token}
      {first second : List Token} :
      kw.kind = .kwLet → assignment.kind = .assignment → Terminator inside next second →
        Composed (.stmt inside next (.binding kw (.ofToken name) value))
          [.own [kw], .names [.ofToken name] [name], .own [assignment],
            .part (.expr .equality value) first, .own second]
  | returningNothing {inside : Bool} {next : Kind} {kw : Token} {tokens : List Token} :
      kw.kind = .kwReturn → Terminator inside next tokens →
        Composed (.stmt inside next (.returning kw none)) [.own [kw], .own tokens]
  | returning {inside : Bool} {next : Kind} {value : Expr} {kw : Token}
      {first second : List Token} :
      kw.kind = .kwReturn → Terminator inside next second →
        Composed (.stmt inside next (.returning kw (some value)))
          [.own [kw], .part (.expr .equality value) first, .own second]
  | expression {inside : Bool} {next : Kind} {value : Expr} {token : Token}
      {first second : List Token} :
      LooseEnd next second →
        Composed (.stmt inside next (.expression token value))
          [.part (.expr .equality value) (token :: first), .own second]
  | noStmts {inside : Bool} {next : Kind} : Composed (.stmts inside next []) []
  | moreStmts {inside : Bool} {next : Kind} {tree : Stmt} {trees : List Stmt}
      {first second : List Token} :
      Composed (.stmts inside next (tree :: trees))
        [.part (.stmt inside (firstKind second next) tree) first,
          .part (.stmts inside next trees) second]

/-- What is kept by putting derived pieces together holds of every phrase that is derived. -/
theorem Derives.induct_composed {P : Phrase → List Token → Prop}
    (step : ∀ {phrase : Phrase} {pieces : List Piece}, Composed phrase pieces →
      (∀ piece ∈ pieces, piece.Derived) →
        (∀ part range, .part part range ∈ pieces → P part range) →
          P phrase (pieces.flatMap Piece.tokens))
    {phrase : Phrase} {tokens : List Token} {nesting : Nat} (h : Derives phrase tokens nesting) :
    P phrase tokens := by
  have hput {phrase : Phrase} {pieces : List Piece} {tokens : List Token}
      (hcomposed : Composed phrase pieces)
      (hpieces : pieces.Forall
        (Piece.Holds fun part range => (∃ n, Derives part range n) ∧ P part range))
      (htokens : pieces.flatMap Piece.tokens = tokens) : P phrase tokens := by
    rw [List.forall_iff_forall_mem] at hpieces
    exact htokens ▸ step hcomposed (fun piece hmem => (hpieces piece hmem).imp fun _ _ => And.left)
      fun part range hmem => (hpieces _ hmem).2
  induction h with
  | tighter htree ih => exact hput .tighter ⟨⟨_, htree⟩, ih⟩ (by simp [Piece.tokens])
  | infixOp hleft hop hright ihleft ihright =>
    exact hput (.infixOp hop) ⟨⟨⟨_, hleft⟩, ihleft⟩, trivial, ⟨_, hright⟩, ihright⟩
      (by simp [Piece.tokens])
  | prefixOp hop hright ih =>
    exact hput (.prefixOp hop) ⟨trivial, ⟨_, hright⟩, ih⟩ (by simp [Piece.tokens])
  | call hcallee hopening harguments hclosing ihcallee ih =>
    exact hput (.call hopening hclosing)
      ⟨⟨⟨_, hcallee⟩, ihcallee⟩, trivial, ⟨⟨_, harguments⟩, ih⟩, trivial⟩ (by simp [Piece.tokens])
  | identifier hkind => exact hput (.identifier hkind) trivial rfl
  | integer hkind hvalue hle => exact hput (.integer hkind hvalue hle) trivial rfl
  | boolean hkind => exact hput (.boolean hkind) trivial rfl
  | grouping hopening htree hclosing ih =>
    exact hput (.grouping hopening hclosing) ⟨trivial, ⟨⟨_, htree⟩, ih⟩, trivial⟩
      (by simp [Piece.tokens])
  | conditional hkw hopening hcondition hclosing hblock ihcondition ih =>
    exact hput (.conditional hkw hopening hclosing)
      ⟨trivial, ⟨⟨_, hcondition⟩, ihcondition⟩, trivial, ⟨_, hblock⟩, ih⟩ (by simp [Piece.tokens])
  | conditionalElse hkw hopening hcondition hclosing hfirst helse hsecond ihcondition ihfirst
      ihsecond =>
    exact hput (.conditionalElse hkw hopening hclosing helse)
      ⟨trivial, ⟨⟨_, hcondition⟩, ihcondition⟩, trivial, ⟨⟨_, hfirst⟩, ihfirst⟩, trivial,
        ⟨_, hsecond⟩, ihsecond⟩
      (by simp [Piece.tokens])
  | function hkw hopening hparameters hclosing hbody ih =>
    exact hput (.function hkw hopening hclosing)
      ⟨trivial, hparameters, trivial, ⟨_, hbody⟩, ih⟩ (by simp [Piece.tokens])
  | oneArgument htree ih => exact hput .oneArgument ⟨⟨_, htree⟩, ih⟩ (by simp [Piece.tokens])
  | moreArguments htrees hcomma htree ihtrees ih =>
    exact hput (.moreArguments hcomma) ⟨⟨⟨_, htrees⟩, ihtrees⟩, trivial, ⟨_, htree⟩, ih⟩
      (by simp [Piece.tokens])
  | noArguments => exact hput .noArguments trivial rfl
  | arguments htrees ih => exact hput .arguments ⟨⟨_, htrees⟩, ih⟩ (by simp [Piece.tokens])
  | block hopening htrees hclosing ih =>
    exact hput (.block hopening hclosing) ⟨trivial, ⟨⟨_, htrees⟩, ih⟩, trivial⟩
      (by simp [Piece.tokens])
  | binding hkw hname hassignment hvalue hend ih =>
    exact hput (.binding hkw hassignment hend)
      ⟨trivial, .some (.one hname), trivial, ⟨⟨_, hvalue⟩, ih⟩, trivial⟩ (by simp [Piece.tokens])
  | returningNothing hkw hend =>
    exact hput (.returningNothing hkw hend) ⟨trivial, trivial⟩ (by simp [Piece.tokens])
  | returning hkw hvalue hend ih =>
    exact hput (.returning hkw hend) ⟨trivial, ⟨⟨_, hvalue⟩, ih⟩, trivial⟩ (by simp [Piece.tokens])
  | expression hvalue hend ih =>
    exact hput (.expression hend) ⟨⟨⟨_, hvalue⟩, ih⟩, trivial⟩ (by simp [Piece.tokens])
  | noStmts => exact hput .noStmts trivial rfl
  | moreStmts htree htrees ihtree ihtrees =>
    exact hput .moreStmts ⟨⟨⟨_, htree⟩, ihtree⟩, ⟨_, htrees⟩, ihtrees⟩ (by simp [Piece.tokens])

/-- A phrase in the derivation of a whole, with the tokens before it and its own ones. The pieces
beside those on the way to it are derived too. -/
inductive Part (whole : Phrase) (tokens : List Token) :
    List Token → Phrase → List Token → Prop where
  | whole {nesting : Nat} : Derives whole tokens nesting → Part whole tokens [] whole tokens
  | inside {before range : List Token} {phrase inner : Phrase} {first second : List Piece} :
      Part whole tokens before phrase
          ((first ++ .part inner range :: second).flatMap Piece.tokens) →
        Composed phrase (first ++ .part inner range :: second) →
          (∀ piece ∈ first ++ .part inner range :: second, piece.Derived) →
            Part whole tokens (before ++ first.flatMap Piece.tokens) inner range

namespace Part

variable {whole phrase : Phrase} {tokens before range : List Token}

theorem derives (h : Part whole tokens before phrase range) :
    ∃ nesting, Derives phrase range nesting := by
  cases h with
  | whole hwhole => exact ⟨_, hwhole⟩
  | inside _ _ hderived => exact hderived (.part _ _) (by simp)

/-- A part has its place among the tokens of the whole. -/
theorem exists_eq_append (h : Part whole tokens before phrase range) :
    ∃ after, tokens = before ++ (range ++ after) := by
  induction h with
  | whole => exact ⟨[], by simp⟩
  | @inside before range phrase inner first second _ _ _ ih =>
    obtain ⟨after, heq⟩ := ih
    exact ⟨second.flatMap Piece.tokens ++ after, by simp [heq, Piece.tokens]⟩

end Part

end LetScript
