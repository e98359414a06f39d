import LetScript.Proofs.Derivation
import Mathlib.Computability.Language

/-!
# Exchanging what stands in a block

What stands between the braces of a block is a list of statements, whatever the block is part of,
and any other list of statements may stand there instead: the whole is derived as before, though
its tree and the number of its frames change. Where a phrase is put together from several parts, a
block stands in one of them, since the braces of each part are balanced.
-/

namespace LetScript

/-- The tokens that are derived as a phrase of the same sort, with whatever tree. -/
def Phrase.language : Phrase → Language Token
  | .expr stratum _ => fun tokens => ∃ tree nesting, Derives (.expr stratum tree) tokens nesting
  | .someArguments _ => fun tokens => ∃ trees nesting, Derives (.someArguments trees) tokens nesting
  | .arguments _ => fun tokens => ∃ trees nesting, Derives (.arguments trees) tokens nesting
  | .block _ => fun tokens => ∃ tree nesting, Derives (.block tree) tokens nesting
  | .stmt inside next _ => fun tokens =>
      ∃ tree nesting, Derives (.stmt inside next tree) tokens nesting
  | .stmts inside next _ => fun tokens =>
      ∃ trees nesting, Derives (.stmts inside next trees) tokens nesting

/-- Tokens of a language of which each block may be exchanged: what stands in it is a list of
statements, and with another list of statements there the tokens are of the language still. -/
structure Exchangeable (language : Language Token) (tokens : List Token) : Prop where
  mem : tokens ∈ language
  balanced : Balanced tokens
  derives {before inside after : List Token} : Encloses tokens before inside after →
    ∃ trees nesting, Derives (.stmts true .closeCurly trees) inside nesting
  exchange {before inside after inside' : List Token} {trees : List Stmt} {nesting : Nat} :
    Encloses tokens before inside after → Derives (.stmts true .closeCurly trees) inside' nesting →
      before ++ inside' ++ after ∈ language

theorem Names.kind_ne_openCurly {parameters : List Identifier} {tokens : List Token}
    (h : Names parameters tokens) : ∀ token ∈ tokens, token.kind ≠ .openCurly := by
  induction h with
  | one hname => simp [hname]
  | more _ hcomma hname ih =>
    intro token hmem
    rcases List.mem_append.mp hmem with hmem | hmem
    · exact ih token hmem
    · rcases List.mem_pair.mp hmem with rfl | rfl
      · simp [hcomma]
      · simp [hname]

theorem Parameters.kind_ne_openCurly {parameters : List Identifier} {tokens : List Token}
    (h : Parameters parameters tokens) : ∀ token ∈ tokens, token.kind ≠ .openCurly := by
  cases h with
  | none => simp
  | some hnames => exact hnames.kind_ne_openCurly

theorem Terminator.kind_ne_openCurly {inside : Bool} {next : Kind} {tokens : List Token}
    (h : Terminator inside next tokens) : ∀ token ∈ tokens, token.kind ≠ .openCurly := by
  cases h with
  | semicolon hkind => simp [hkind]
  | endOfInput _ => simp
  | endOfBlock _ _ => simp

theorem LooseEnd.kind_ne_openCurly {next : Kind} {tokens : List Token} (h : LooseEnd next tokens) :
    ∀ token ∈ tokens, token.kind ≠ .openCurly := by
  cases h with
  | semicolon hkind => simp [hkind]
  | nothing _ => simp

namespace Exchangeable

variable {language larger : Language Token} {first second tokens : List Token} {token : Token}

theorem mono (h : Exchangeable language tokens) (hsub : ∀ other ∈ language, other ∈ larger) :
    Exchangeable larger tokens :=
  ⟨hsub _ h.mem, h.balanced, h.derives, fun hblock hderives => hsub _ (h.exchange hblock hderives)⟩

/-- Where there is no opening brace there is no block. -/
theorem flat (hopen : ∀ token ∈ tokens, token.kind ≠ .openCurly) (hbalanced : Balanced tokens) :
    Exchangeable {tokens} tokens :=
  ⟨rfl, hbalanced, fun hblock => absurd hblock (Encloses.not_of_forall_ne hopen),
    fun hblock => absurd hblock (Encloses.not_of_forall_ne hopen)⟩

/-- A plain token has no block. -/
theorem single {kind : Kind} (hkind : token.kind = kind) (hplain : kind.Plain) :
    Exchangeable {[token]} [token] := by
  subst hkind
  obtain ⟨-, -, hopen, hclose, -⟩ := hplain
  exact flat (by simp [hopen]) (.single hopen hclose)

/-- A block of one of two parts is exchanged there. -/
theorem append (hfirst : Exchangeable language first) (hsecond : Exchangeable larger second) :
    Exchangeable (language * larger) (first ++ second) := by
  refine ⟨Language.append_mem_mul hfirst.mem hsecond.mem, hfirst.balanced.append hsecond.balanced,
    fun hblock => ?_, fun {before inside after inside' trees nesting} hblock hderives => ?_⟩
  · rcases hblock.of_append hfirst.balanced with ⟨_, hblock, -⟩ | ⟨_, hblock, -⟩
    · exact hfirst.derives hblock
    · exact hsecond.derives hblock
  · rcases hblock.of_append hfirst.balanced with ⟨after, hleft, rfl⟩ | ⟨before, hright, rfl⟩
    · rw [← List.append_assoc]
      exact Language.append_mem_mul (hfirst.exchange hleft hderives) hsecond.mem
    · simpa using Language.append_mem_mul hfirst.mem (hsecond.exchange hright hderives)

theorem cons {kind : Kind} (hrest : Exchangeable language tokens) (hkind : token.kind = kind)
    (hplain : kind.Plain) : Exchangeable ({[token]} * language) (token :: tokens) :=
  (single hkind hplain).append hrest

/-- What stands in a block does not tell how the tokens start. -/
theorem sameHead (h : Exchangeable language tokens) :
    Exchangeable (fun other => other ∈ language ∧ other.head? = tokens.head?) tokens := by
  refine ⟨⟨h.mem, rfl⟩, h.balanced, h.derives, fun hblock hderives =>
    ⟨h.exchange hblock hderives, ?_⟩⟩
  obtain ⟨token, before, rfl⟩ := List.exists_cons_of_ne_nil hblock.before_ne_nil
  rw [hblock.tokens_eq]
  rfl

/-- Between the braces of a block all is exchanged, or what stands in a block there. -/
theorem braced {opening closing : Token} {trees : List Stmt} {nesting : Nat}
    (hopening : opening.kind = .openCurly) (hclosing : closing.kind = .closeCurly)
    (htrees : Derives (.stmts true .closeCurly trees) tokens nesting)
    (h : Exchangeable (Phrase.stmts true .closeCurly trees).language tokens) :
    Exchangeable (Phrase.block ⟨opening, trees⟩).language (opening :: (tokens ++ [closing])) := by
  have hbraced {other : List Token}
      (hmem : other ∈ (Phrase.stmts true .closeCurly trees).language) :
      opening :: (other ++ [closing]) ∈ (Phrase.block ⟨opening, trees⟩).language := by
    obtain ⟨trees, n, htrees⟩ := hmem
    exact ⟨_, _, .block hopening htrees hclosing⟩
  refine ⟨hbraced h.mem, (htrees.block hopening hclosing).balanced, fun hblock => ?_,
    fun {before inside after inside' trees nesting} hblock hderives => ?_⟩
  · rcases hblock.of_braced hclosing h.balanced with ⟨-, rfl, -⟩ | ⟨_, _, hinner, -, -⟩
    · exact ⟨_, _, htrees⟩
    · exact h.derives hinner
  · rcases hblock.of_braced hclosing h.balanced with ⟨rfl, -, rfl⟩ | ⟨_, _, hinner, rfl, rfl⟩
    · exact hbraced ⟨_, _, hderives⟩
    · simpa using hbraced (h.exchange hinner hderives)

end Exchangeable

theorem Terminator.exchangeable {inside : Bool} {next : Kind} {tokens : List Token}
    (h : Terminator inside next tokens) : Exchangeable {tokens} tokens :=
  .flat h.kind_ne_openCurly h.sentence.contents.balanced

theorem LooseEnd.exchangeable {next : Kind} {tokens : List Token} (h : LooseEnd next tokens) :
    Exchangeable {tokens} tokens :=
  .flat h.kind_ne_openCurly h.sentence.contents.balanced

theorem Parameters.exchangeable {parameters : List Identifier} {tokens : List Token}
    (h : Parameters parameters tokens) : Exchangeable {tokens} tokens :=
  .flat h.kind_ne_openCurly h.clause.balanced

namespace Exchangeable

section Expressions

variable {stratum : Stratum} {left right condition tree : Expr} {consequence alternative : Block}
  {trees : List Expr} {token op kw opening closing comma kwElse : Token}
  {tokens first second third : List Token}

theorem tighter (h : Exchangeable (Phrase.expr stratum.tighter tree).language tokens) :
    Exchangeable (Phrase.expr stratum tree).language tokens := by
  refine h.mono ?_
  rintro tokens ⟨tree, n, htree⟩
  exact ⟨_, _, htree.tighter⟩

theorem infixOp (hleft : Exchangeable (Phrase.expr stratum left).language first)
    (hop : op.kind ∈ stratum.operators)
    (hright : Exchangeable (Phrase.expr stratum.tighter right).language second) :
    Exchangeable (Phrase.expr stratum (.infixOp op left op.literal right)).language
      (first ++ op :: second) := by
  refine (hleft.append (hright.cons rfl (Kind.plain_of_mem_operators hop).1)).mono ?_
  rintro _ ⟨first, ⟨left, m, hleft⟩, _, ⟨_, rfl, second, ⟨right, n, hright⟩, rfl⟩, rfl⟩
  exact ⟨_, _, .infixOp hleft hop hright⟩

theorem prefixOp (hop : op.kind = .dash ∨ op.kind = .not)
    (hright : Exchangeable (Phrase.expr .unary right).language tokens) :
    Exchangeable (Phrase.expr .unary (.prefixOp op op.literal right)).language (op :: tokens) := by
  refine (hright.cons rfl (by rcases hop with hop | hop <;> simp [hop])).mono ?_
  rintro _ ⟨_, rfl, tokens, ⟨right, n, hright⟩, rfl⟩
  exact ⟨_, _, .prefixOp hop hright⟩

theorem call (hcallee : Exchangeable (Phrase.expr .call left).language first)
    (hopening : opening.kind = .openParen)
    (harguments : Exchangeable (Phrase.arguments trees).language second)
    (hclosing : closing.kind = .closeParen) :
    Exchangeable (Phrase.expr .call (.call opening left trees)).language
      (first ++ opening :: (second ++ [closing])) := by
  have hlist := harguments.append (.single hclosing (by simp))
  refine (hcallee.append (hlist.cons hopening (by simp))).mono ?_
  rintro _ ⟨first, ⟨callee, m, hcallee⟩, _, ⟨_, rfl, _, ⟨second, ⟨trees, n, harguments⟩, _, rfl,
    rfl⟩, rfl⟩, rfl⟩
  exact ⟨_, _, .call hcallee hopening harguments hclosing⟩

/-- A plain token that is an expression by itself. -/
theorem leaf {kind : Kind} (hkind : token.kind = kind) (hplain : kind.Plain)
    (h : Derives (.expr stratum tree) [token] 0) :
    Exchangeable (Phrase.expr stratum tree).language [token] := by
  refine (single hkind hplain).mono ?_
  rintro _ rfl
  exact ⟨_, _, h⟩

theorem grouping (hopening : opening.kind = .openParen)
    (htree : Exchangeable (Phrase.expr .equality tree).language tokens)
    (hclosing : closing.kind = .closeParen) :
    Exchangeable (Phrase.expr .primary tree).language (opening :: (tokens ++ [closing])) := by
  refine ((htree.append (.single hclosing (by simp))).cons hopening (by simp)).mono ?_
  rintro _ ⟨_, rfl, _, ⟨tokens, ⟨tree, n, htree⟩, _, rfl, rfl⟩, rfl⟩
  exact ⟨_, _, .grouping hopening htree hclosing⟩

theorem conditional (hkw : kw.kind = .kwIf) (hopening : opening.kind = .openParen)
    (hcondition : Exchangeable (Phrase.expr .equality condition).language first)
    (hclosing : closing.kind = .closeParen)
    (hconsequence : Exchangeable (Phrase.block consequence).language second) :
    Exchangeable (Phrase.expr .primary (.conditional kw condition consequence none)).language
      (kw :: opening :: (first ++ closing :: second)) := by
  have hrest := hcondition.append (hconsequence.cons hclosing (by simp))
  refine ((hrest.cons hopening (by simp)).cons hkw (by simp)).mono ?_
  rintro _ ⟨_, rfl, _, ⟨_, rfl, _, ⟨first, ⟨condition, m, hcondition⟩, _, ⟨_, rfl, second,
    ⟨consequence, n, hconsequence⟩, rfl⟩, rfl⟩, rfl⟩, rfl⟩
  exact ⟨_, _, .conditional hkw hopening hcondition hclosing hconsequence⟩

theorem conditionalElse (hkw : kw.kind = .kwIf) (hopening : opening.kind = .openParen)
    (hcondition : Exchangeable (Phrase.expr .equality condition).language first)
    (hclosing : closing.kind = .closeParen)
    (hconsequence : Exchangeable (Phrase.block consequence).language second)
    (helse : kwElse.kind = .kwElse)
    (halternative : Exchangeable (Phrase.block alternative).language third) :
    Exchangeable
      (Phrase.expr .primary (.conditional kw condition consequence (some alternative))).language
      (kw :: opening :: (first ++ closing :: (second ++ kwElse :: third))) := by
  have harms := hconsequence.append (halternative.cons helse (by simp))
  have hrest := hcondition.append (harms.cons hclosing (by simp))
  refine ((hrest.cons hopening (by simp)).cons hkw (by simp)).mono ?_
  rintro _ ⟨_, rfl, _, ⟨_, rfl, _, ⟨first, ⟨condition, m, hcondition⟩, _, ⟨_, rfl, _, ⟨second,
    ⟨consequence, n, hconsequence⟩, _, ⟨_, rfl, third, ⟨alternative, k, halternative⟩, rfl⟩,
    rfl⟩, rfl⟩, rfl⟩, rfl⟩, rfl⟩
  exact ⟨_, _, .conditionalElse hkw hopening hcondition hclosing hconsequence helse halternative⟩

theorem function {parameters : List Identifier} (hkw : kw.kind = .kwFn)
    (hopening : opening.kind = .openParen) (hparameters : Parameters parameters first)
    (hclosing : closing.kind = .closeParen)
    (hbody : Exchangeable (Phrase.block consequence).language second) :
    Exchangeable (Phrase.expr .primary (.function kw parameters consequence)).language
      (kw :: opening :: (first ++ closing :: second)) := by
  have hrest := hparameters.exchangeable.append (hbody.cons hclosing (by simp))
  refine ((hrest.cons hopening (by simp)).cons hkw (by simp)).mono ?_
  rintro _ ⟨_, rfl, _, ⟨_, rfl, _, ⟨_, rfl, _, ⟨_, rfl, second, ⟨body, n, hbody⟩, rfl⟩, rfl⟩,
    rfl⟩, rfl⟩
  exact ⟨_, _, .function hkw hopening hparameters hclosing hbody⟩

theorem oneArgument (h : Exchangeable (Phrase.expr .equality tree).language tokens) :
    Exchangeable (Phrase.someArguments [tree]).language tokens := by
  refine h.mono ?_
  rintro tokens ⟨tree, n, htree⟩
  exact ⟨_, _, htree.oneArgument⟩

theorem moreArguments (htrees : Exchangeable (Phrase.someArguments trees).language first)
    (hcomma : comma.kind = .comma)
    (htree : Exchangeable (Phrase.expr .equality tree).language second) :
    Exchangeable (Phrase.someArguments (trees ++ [tree])).language (first ++ comma :: second) := by
  refine (htrees.append (htree.cons hcomma (by simp))).mono ?_
  rintro _ ⟨first, ⟨trees, m, htrees⟩, _, ⟨_, rfl, second, ⟨tree, n, htree⟩, rfl⟩, rfl⟩
  exact ⟨_, _, .moreArguments htrees hcomma htree⟩

theorem noArguments : Exchangeable (Phrase.arguments []).language [] := by
  refine (Exchangeable.flat (List.forall_mem_nil _) .nil).mono ?_
  rintro _ rfl
  exact ⟨_, _, .noArguments⟩

theorem arguments (h : Exchangeable (Phrase.someArguments trees).language tokens) :
    Exchangeable (Phrase.arguments trees).language tokens := by
  refine h.mono ?_
  rintro tokens ⟨trees, n, htrees⟩
  exact ⟨_, _, htrees.arguments⟩

end Expressions

section Statements

variable {inside : Bool} {next : Kind} {value : Expr} {tree : Stmt} {trees : List Stmt}
  {token kw name assignment : Token} {tokens first second : List Token}

theorem binding (hkw : kw.kind = .kwLet) (hname : name.kind = .identifier)
    (hassignment : assignment.kind = .assignment)
    (hvalue : Exchangeable (Phrase.expr .equality value).language first)
    (hend : Terminator inside next second) :
    Exchangeable (Phrase.stmt inside next (.binding kw (.ofToken name) value)).language
      (kw :: name :: assignment :: (first ++ second)) := by
  have hrest := (hvalue.append hend.exchangeable).cons hassignment (by simp)
  refine ((hrest.cons hname (by simp)).cons hkw (by simp)).mono ?_
  rintro _ ⟨_, rfl, _, ⟨_, rfl, _, ⟨_, rfl, _, ⟨first, ⟨value, n, hvalue⟩, _, rfl, rfl⟩, rfl⟩,
    rfl⟩, rfl⟩
  have hwhole := Derives.binding hkw hname hassignment hvalue hend
  exact ⟨_, _, hwhole⟩

theorem returningNothing (hkw : kw.kind = .kwReturn) (hend : Terminator inside next tokens) :
    Exchangeable (Phrase.stmt inside next (.returning kw none)).language (kw :: tokens) := by
  refine (hend.exchangeable.cons hkw (by simp)).mono ?_
  rintro _ ⟨_, rfl, _, rfl, rfl⟩
  exact ⟨_, _, .returningNothing hkw hend⟩

theorem returning (hkw : kw.kind = .kwReturn)
    (hvalue : Exchangeable (Phrase.expr .equality value).language first)
    (hend : Terminator inside next second) :
    Exchangeable (Phrase.stmt inside next (.returning kw (some value))).language
      (kw :: (first ++ second)) := by
  refine ((hvalue.append hend.exchangeable).cons hkw (by simp)).mono ?_
  rintro _ ⟨_, rfl, _, ⟨first, ⟨value, n, hvalue⟩, _, rfl, rfl⟩, rfl⟩
  have hwhole := Derives.returning hkw hvalue hend
  exact ⟨_, _, hwhole⟩

/-- The first token, which the statement records, stands before all blocks. -/
theorem expression
    (hvalue : Exchangeable (Phrase.expr .equality value).language (token :: first))
    (hend : LooseEnd next second) :
    Exchangeable (Phrase.stmt inside next (.expression token value)).language
      (token :: (first ++ second)) := by
  refine (hvalue.sameHead.append hend.exchangeable).mono ?_
  rintro _ ⟨first, ⟨⟨value, n, hvalue⟩, hhead⟩, _, rfl, rfl⟩
  obtain ⟨first, rfl⟩ := List.head?_eq_some_iff.mp hhead
  exact ⟨_, _, .expression hvalue hend⟩

theorem noStmts : Exchangeable (Phrase.stmts inside next []).language [] := by
  refine (Exchangeable.flat (List.forall_mem_nil _) .nil).mono ?_
  rintro _ rfl
  exact ⟨_, _, .noStmts⟩

theorem moreStmts
    (htree : Exchangeable (Phrase.stmt inside (firstKind second next) tree).language first)
    (htrees : Exchangeable (Phrase.stmts inside next trees).language second) :
    Exchangeable (Phrase.stmts inside next (tree :: trees)).language (first ++ second) := by
  refine (htree.append htrees.sameHead).mono ?_
  rintro _ ⟨first, ⟨tree, m, htree⟩, second, ⟨⟨trees, n, htrees⟩, hhead⟩, rfl⟩
  rw [firstKind, ← hhead] at htree
  exact ⟨_, _, .moreStmts htree htrees⟩

end Statements

end Exchangeable

/-- What stands in a block of a phrase may be exchanged. -/
theorem Derives.exchangeable {phrase : Phrase} {tokens : List Token} {nesting : Nat}
    (h : Derives phrase tokens nesting) : Exchangeable phrase.language tokens := by
  induction h with
  | tighter _ ih => exact ih.tighter
  | infixOp _ hop _ left right => exact left.infixOp hop right
  | prefixOp hop _ right => exact .prefixOp hop right
  | call _ hopening _ hclosing callee arguments => exact callee.call hopening arguments hclosing
  | identifier hkind => exact .leaf hkind (by simp) (.identifier hkind)
  | integer hkind hvalue hle => exact .leaf hkind (by simp) (.integer hkind hvalue hle)
  | boolean hkind =>
    exact .leaf rfl (by rcases hkind with hkind | hkind <;> simp [hkind]) (.boolean hkind)
  | grouping hopening _ hclosing ih => exact .grouping hopening ih hclosing
  | conditional hkw hopening _ hclosing _ condition consequence =>
    exact .conditional hkw hopening condition hclosing consequence
  | conditionalElse hkw hopening _ hclosing _ helse _ condition consequence alternative =>
    exact .conditionalElse hkw hopening condition hclosing consequence helse alternative
  | function hkw hopening hparameters hclosing _ body =>
    exact .function hkw hopening hparameters hclosing body
  | oneArgument _ ih => exact ih.oneArgument
  | moreArguments _ hcomma _ ih last => exact ih.moreArguments hcomma last
  | noArguments => exact .noArguments
  | arguments _ ih => exact ih.arguments
  | block hopening htrees hclosing ih => exact .braced hopening hclosing htrees ih
  | binding hkw hname hassignment _ hend value => exact .binding hkw hname hassignment value hend
  | returningNothing hkw hend => exact .returningNothing hkw hend
  | returning hkw _ hend value => exact .returning hkw value hend
  | expression _ hend value => exact .expression value hend
  | noStmts => exact .noStmts
  | moreStmts _ _ tree trees => exact tree.moreStmts trees

end LetScript
