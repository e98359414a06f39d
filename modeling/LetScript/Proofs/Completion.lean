import LetScript.Proofs.Spelling
import LetScript.Proofs.Transport

/-!
# Completing what was begun

A missing operand is filled in by a name, a missing block by an empty one, and what was opened is
closed. To say so without the trees and the frames of the phrases, only the tokens are looked at
here: those of which some expression, block or statement is derived.

Statements of a block that were read stay statements of it whatever they are completed to, except
that the last one may then come before the closing brace.
-/

namespace LetScript

/-- The tokens may be those of an expression of the stratum. -/
def IsExpr (stratum : Stratum) (tokens : List Token) : Prop :=
  ∃ tree nesting, Derives (.expr stratum tree) tokens nesting

/-- The tokens may be those of a block. -/
def IsBlock (tokens : List Token) : Prop := ∃ tree nesting, Derives (.block tree) tokens nesting

/-- The tokens may be those of a statement, in a block or not, before a token of the kind `next`. -/
def IsStmt (inside : Bool) (next : Kind) (tokens : List Token) : Prop :=
  ∃ tree nesting, Derives (.stmt inside next tree) tokens nesting

/-- The tokens may be those of the statements of a block, up to its closing brace. -/
def IsBody (tokens : List Token) : Prop :=
  ∃ trees nesting body closing, tokens = body ++ [closing] ∧ closing.kind = .closeCurly ∧
    Derives (.stmts true .closeCurly trees) body nesting

/-- The name of a missing operand. -/
def Token.someName : Token := ⟨.identifier, "x", .null⟩

/-- The tokens of an empty block. -/
def Block.emptyTokens : List Token := [.ofKind .openCurly, .ofKind .closeCurly]

theorem isExpr_someName (stratum : Stratum) : IsExpr stratum [.someName] :=
  ⟨_, 0, (Derives.identifier rfl).weaken (by cases stratum <;> decide)⟩

theorem isBlock_empty : IsBlock Block.emptyTokens := ⟨_, _, .block rfl .noStmts rfl⟩

theorem isBody_nil : IsBody [.ofKind .closeCurly] := ⟨[], 0, [], _, rfl, rfl, .noStmts⟩

/-- A statement that comes before others of a block is one of them. -/
theorem IsBody.cons {inside : Bool} {first tokens : List Token}
    (hfirst : IsStmt inside (firstKind tokens .closeCurly) first) (h : IsBody tokens) :
    IsBody (first ++ tokens) := by
  obtain ⟨tree, m, hderives⟩ := hfirst
  obtain ⟨trees, n, body, closing, rfl, hclosing, hbody⟩ := h
  rw [firstKind_append, firstKind_cons, hclosing] at hderives
  have hinside : Derives (.stmt true (firstKind body .closeCurly) tree) first m := by
    cases inside with
    | false => exact hderives.stmt_within
    | true => exact hderives
  exact ⟨tree :: trees, _, first ++ body, closing, by simp, hclosing, .moreStmts hinside hbody⟩

/-- Each statement may be the last one of a block. -/
theorem IsStmt.isBody {inside : Bool} {next : Kind} {tokens : List Token}
    (h : IsStmt inside next tokens) : IsBody (tokens ++ [.ofKind .closeCurly]) := by
  obtain ⟨tree, nesting, hderives⟩ := h
  exact isBody_nil.cons ⟨tree, nesting, hderives.stmt_closed⟩

/-- A statement before a front that starts as it demands, if there is any, is completed by what
completes the front. -/
theorem IsStmt.exists_isBody {inside : Bool} {next : Kind} {tokens front rest : List Token}
    (h : IsStmt inside next tokens) (hhead : ∀ token ∈ front.head?, token.kind = next)
    (hbody : IsBody (front ++ rest)) : ∃ more, IsBody (tokens ++ (front ++ more)) := by
  cases front with
  | nil => exact ⟨_, h.isBody⟩
  | cons token front =>
    obtain rfl := hhead token rfl
    exact ⟨rest, hbody.cons h⟩

namespace IsExpr

variable {stratum other : Stratum} {tokens first second third : List Token}
  {kw opening closing : Token}

theorem weaken (h : IsExpr stratum tokens) (hle : other ≤ stratum) : IsExpr other tokens := by
  obtain ⟨tree, nesting, hderives⟩ := h
  exact ⟨tree, nesting, hderives.weaken hle⟩

theorem conditional (hkw : kw.kind = .kwIf) (hopening : opening.kind = .openParen)
    (hfirst : IsExpr .equality first) (hclosing : closing.kind = .closeParen)
    (hsecond : IsBlock second) :
    IsExpr .primary (kw :: opening :: (first ++ closing :: second)) := by
  obtain ⟨condition, m, hcondition⟩ := hfirst
  obtain ⟨consequence, n, hconsequence⟩ := hsecond
  exact ⟨_, _, .conditional hkw hopening hcondition hclosing hconsequence⟩

theorem conditionalElse {kwElse : Token} (hkw : kw.kind = .kwIf)
    (hopening : opening.kind = .openParen) (hfirst : IsExpr .equality first)
    (hclosing : closing.kind = .closeParen) (hsecond : IsBlock second)
    (helse : kwElse.kind = .kwElse) (hthird : IsBlock third) :
    IsExpr .primary
      (kw :: opening :: (first ++ closing :: (second ++ kwElse :: third))) := by
  obtain ⟨condition, m, hcondition⟩ := hfirst
  obtain ⟨consequence, n, hconsequence⟩ := hsecond
  obtain ⟨alternative, k, halternative⟩ := hthird
  exact ⟨_, _, .conditionalElse hkw hopening hcondition hclosing hconsequence helse halternative⟩

theorem function {parameters : List Identifier} (hkw : kw.kind = .kwFn)
    (hopening : opening.kind = .openParen) (hfirst : Parameters parameters first)
    (hclosing : closing.kind = .closeParen) (hsecond : IsBlock second) :
    IsExpr .primary (kw :: opening :: (first ++ closing :: second)) := by
  obtain ⟨body, n, hbody⟩ := hsecond
  exact ⟨_, _, .function hkw hopening hfirst hclosing hbody⟩

end IsExpr

end LetScript
