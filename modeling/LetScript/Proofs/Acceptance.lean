import LetScript.Proofs.Attempts
import LetScript.Proofs.Completeness

/-!
# Sources that the grammar derives

A source whose tokens are derived as a list of statements is read as exactly these statements,
without a diagnostic, if at most as many frames are open at once as levels may be nested. With one
frame more it is not: the first statement that is nested too deeply is refused for that.
-/

namespace LetScript

namespace Cursor

/-- The next token is the first one left. -/
theorem peek_kind_eq_firstKind (cursor : Cursor) :
    cursor.peek.kind = firstKind cursor.tokens.tail .eof := by
  cases htail : cursor.tokens.tail with
  | nil => simp [peek, htail, Token.endOfInput]
  | cons token rest => rw [peek_of_tail_eq htail, firstKind_cons]

end Cursor

/-- A statement of the grammar is read, or refused for the depth of its nesting. -/
theorem gives_statement {inside : Bool} {next : Kind} {tree : Stmt} {tokens : List Token}
    {nesting : Nat} (h : Derives (.stmt inside next tree) tokens nesting) {c stop : Cursor}
    (htakes : c.Takes tokens stop) (hnext : stop.peek.kind = next)
    (hfollow : next ≠ .kwElse ∧ next ≠ .semicolon) (hinside : inside = decide (0 < c.openBraces)) :
    Gives (nesting ≤ nestingLimit) (.ok tree, stop)
      (Table.standard.statement.run c.advance) :=
  h.read nestingLimit htakes hnext hfollow.1 hfollow.2 hinside

/-- Statements that stand in no block are read one after the other up to the end of the input,
if they have as many levels as frames are open at once. -/
theorem attempts_level_of_derives (levels : Nat) {trees : List Stmt} {tokens : List Token}
    {nesting : Nat} (h : Derives (.stmts false .eof trees) tokens nesting) {c : Cursor}
    (htail : c.tokens.tail = tokens) (hbraces : c.openBraces = 0) :
    (nesting ≤ levels →
      (Attempt.program
        (attempts (Table.standard.level levels).readStmt c.advance)).statements = trees ∧
        Attempt.diagnostics (attempts (Table.standard.level levels).readStmt c.advance) = []) ∧
    (levels < nesting →
      ∃ first rest, Attempt.diagnostics
        (attempts (Table.standard.level levels).readStmt c.advance) = first :: rest ∧
        first.cause = .nestingTooDeep nestingLimit) := by
  induction trees generalizing tokens nesting c with
  | nil =>
    cases h
    rw [attempts_of_tokens_eq_nil htail]
    exact ⟨fun _ => ⟨rfl, rfl⟩, fun hlt => absurd hlt (Nat.not_lt_zero _)⟩
  | cons tree trees ih =>
    cases h with
    | @moreStmts _ _ _ _ first second m n hfirst hrest =>
      obtain ⟨between, htakes, hsecond⟩ := Cursor.Takes.exists_of_tail_eq htail
      have hnext : between.peek.kind = firstKind second .eof := by
        rw [between.peek_kind_eq_firstKind, hsecond]
      obtain ⟨helse, hsemicolon⟩ := hrest.firstKind_of_stmts (by decide)
      have hgives : Gives (m ≤ levels) (.ok tree, between)
          ((Table.standard.level levels).readStmt.run c.advance) :=
        hfirst.read levels htakes hnext helse hsemicolon (by simp [hbraces])
      have hleft : c.advance.tokens ≠ [] := by
        obtain ⟨token, others, rfl, -⟩ := hfirst.exists_first_of_stmt
        simp [htail]
      have hopen := htakes.openBraces_of_balanced hfirst.balanced
      obtain ⟨hfits, hdeep⟩ := ih hrest hsecond (hopen.trans hbraces)
      generalize hrun : (Table.standard.level levels).readStmt.run c.advance = outcome at hgives
      cases hgives with
      | good hm =>
        rw [attempts_eq_cons hleft hrun, Attempt.statements_program_cons_ok,
          Attempt.diagnostics_cons_ok]
        constructor
        · intro hle
          obtain ⟨hstatements, hdiagnostics⟩ := hfits (by omega)
          exact ⟨congrArg (List.cons tree) hstatements, hdiagnostics⟩
        · intro hlt
          exact hdeep (by omega)
      | tooDeep hm hcause =>
        rw [attempts_eq_cons hleft hrun, Attempt.diagnostics_cons_error]
        constructor
        · intro hle
          omega
        · intro _
          exact ⟨_, _, rfl, hcause⟩

/-- So they are with all the levels that there are. -/
theorem attempts_of_derives {trees : List Stmt} {tokens : List Token} {nesting : Nat}
    (h : Derives (.stmts false .eof trees) tokens nesting) {c : Cursor}
    (htail : c.tokens.tail = tokens) (hbraces : c.openBraces = 0) :
    (nesting ≤ nestingLimit →
      (Attempt.program (attempts Table.standard.statement c.advance)).statements = trees ∧
        Attempt.diagnostics (attempts Table.standard.statement c.advance) = []) ∧
    (nestingLimit < nesting →
      ∃ first rest, Attempt.diagnostics (attempts Table.standard.statement c.advance) =
        first :: rest ∧ first.cause = .nestingTooDeep nestingLimit) :=
  attempts_level_of_derives nestingLimit h htail hbraces

/-- A source that the grammar derives is read as its statements without a diagnostic if at most
as many frames are open at once as levels may be nested, and is otherwise refused, at first for
the depth of its nesting. -/
theorem parse_of_derives {source : String} {file : Option String} {trees : List Stmt}
    {nesting : Nat}
    (h : Derives (.stmts false .eof trees) (Lexer.ofString source file).content nesting) :
    (nesting ≤ nestingLimit → parse source file = (⟨trees⟩, [])) ∧
      (nestingLimit < nesting → ∃ first rest, (parse source file).2 = first :: rest ∧
        first.cause = .nestingTooDeep nestingLimit) := by
  obtain ⟨hfits, hdeep⟩ := attempts_of_derives h
    (c := .before _ (Lexer.ofString source file).finish 0) rfl rfl
  refine ⟨fun hle => ?_, hdeep⟩
  obtain ⟨hstatements, hdiagnostics⟩ := hfits hle
  exact Prod.ext (congrArg Program.mk hstatements) hdiagnostics

theorem parse_sum :
    ∃ trees nesting,
      Derives (.stmts false .eof trees) (Lexer.ofString "x + f();" none).content nesting ∧
        nesting ≤ nestingLimit ∧ parse "x + f();" none = (⟨trees⟩, []) := by
  let x : Token := ⟨.identifier, "x", .ofLength 0 1 "shell"⟩
  let plus : Token := ⟨.plus, "+", .ofLength 2 1 "shell"⟩
  let f : Token := ⟨.identifier, "f", .ofLength 4 1 "shell"⟩
  let opening : Token := ⟨.openParen, "(", .ofLength 5 1 "shell"⟩
  let closing : Token := ⟨.closeParen, ")", .ofLength 6 1 "shell"⟩
  let semicolon : Token := ⟨.semicolon, ";", .ofLength 7 1 "shell"⟩
  have hcontent : (Lexer.ofString "x + f();" none).content =
      [x, plus, f, opening, closing, semicolon] := by decide +kernel
  have hname : Derives (.expr .additive (.identifier (.ofToken x))) [x] 0 :=
    (Derives.identifier rfl).weaken (by decide)
  have hcallee : Derives (.expr .call (.identifier (.ofToken f))) [f] 0 :=
    (Derives.identifier rfl).weaken (by decide)
  have hcall : Derives (.expr .call (.call opening (.identifier (.ofToken f)) []))
      [f, opening, closing] 0 :=
    .call hcallee rfl .noArguments rfl
  have hop : plus.kind ∈ Stratum.operators .additive := by decide
  have hsum := Derives.infixOp hname hop (hcall.weaken (by decide))
  have hend : LooseEnd .eof [semicolon] := .semicolon rfl
  have hstmt : Derives (.stmt false .eof _) _ _ := .expression (hsum.weaken (by decide)) hend
  have hderives : Derives (.stmts false .eof _) [x, plus, f, opening, closing, semicolon] _ :=
    .moreStmts hstmt .noStmts
  rw [← hcontent] at hderives
  exact ⟨_, _, hderives, by decide, (parse_of_derives hderives).1 (by decide)⟩

end LetScript
