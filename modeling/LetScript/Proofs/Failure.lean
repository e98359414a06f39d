import LetScript.Proofs.Soundness

/-!
# Where a reading breaks

A routine fails at the first token that cannot go on, either before it has moved there or when it
stands on it. Up to that token it has taken whole phrases and, inside a block, the block's opening
brace and what stands between that and the token. So a failure is one of four kinds, after legal
tokens of which no prefix closes more braces than it opens. Nothing of a statement fails after its
semicolon, so none of the semicolons among these tokens stands outside all braces.

That is an instance of a more general law: whatever is true of the four failures and is kept when
a clause stands before is true of each failure of an expression or statement, if it is true of
the expressions and blocks inside it.
-/

namespace LetScript

open Routine

/-- A failure at the next token: it is not the one expected, no expression starts with it, its
integer is too large, or it starts what would be nested too deeply. -/
inductive Cursor.Refuses (c : Cursor) : Diagnostic → Cursor → Prop where
  | unexpected {kind : Kind} : c.peek.kind ≠ kind →
      Refuses c ⟨.unexpectedToken kind c.peek.kind, c.peek.position⟩ c
  | noRule : Table.standard.prefixRule c.peek.kind = none →
      Refuses c ⟨Level.refusal c.peek, c.peek.position⟩ c.advance
  | unreadable : c.peek.kind = .integer → integerValue? c.peek.literal = none →
      Refuses c ⟨.unreadableInteger c.peek.literal, c.peek.position⟩ c.advance
  | tooDeep : Refuses c ⟨.nestingTooDeep nestingLimit, c.peek.position⟩ c.advance

/-- A failure where the input ends inside a block. -/
inductive Cursor.Unterminated (c : Cursor) : Diagnostic → Cursor → Prop where
  | of_tokens_eq_nil : c.advance.tokens = [] →
      Unterminated c ⟨.unterminatedBlock, c.peek.position⟩ c.advance

namespace Level

/-- The failures of a level, read from the token after a cursor on, are among those that `fails`
holds of; these include the four kinds and are kept by a clause before. -/
structure Failing (level : Level) (levels : Nat)
    (fails : Cursor → Diagnostic → Cursor → Prop) : Prop where
  sound : level.Sound levels
  here {c stop : Cursor} {diagnostic : Diagnostic} : c.Refuses diagnostic stop →
    fails c diagnostic stop
  later {c between stop : Cursor} {diagnostic : Diagnostic} {tokens : List Token} :
    c.Takes tokens between → Clause tokens → fails between diagnostic stop →
      fails c diagnostic stop
  expr {power : Power} {c stop : Cursor} {diagnostic : Diagnostic} :
    (level.expr power).run c.advance = (.error diagnostic, stop) → fails c diagnostic stop
  block {c stop : Cursor} {diagnostic : Diagnostic} : c.peek.kind = .openCurly →
    level.block.run c.advance = (.error diagnostic, stop) → fails c diagnostic stop

namespace Failing

variable {α : Type} {inner : Level} {levels : Nat}
  {fails : Cursor → Diagnostic → Cursor → Prop} {c stop : Cursor} {diagnostic : Diagnostic}

/-- A failure after a plain token. -/
theorem of_advance (h : inner.Failing levels fails) (hplain : c.peek.kind.Plain)
    (hfails : fails c.advance diagnostic stop) : fails c diagnostic stop :=
  h.later (.single hplain.1) (.single hplain) hfails

/-- A token of another kind than the expected one, or a failure after it. -/
theorem of_expectPeek (h : inner.Failing levels fails) {kind : Kind} {next : Unit → Routine α}
    (hplain : kind.Plain)
    (hrun : (expectPeek kind >>= next).run c = (.error diagnostic, stop))
    (hnext : c.peek.kind = kind → (next ()).run c.advance = (.error diagnostic, stop) →
      fails c.advance diagnostic stop) : fails c diagnostic stop := by
  rcases run_expectPeek_bind_eq_error_iff.mp hrun with hfirst | ⟨hpeek, hrest⟩
  · obtain ⟨hne, rfl, rfl⟩ := run_expectPeek_eq_error_iff.mp hfirst
    exact h.here (.unexpected hne)
  · exact h.of_advance (hpeek ▸ hplain) (hnext hpeek hrest)

/-- A failure of a nested expression, or one after it. -/
theorem of_expr (h : inner.Failing levels fails) {power : Power} {next : Expr → Routine α}
    (hrun : (inner.expr power >>= next).run c.advance = (.error diagnostic, stop))
    (hnext : ∀ tree between, (next tree).run between = (.error diagnostic, stop) →
      fails between diagnostic stop) : fails c diagnostic stop := by
  rcases run_bind_eq_error_iff.mp hrun with hexpr | ⟨tree, between, hexpr, hrest⟩
  · exact h.expr hexpr
  · obtain ⟨tokens, nesting, htakes, hderives, -, -⟩ := h.sound.expr hexpr
    exact h.later htakes hderives.outline (hnext tree between hrest)

/-- No opening brace, a failure of the block that starts with it, or one after the block. -/
theorem of_expectBlock (h : inner.Failing levels fails) {next : Block → Routine α}
    (hrun : (expectPeek .openCurly >>= fun _ => inner.block >>= next).run c =
      (.error diagnostic, stop))
    (hnext : ∀ tree between, (next tree).run between = (.error diagnostic, stop) →
      fails between diagnostic stop) : fails c diagnostic stop := by
  rcases run_expectPeek_bind_eq_error_iff.mp hrun with hfirst | ⟨hopening, hrest⟩
  · obtain ⟨hne, rfl, rfl⟩ := run_expectPeek_eq_error_iff.mp hfirst
    exact h.here (.unexpected hne)
  · rcases run_bind_eq_error_iff.mp hrest with hblock | ⟨tree, between, hblock, hrest⟩
    · exact h.block hopening hblock
    · obtain ⟨tokens, nesting, htakes, hderives, -⟩ := h.sound.block hopening hblock
      exact h.later htakes hderives.outline (hnext tree between hrest)

theorem readPrefixOp (h : inner.Failing levels fails)
    (hkind : c.peek.kind = .dash ∨ c.peek.kind = .not)
    (hrun : inner.readPrefixOp.run c.advance = (.error diagnostic, stop)) :
    fails c diagnostic stop := by
  simp only [Level.readPrefixOp, run_current_bind, run_advance_bind] at hrun
  have hplain : c.peek.kind.Plain := by rcases hkind with hkind | hkind <;> simp [hkind]
  refine h.of_advance hplain (h.of_expr hrun fun tree between hrest => ?_)
  cases hrest

theorem readGrouping (h : inner.Failing levels fails) (hkind : c.peek.kind = .openParen)
    (hrun : inner.readGrouping.run c.advance = (.error diagnostic, stop)) :
    fails c diagnostic stop := by
  simp only [Level.readGrouping, run_advance_bind] at hrun
  refine h.of_advance (by simp [hkind])
    (h.of_expr hrun fun tree between hrest => ?_)
  refine h.of_expectPeek (by simp) hrest fun _ hrest => ?_
  cases hrest

theorem readConditional (h : inner.Failing levels fails) (hkind : c.peek.kind = .kwIf)
    (hrun : inner.readConditional.run c.advance = (.error diagnostic, stop)) :
    fails c diagnostic stop := by
  simp only [Level.readConditional, run_current_bind] at hrun
  refine h.of_advance (by simp [hkind]) ?_
  refine h.of_expectPeek (by simp) hrun fun _ hrest => ?_
  rw [run_advance_bind] at hrest
  refine h.of_expr hrest fun condition afterCondition hrest => ?_
  refine h.of_expectPeek (by simp) hrest fun _ hrest => ?_
  refine h.of_expectBlock hrest fun consequence afterConsequence hrest => ?_
  simp only [run_peekKind_bind] at hrest
  split at hrest
  · rename_i helse
    rw [run_advance_bind] at hrest
    refine h.of_advance (by simp [helse]) ?_
    refine h.of_expectBlock hrest fun alternative afterAlternative hrest => ?_
    cases hrest
  · cases hrest

/-- A failure among the members of a list in parentheses. -/
theorem readMembers (h : inner.Failing levels fails) {member : Routine α}
    (hmember : ∀ {c diagnostic stop}, member.run c = (.error diagnostic, stop) →
      fails c diagnostic stop)
    (htaken : ∀ {c stop a}, member.run c = (.ok a, stop) →
      ∃ tokens, c.Takes tokens stop ∧ Clause tokens)
    (hrun : (LetScript.readMembers member).run c = (.error diagnostic, stop)) :
    fails c diagnostic stop := by
  have hfailure := readMembers_error (fun _ tokens => Clause tokens) htaken
    (fun hbefore hcomma hmember => ?_) hrun
  · rcases hfailure with hfirst | ⟨-, tokens, between, htakes, hclause, hlast⟩
    · exact hmember hfirst
    · refine h.later htakes hclause ?_
      rcases hlast with ⟨hcomma, hlast⟩ | hclosing
      · exact h.of_advance (by simp [hcomma]) (hmember hlast)
      · obtain ⟨hne, rfl, rfl⟩ := run_expectPeek_eq_error_iff.mp hclosing
        exact h.here (.unexpected hne)
  · obtain ⟨second, htakesSecond, hsecond⟩ := htaken hmember
    exact ⟨second, htakesSecond, hbefore.append (.cons (by simp [hcomma]) hsecond)⟩

theorem readFunction (h : inner.Failing levels fails) (hkind : c.peek.kind = .kwFn)
    (hrun : inner.readFunction.run c.advance = (.error diagnostic, stop)) :
    fails c diagnostic stop := by
  simp only [Level.readFunction, run_current_bind] at hrun
  refine h.of_advance (by simp [hkind]) ?_
  refine h.of_expectPeek (by simp) hrun fun _ hrest => ?_
  rcases run_bind_eq_error_iff.mp hrest with hmembers | ⟨parameters, between, hmembers, hrest⟩
  · refine h.readMembers (fun hmember => ?_) (fun hmember => ?_) hmembers
    · refine h.of_expectPeek (by simp) hmember fun _ hpure => ?_
      cases hpure
    · obtain ⟨htakes, hname, -⟩ := readParameter_ok hmember
      exact ⟨_, htakes, .single (by simp [hname])⟩
  · obtain ⟨tokens, closing, htakes, hclosing, hparameters⟩ := readParameters_ok hmembers
    refine h.later htakes (hparameters.clause.append (.single (by simp [hclosing]))) ?_
    refine h.of_expectBlock hrest fun body last hpure => ?_
    cases hpure

theorem readArgument (h : inner.Failing levels fails)
    (hrun : inner.readArgument.run c = (.error diagnostic, stop)) : fails c diagnostic stop := by
  rw [Level.readArgument, run_advance_bind] at hrun
  exact h.expr hrun

theorem readCall (h : inner.Failing levels fails) {callee : Expr}
    (hkind : c.peek.kind = .openParen)
    (hrun : (inner.readCall callee).run c.advance = (.error diagnostic, stop)) :
    fails c diagnostic stop := by
  simp only [Level.readCall, run_current_bind] at hrun
  refine h.of_advance (by simp [hkind]) ?_
  rcases run_bind_eq_error_iff.mp hrun with hmembers | ⟨_, _, _, hpure⟩
  · refine h.readMembers (fun hmember => h.readArgument hmember) (fun hmember => ?_) hmembers
    obtain ⟨tokens, nesting, htakes, hderives, -⟩ := h.sound.readArgument hmember
    exact ⟨tokens, htakes, hderives.outline⟩
  · cases hpure

theorem readInfixOp (h : inner.Failing levels fails) {left : Expr} {stratum : Stratum}
    (hop : c.peek.kind ∈ stratum.operators)
    (hrun : (inner.readInfixOp Table.standard left).run c.advance = (.error diagnostic, stop)) :
    fails c diagnostic stop := by
  simp only [Level.readInfixOp, run_current_bind, run_advance_bind] at hrun
  have hplain := (Kind.plain_of_mem_operators hop).1
  refine h.of_advance hplain (h.of_expr hrun fun right last hpure => ?_)
  cases hpure

/-- A failure of the rule of the first token. -/
theorem readPrefix (h : inner.Failing levels fails) {rule : PrefixRule}
    (hrule : Table.standard.prefixRule c.peek.kind = some rule)
    (hrun : (inner.readPrefix rule).run c.advance = (.error diagnostic, stop)) :
    fails c diagnostic stop := by
  cases rule with
  | identifier => cases hrun
  | integer =>
    simp only [Level.readPrefix, readInteger, run_current_bind] at hrun
    split at hrun
    · cases hrun
    · cases hrun
      exact h.here (.unreadable (Table.kind_of_prefixRule hrule) ‹_›)
  | boolean => cases hrun
  | prefixOp => exact h.readPrefixOp (Table.kind_of_prefixRule hrule) hrun
  | grouping => exact h.readGrouping (Table.kind_of_prefixRule hrule) hrun
  | conditional => exact h.readConditional (Table.kind_of_prefixRule hrule) hrun
  | function => exact h.readFunction (Table.kind_of_prefixRule hrule) hrun

/-- A failure of the rule of a token after an expression. -/
theorem readInfix (h : inner.Failing levels fails) {power : Power} {left : Expr} {rule : InfixRule}
    (hrule : Table.standard.infixRuleAbove power c.peek.kind = some rule)
    (hrun : (inner.readInfix Table.standard rule left).run c.advance =
      (.error diagnostic, stop)) : fails c diagnostic stop := by
  cases rule with
  | infixOp =>
    obtain ⟨-, stratum, hop⟩ := Table.exists_stratum_of_infixOp hrule
    exact h.readInfixOp hop hrun
  | call => exact h.readCall (Table.eq_openParen_of_call hrule) hrun

theorem readExpr (h : inner.Failing levels fails) {power : Power}
    (hrun : (inner.readExpr Table.standard power).run c.advance = (.error diagnostic, stop)) :
    fails c diagnostic stop := by
  simp only [Level.readExpr, run_current_bind, Cursor.current_advance] at hrun
  split at hrun
  · cases hrun
    exact h.here (.noRule ‹_›)
  · rename_i rule hrule
    rcases run_bind_eq_error_iff.mp hrun with hfirst | ⟨first, afterFirst, hfirst, hloop⟩
    · exact h.readPrefix hrule hfirst
    · obtain ⟨before, start, found, ⟨_, tokens, _, htakes, hderives, -⟩, htest, -, hbody⟩ :=
        run_whileNext_error (Sound.ReadSoFar levels power c)
          (h.sound.readSoFar_of_readPrefix hrule hfirst power)
          (fun hbefore htest _ hbody => h.sound.readInfix hbefore htest hbody) hloop
      exact h.later htakes hderives.outline (h.readInfix htest hbody)

/-- A missing semicolon. -/
theorem expectTerminator (h : inner.Failing levels fails)
    (hrun : Routine.expectTerminator.run c = (.error diagnostic, stop)) :
    fails c diagnostic stop := by
  rw [run_expectTerminator] at hrun
  split at hrun
  · cases hrun
  · obtain ⟨hne, rfl, rfl⟩ := run_expectPeek_eq_error_iff.mp hrun
    exact h.here (.unexpected hne)

/-- A failure of a value or of the end of the statement after it. -/
theorem of_value (h : inner.Failing levels fails) {next : Expr → Stmt}
    (hrun : (do
      let value ← inner.expr .lowest
      Routine.expectTerminator
      return next value).run c.advance = (.error diagnostic, stop)) :
    fails c diagnostic stop := by
  refine h.of_expr hrun fun value last hrest => ?_
  rcases run_bind_eq_error_iff.mp hrest with hend | ⟨_, _, _, hpure⟩
  · exact h.expectTerminator hend
  · cases hpure

theorem readBinding (h : inner.Failing levels fails) (hkind : c.peek.kind = .kwLet)
    (hrun : inner.readBinding.run c.advance = (.error diagnostic, stop)) :
    fails c diagnostic stop := by
  simp only [Level.readBinding, run_current_bind] at hrun
  refine h.of_advance (by simp [hkind]) ?_
  refine h.of_expectPeek (by simp) hrun fun _ hrest => ?_
  rw [run_current_bind] at hrest
  refine h.of_expectPeek (by simp) hrest fun _ hrest => ?_
  rw [run_advance_bind] at hrest
  exact h.of_value hrest

theorem readReturning (h : inner.Failing levels fails) (hkind : c.peek.kind = .kwReturn)
    (hrun : inner.readReturning.run c.advance = (.error diagnostic, stop)) :
    fails c diagnostic stop := by
  simp only [Level.readReturning, run_current_bind, run_here_bind] at hrun
  refine h.of_advance (by simp [hkind]) ?_
  split at hrun
  · rcases run_bind_eq_error_iff.mp hrun with hend | ⟨_, _, _, hpure⟩
    · exact h.expectTerminator hend
    · cases hpure
  · rw [run_advance_bind] at hrun
    exact h.of_value hrun

theorem readExpression (h : inner.Failing levels fails)
    (hrun : inner.readExpression.run c.advance = (.error diagnostic, stop)) :
    fails c diagnostic stop := by
  simp only [Level.readExpression, run_current_bind] at hrun
  refine h.of_expr hrun fun value last hrest => ?_
  simp only [run_peekKind_bind] at hrest
  split at hrest <;> cases hrest

theorem readStmt (h : inner.Failing levels fails)
    (hrun : inner.readStmt.run c.advance = (.error diagnostic, stop)) :
    fails c diagnostic stop := by
  simp only [Level.readStmt, run_current_bind, Cursor.current_advance] at hrun
  split at hrun
  · exact h.readBinding ‹_› hrun
  · exact h.readReturning ‹_› hrun
  · exact h.readExpression hrun

/-- Statements up to a closing brace fail in one of them or where the input ends. -/
theorem readStmts (h : inner.Failing levels fails)
    (hrun : (LetScript.readStmts inner.readStmt).run c.advance = (.error diagnostic, stop)) :
    ∃ tokens between, c.Takes tokens between ∧ Contents tokens ∧
      (fails between diagnostic stop ∨ between.Unterminated diagnostic stop) := by
  refine run_readStmts_error ?_ ?_ ?_ hrun
  · intro c hnil hdiagnostic hstop
    subst hdiagnostic hstop
    exact ⟨[], c, .nil c, .nil, .inr (.of_tokens_eq_nil hnil)⟩
  · intro c _ hfirst
    exact ⟨[], c, .nil c, .nil, .inl (h.readStmt hfirst)⟩
  · intro c after first _ hfirst ih
    obtain ⟨tokens, nesting, htakes, hderives, -⟩ := h.sound.readStmt rfl hfirst
    obtain ⟨more, between, htakesMore, hmore, hfails⟩ := ih
    exact ⟨tokens ++ more, between, htakes.append htakesMore,
      hderives.contents.append hmore, hfails⟩

/-- A block fails in one of its statements or where the input ends. -/
theorem readBlock (h : inner.Failing levels fails)
    (hrun : inner.readBlock.run c.advance = (.error diagnostic, stop)) :
    ∃ tokens between, c.advance.Takes tokens between ∧ Contents tokens ∧
      (fails between diagnostic stop ∨ between.Unterminated diagnostic stop) := by
  simp only [Level.readBlock, run_current_bind, run_advance_bind] at hrun
  rcases run_bind_eq_error_iff.mp hrun with hstmts | ⟨_, _, _, hpure⟩
  · exact h.readStmts hstmts
  · cases hpure

end Failing

end Level

/-- A failure at the first token that cannot go on, or where the input ends inside a block, after
tokens of which `front` holds. -/
def Cursor.Breaks (front : List Token → Prop) (c : Cursor) (diagnostic : Diagnostic)
    (stop : Cursor) : Prop :=
  ∃ tokens between, c.Takes tokens between ∧ front tokens ∧
    (between.Refuses diagnostic stop ∨ between.Unterminated diagnostic stop)

namespace Cursor.Breaks

variable {front front' : List Token → Prop} {c between stop : Cursor} {diagnostic : Diagnostic}
  {tokens : List Token}

/-- Tokens may stand before a failure if they may stand before what comes before it. -/
theorem later (h : between.Breaks front diagnostic stop) (htakes : c.Takes tokens between)
    (hfront : ∀ more, front more → front' (tokens ++ more)) :
    c.Breaks front' diagnostic stop := by
  obtain ⟨more, last, htakesMore, hmore, hfails⟩ := h
  exact ⟨tokens ++ more, last, htakes.append htakesMore, hfront more hmore, hfails⟩

/-- The diagnostic stands at the token at which the reading breaks, and the reading stops before
this token or on it. -/
theorem exists_stop (h : c.Breaks front diagnostic stop) :
    ∃ tokens between, c.Takes tokens between ∧ front tokens ∧
      diagnostic.position = between.peek.position ∧
      (stop = between ∨ stop = between.advance) := by
  obtain ⟨tokens, between, htakes, hfront, hrefuses | hunterminated⟩ := h
  · cases hrefuses with
    | unexpected => exact ⟨tokens, _, htakes, hfront, rfl, .inl rfl⟩
    | noRule => exact ⟨tokens, between, htakes, hfront, rfl, .inr rfl⟩
    | unreadable => exact ⟨tokens, between, htakes, hfront, rfl, .inr rfl⟩
    | tooDeep => exact ⟨tokens, between, htakes, hfront, rfl, .inr rfl⟩
  · cases hunterminated
    exact ⟨tokens, between, htakes, hfront, rfl, .inr rfl⟩

end Cursor.Breaks

theorem Cursor.Refuses.breaks {c stop : Cursor} {diagnostic : Diagnostic}
    (h : c.Refuses diagnostic stop) : c.Breaks Unfinished diagnostic stop :=
  ⟨[], c, .nil c, .of_clause .nil, .inl h⟩

namespace Table

/-- A block breaks inside its braces, or at its opening one when no level is left. -/
theorem breaks_of_block {levels : Nat} {c stop : Cursor} {diagnostic : Diagnostic}
    (hlevels : ∀ n < levels, (standard.level n).Failing n (Cursor.Breaks Unfinished))
    (hrun : (standard.level levels).block.run c.advance = (.error diagnostic, stop)) :
    c.advance.Breaks Begun diagnostic stop ∨
      diagnostic = ⟨.nestingTooDeep nestingLimit, c.peek.position⟩ ∧ stop = c.advance := by
  cases levels with
  | zero =>
    cases hrun
    exact .inr ⟨rfl, rfl⟩
  | succ levels =>
    obtain ⟨tokens, between, htakes, hcontents, hfails⟩ :=
      (hlevels levels (Nat.lt_succ_self _)).readBlock hrun
    rcases hfails with hbreaks | hunterminated
    · exact .inl (hbreaks.later htakes fun _ hmore => .append hcontents hmore.toBegun)
    · exact .inl ⟨tokens, between, htakes, hcontents.begun, .inr hunterminated⟩

/-- Every failure of an expression or block is one of the four or a missing closing brace. -/
theorem failing_level (levels : Nat) :
    (standard.level levels).Failing levels (Cursor.Breaks Unfinished) := by
  induction levels using Nat.strongRecOn with
  | ind levels ih =>
    constructor
    · exact sound_level levels
    · intro c stop diagnostic hrefuses
      exact hrefuses.breaks
    · intro c between stop diagnostic tokens htakes hclause hbreaks
      exact hbreaks.later htakes fun _ hmore => hmore.append hclause
    · intro power c stop diagnostic hrun
      cases levels with
      | zero =>
        cases hrun
        exact Cursor.Refuses.tooDeep.breaks
      | succ levels => exact (ih levels (Nat.lt_succ_self _)).readExpr hrun
    · intro c stop diagnostic hopening hrun
      rcases breaks_of_block ih hrun with hbreaks | ⟨rfl, rfl⟩
      · exact hbreaks.later (.single (by simp [hopening])) fun _ hmore =>
          Unfinished.opened hopening hmore
      · exact Cursor.Refuses.tooDeep.breaks

end Table

end LetScript
