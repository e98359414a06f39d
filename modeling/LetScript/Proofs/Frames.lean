import LetScript.Proofs.Soundness

/-!
# The frames that are open

Reading an expression opens a frame, and so does reading a block. A frame stays open while what
stands inside it is read: the operand of a prefix operator, what stands in parentheses, a right
operand, the statements of a block. A left operand and a callee are complete when the token after
them is come to, and their frames are closed again.

`Entering` tells, by the rules of the grammar alone, how many frames are open inside a phrase when
the tokens up to some place have been read and the next token starts a frame. A reading fails for
the depth of its nesting only where as many frames are open as there are levels.
-/

namespace LetScript

open Routine

/-- What is being read: an expression whose operators bind tighter than a power, a block, or a
statement. -/
inductive Spot where
  | expr (power : Power)
  | block
  | stmt

/-- After the tokens, which start what is being read, the next token starts a frame inside the
given number of frames. -/
inductive Entering : Spot → List Token → Nat → Prop where
  | expr (power : Power) : Entering (.expr power) [] 0
  | block : Entering .block [] 0
  | operand {power : Power} {op : Token} {tokens : List Token} {n : Nat} :
      op.kind = .dash ∨ op.kind = .not → Entering (.expr .unary) tokens n →
        Entering (.expr power) (op :: tokens) (n + 1)
  | grouping {power : Power} {opening : Token} {tokens : List Token} {n : Nat} :
      opening.kind = .openParen → Entering (.expr .lowest) tokens n →
        Entering (.expr power) (opening :: tokens) (n + 1)
  | condition {power : Power} {kw opening : Token} {tokens : List Token} {n : Nat} :
      kw.kind = .kwIf → opening.kind = .openParen → Entering (.expr .lowest) tokens n →
        Entering (.expr power) (kw :: opening :: tokens) (n + 1)
  | consequence {power : Power} {kw opening closing : Token} {condition : Expr}
      {first tokens : List Token} {m n : Nat} :
      kw.kind = .kwIf → opening.kind = .openParen →
        Derives (.expr .equality condition) first m → closing.kind = .closeParen →
          Entering .block tokens n →
            Entering (.expr power) (kw :: opening :: (first ++ closing :: tokens)) (n + 1)
  | alternative {power : Power} {kw opening closing kwElse : Token} {condition : Expr}
      {consequence : Block} {first second tokens : List Token} {m k n : Nat} :
      kw.kind = .kwIf → opening.kind = .openParen →
        Derives (.expr .equality condition) first m → closing.kind = .closeParen →
          Derives (.block consequence) second k → kwElse.kind = .kwElse →
            Entering .block tokens n →
              Entering (.expr power)
                (kw :: opening :: (first ++ closing :: (second ++ kwElse :: tokens))) (n + 1)
  | body {power : Power} {kw opening closing : Token} {parameters : List Identifier}
      {first tokens : List Token} {n : Nat} :
      kw.kind = .kwFn → opening.kind = .openParen → Parameters parameters first →
        closing.kind = .closeParen → Entering .block tokens n →
          Entering (.expr power) (kw :: opening :: (first ++ closing :: tokens)) (n + 1)
  | rightOperand {power : Power} {stratum : Stratum} {left : Expr} {op : Token}
      {first tokens : List Token} {m n : Nat} :
      Derives (.expr stratum left) first m → op.kind ∈ stratum.operators →
        power < stratum.power → Entering (.expr stratum.power) tokens n →
          Entering (.expr power) (first ++ op :: tokens) (n + 1)
  | firstArgument {power : Power} {callee : Expr} {opening : Token} {first tokens : List Token}
      {m n : Nat} :
      Derives (.expr .call callee) first m → opening.kind = .openParen →
        Entering (.expr .lowest) tokens n →
          Entering (.expr power) (first ++ opening :: tokens) (n + 1)
  | laterArgument {power : Power} {callee : Expr} {trees : List Expr} {opening comma : Token}
      {first second tokens : List Token} {m k n : Nat} :
      Derives (.expr .call callee) first m → opening.kind = .openParen →
        Derives (.someArguments trees) second k → comma.kind = .comma →
          Entering (.expr .lowest) tokens n →
            Entering (.expr power) (first ++ opening :: (second ++ comma :: tokens)) (n + 1)
  | statement {opening : Token} {next : Kind} {trees : List Stmt} {first tokens : List Token}
      {m n : Nat} :
      opening.kind = .openCurly → Derives (.stmts true next trees) first m →
        Entering .stmt tokens n → Entering .block (opening :: (first ++ tokens)) (n + 1)
  | binding {kw name assignment : Token} {tokens : List Token} {n : Nat} :
      kw.kind = .kwLet → name.kind = .identifier → assignment.kind = .assignment →
        Entering (.expr .lowest) tokens n →
          Entering .stmt (kw :: name :: assignment :: tokens) n
  | returning {kw : Token} {tokens : List Token} {n : Nat} :
      kw.kind = .kwReturn → Entering (.expr .lowest) tokens n → Entering .stmt (kw :: tokens) n
  | expression {tokens : List Token} {n : Nat} :
      Entering (.expr .lowest) tokens n → Entering .stmt tokens n

/-- From the next token on, the reading comes to a place where the given number of frames is open
and the next token, which stands at `position`, starts another one. -/
def Cursor.Enters (c : Cursor) (spot : Spot) (frames : Nat) (position : Position) : Prop :=
  ∃ tokens between, c.Takes tokens between ∧ Entering spot tokens frames ∧
    position = between.peek.position

/-- A place inside a part is one inside the whole. -/
theorem Cursor.Enters.later {c between : Cursor} {spot inner : Spot} {frames more : Nat}
    {position : Position} {tokens : List Token} (h : between.Enters inner frames position)
    (htakes : c.Takes tokens between)
    (hwhole : ∀ rest, Entering inner rest frames → Entering spot (tokens ++ rest) more) :
    c.Enters spot more position := by
  obtain ⟨rest, last, htakesRest, hentering, hposition⟩ := h
  exact ⟨tokens ++ rest, last, htakes.append htakesRest, hwhole rest hentering, hposition⟩

/-- A token of another kind than the expected one is not refused for the depth of the nesting. -/
theorem Routine.of_expectPeek_tooDeep {α : Type} {kind : Kind} {next : Unit → Routine α}
    {c stop : Cursor} {limit : Nat} {position : Position}
    (h : (expectPeek kind >>= next).run c = (.error ⟨.nestingTooDeep limit, position⟩, stop)) :
    c.peek.kind = kind ∧
      (next ()).run c.advance = (.error ⟨.nestingTooDeep limit, position⟩, stop) := by
  rcases run_expectPeek_bind_eq_error_iff.mp h with hfirst | hrest
  · obtain ⟨-, hdiagnostic, -⟩ := run_expectPeek_eq_error_iff.mp hfirst
    cases hdiagnostic
  · exact hrest

namespace Level

/-- Where a level fails for the depth of the nesting, as many frames are open as it has levels. -/
structure Entered (level : Level) (levels : Nat) : Prop where
  sound : level.Sound levels
  expr {power : Power} {c stop : Cursor} {limit : Nat} {position : Position} :
    (level.expr power).run c.advance = (.error ⟨.nestingTooDeep limit, position⟩, stop) →
      limit = nestingLimit ∧ c.Enters (.expr power) levels position
  block {c stop : Cursor} {limit : Nat} {position : Position} : c.peek.kind = .openCurly →
    level.block.run c.advance = (.error ⟨.nestingTooDeep limit, position⟩, stop) →
      limit = nestingLimit ∧ c.Enters .block levels position

namespace Entered

variable {inner : Level} {levels limit : Nat} {c stop : Cursor} {position : Position}

theorem readPrefixOp (h : inner.Entered levels) {power : Power}
    (hkind : c.peek.kind = .dash ∨ c.peek.kind = .not)
    (hrun : inner.readPrefixOp.run c.advance =
      (.error ⟨.nestingTooDeep limit, position⟩, stop)) :
    limit = nestingLimit ∧ c.Enters (.expr power) (levels + 1) position := by
  simp only [Level.readPrefixOp, run_current_bind, run_advance_bind] at hrun
  have hop : c.Takes [c.peek] c.advance :=
    .single (by rcases hkind with hkind | hkind <;> simp [hkind])
  rcases run_bind_eq_error_iff.mp hrun with hright | ⟨_, _, _, hpure⟩
  · obtain ⟨hlimit, henters⟩ := h.expr hright
    exact ⟨hlimit, henters.later hop fun _ hrest => .operand hkind hrest⟩
  · cases hpure

theorem readGrouping (h : inner.Entered levels) {power : Power}
    (hkind : c.peek.kind = .openParen)
    (hrun : inner.readGrouping.run c.advance =
      (.error ⟨.nestingTooDeep limit, position⟩, stop)) :
    limit = nestingLimit ∧ c.Enters (.expr power) (levels + 1) position := by
  simp only [Level.readGrouping, run_advance_bind] at hrun
  have hopening : c.Takes [c.peek] c.advance := .single (by simp [hkind])
  rcases run_bind_eq_error_iff.mp hrun with hexpr | ⟨_, _, _, hrest⟩
  · obtain ⟨hlimit, henters⟩ := h.expr hexpr
    exact ⟨hlimit, henters.later hopening fun _ hrest => .grouping hkind hrest⟩
  · obtain ⟨-, hpure⟩ := of_expectPeek_tooDeep hrest
    cases hpure

theorem readConditional (h : inner.Entered levels) {power : Power} (hkind : c.peek.kind = .kwIf)
    (hrun : inner.readConditional.run c.advance =
      (.error ⟨.nestingTooDeep limit, position⟩, stop)) :
    limit = nestingLimit ∧ c.Enters (.expr power) (levels + 1) position := by
  simp only [Level.readConditional, run_current_bind] at hrun
  obtain ⟨hopening, hrest⟩ := of_expectPeek_tooDeep hrun
  rw [run_advance_bind] at hrest
  have hhead : c.Takes [c.peek, c.advance.peek] c.advance.advance :=
    (Cursor.Takes.single (by simp [hkind])).snoc (by simp [hopening])
  rcases run_bind_eq_error_iff.mp hrest with hcondition | ⟨_, _, hcondition, hrest⟩
  · obtain ⟨hlimit, henters⟩ := h.expr hcondition
    exact ⟨hlimit, henters.later hhead fun _ hrest => .condition hkind hopening hrest⟩
  · obtain ⟨hclosing, hrest⟩ := of_expectPeek_tooDeep hrest
    obtain ⟨hcurly, hrest⟩ := of_expectPeek_tooDeep hrest
    obtain ⟨first, m, htakesFirst, hfirst, -, -⟩ := h.sound.expr hcondition
    have htakes := hhead.append (htakesFirst.snoc (by simp [hclosing]))
    rcases run_bind_eq_error_iff.mp hrest with hblock | ⟨_, between, hblock, hrest⟩
    · obtain ⟨hlimit, henters⟩ := h.block hcurly hblock
      refine ⟨hlimit, henters.later htakes fun _ hrest => ?_⟩
      simpa using Entering.consequence hkind hopening hfirst hclosing hrest
    · obtain ⟨second, n, htakesSecond, hsecond, -⟩ := h.sound.block hcurly hblock
      simp only [run_peekKind_bind] at hrest
      split at hrest
      · rename_i helse
        rw [run_advance_bind] at hrest
        obtain ⟨hcurlyElse, hrest⟩ := of_expectPeek_tooDeep hrest
        rcases run_bind_eq_error_iff.mp hrest with halternative | ⟨_, _, _, hpure⟩
        · obtain ⟨hlimit, henters⟩ := h.block hcurlyElse halternative
          have htakes := htakes.append (htakesSecond.snoc (by simp [helse]))
          refine ⟨hlimit, henters.later htakes fun _ hrest => ?_⟩
          simpa using Entering.alternative hkind hopening hfirst hclosing hsecond helse hrest
        · cases hpure
      · cases hrest

/-- Parameters are not refused for the depth of the nesting. -/
theorem readParameters_ne_tooDeep :
    (readMembers readParameter).run c ≠ (.error ⟨.nestingTooDeep limit, position⟩, stop) := by
  intro hrun
  have hparameter {c : Cursor} :
      readParameter.run c ≠ (.error ⟨.nestingTooDeep limit, position⟩, stop) := by
    intro hparameter
    obtain ⟨-, hpure⟩ := of_expectPeek_tooDeep hparameter
    cases hpure
  rcases readMembers_error (fun _ _ => True) (fun hid => ⟨_, (readParameter_ok hid).1, trivial⟩)
      (fun _ _ hid => ⟨_, (readParameter_ok hid).1, trivial⟩) hrun with
    hfirst | ⟨_, _, _, -, -, ⟨-, hlater⟩ | hclosing⟩
  · exact hparameter hfirst
  · exact hparameter hlater
  · obtain ⟨-, hdiagnostic, -⟩ := run_expectPeek_eq_error_iff.mp hclosing
    cases hdiagnostic

theorem readFunction (h : inner.Entered levels) {power : Power} (hkind : c.peek.kind = .kwFn)
    (hrun : inner.readFunction.run c.advance =
      (.error ⟨.nestingTooDeep limit, position⟩, stop)) :
    limit = nestingLimit ∧ c.Enters (.expr power) (levels + 1) position := by
  simp only [Level.readFunction, run_current_bind] at hrun
  obtain ⟨hopening, hrest⟩ := of_expectPeek_tooDeep hrun
  have hhead : c.Takes [c.peek, c.advance.peek] c.advance.advance :=
    (Cursor.Takes.single (by simp [hkind])).snoc (by simp [hopening])
  rcases run_bind_eq_error_iff.mp hrest with hparameters | ⟨_, between, hparameters, hrest⟩
  · exact absurd hparameters readParameters_ne_tooDeep
  · obtain ⟨first, closing, htakesFirst, hclosing, hfirst⟩ := readParameters_ok hparameters
    obtain ⟨hcurly, hrest⟩ := of_expectPeek_tooDeep hrest
    rcases run_bind_eq_error_iff.mp hrest with hbody | ⟨_, _, _, hpure⟩
    · obtain ⟨hlimit, henters⟩ := h.block hcurly hbody
      refine ⟨hlimit, henters.later (hhead.append htakesFirst) fun _ hrest => ?_⟩
      simpa using Entering.body hkind hopening hfirst hclosing hrest
    · cases hpure

/-- The rule of the first token enters what stands inside. -/
theorem readPrefix (h : inner.Entered levels) {power : Power} {rule : PrefixRule}
    (hrule : Table.standard.prefixRule c.peek.kind = some rule)
    (hrun : (inner.readPrefix rule).run c.advance =
      (.error ⟨.nestingTooDeep limit, position⟩, stop)) :
    limit = nestingLimit ∧ c.Enters (.expr power) (levels + 1) position := by
  have hkind := Table.kind_of_prefixRule hrule
  cases rule with
  | identifier => cases hrun
  | integer =>
    simp only [Level.readPrefix, readInteger, run_current_bind] at hrun
    split at hrun <;> cases hrun
  | boolean => cases hrun
  | prefixOp => exact h.readPrefixOp hkind hrun
  | grouping => exact h.readGrouping hkind hrun
  | conditional => exact h.readConditional hkind hrun
  | function => exact h.readFunction hkind hrun

/-- What is entered after an operator is its right operand. -/
theorem readInfixOp (h : inner.Entered levels) {power : Power} {start : Cursor} {left : Expr}
    (hleft : Sound.ReadSoFar levels power c left start)
    (hrule : Table.standard.infixRuleAbove power start.peek.kind = some .infixOp)
    (hrun : (inner.readInfixOp Table.standard left).run start.advance =
      (.error ⟨.nestingTooDeep limit, position⟩, stop)) :
    limit = nestingLimit ∧ c.Enters (.expr power) (levels + 1) position := by
  obtain ⟨stratum, first, m, htakes, hderives, -, -, hfollow⟩ := hleft
  obtain ⟨hlt, other, hmem⟩ := Table.exists_stratum_of_infixOp hrule
  rw [Table.power_of_mem_operators hmem] at hlt hfollow
  simp only [Level.readInfixOp, run_current_bind, run_advance_bind] at hrun
  rcases run_bind_eq_error_iff.mp hrun with hright | ⟨_, _, _, hpure⟩
  · rw [Cursor.current_advance, Table.power_of_mem_operators hmem] at hright
    obtain ⟨hlimit, henters⟩ := h.expr hright
    have htakes := htakes.snoc (Kind.plain_of_mem_operators hmem).1.1
    refine ⟨hlimit, henters.later htakes fun _ hrest => ?_⟩
    simpa using Entering.rightOperand (hderives.weaken (Stratum.le_of_power_le hmem hfollow)) hmem
      hlt hrest
  · cases hpure

theorem readArgument (h : inner.Entered levels)
    (hrun : inner.readArgument.run c = (.error ⟨.nestingTooDeep limit, position⟩, stop)) :
    limit = nestingLimit ∧ c.Enters (.expr .lowest) levels position := by
  rw [Level.readArgument, run_advance_bind] at hrun
  exact h.expr hrun

/-- What is entered after the parenthesis of a call is one of the arguments. -/
theorem readCall (h : inner.Entered levels) {power : Power} {start : Cursor} {callee : Expr}
    (hcallee : Sound.ReadSoFar levels power c callee start)
    (hrule : Table.standard.infixRuleAbove power start.peek.kind = some .call)
    (hrun : (inner.readCall callee).run start.advance =
      (.error ⟨.nestingTooDeep limit, position⟩, stop)) :
    limit = nestingLimit ∧ c.Enters (.expr power) (levels + 1) position := by
  obtain ⟨stratum, first, m, htakes, hderives, -, -, hfollow⟩ := hcallee
  have hopening := Table.eq_openParen_of_call hrule
  rw [hopening] at hfollow
  have hderives := hderives.weaken (Stratum.call_le_of_power_le hfollow)
  have htakes := htakes.snoc (by simp [hopening])
  simp only [Level.readCall, run_current_bind] at hrun
  rcases run_bind_eq_error_iff.mp hrun with hmembers | ⟨_, _, _, hpure⟩
  · have hfailure := readMembers_error
      (fun trees tokens => ∃ nesting, Derives (.someArguments trees) tokens nesting)
      ?_ ?_ hmembers
    · rcases hfailure with hfirst | ⟨trees, second, between, htakesSecond, ⟨k, hsecond⟩, hlast⟩
      · obtain ⟨hlimit, henters⟩ := h.readArgument hfirst
        refine ⟨hlimit, henters.later htakes fun _ hrest => ?_⟩
        simpa using Entering.firstArgument hderives hopening hrest
      · rcases hlast with ⟨hcomma, hlater⟩ | hclosing
        · obtain ⟨hlimit, henters⟩ := h.readArgument hlater
          have htakes := htakes.append (htakesSecond.snoc (by simp [hcomma]))
          refine ⟨hlimit, henters.later htakes fun _ hrest => ?_⟩
          simpa using Entering.laterArgument hderives hopening hsecond hcomma hrest
        · obtain ⟨-, hdiagnostic, -⟩ := run_expectPeek_eq_error_iff.mp hclosing
          cases hdiagnostic
    · intro c stop tree htree
      obtain ⟨tokens, nesting, htakes, hderives, -⟩ := h.sound.readArgument htree
      exact ⟨tokens, htakes, nesting + 1, .oneArgument hderives⟩
    · rintro c stop before first comma tree ⟨m, hbefore⟩ hcomma htree
      obtain ⟨tokens, nesting, htakes, hderives, -⟩ := h.sound.readArgument htree
      exact ⟨tokens, htakes, _, .moreArguments hbefore hcomma hderives⟩
  · cases hpure

theorem readExpr (h : inner.Entered levels) {power : Power}
    (hrun : (inner.readExpr Table.standard power).run c.advance =
      (.error ⟨.nestingTooDeep limit, position⟩, stop)) :
    limit = nestingLimit ∧ c.Enters (.expr power) (levels + 1) position := by
  simp only [Level.readExpr, run_current_bind, Cursor.current_advance] at hrun
  split at hrun
  · simp only [run_fail, refusal] at hrun
    split at hrun <;> cases hrun
  · rename_i rule hrule
    rcases run_bind_eq_error_iff.mp hrun with hfirst | ⟨first, afterFirst, hfirst, hloop⟩
    · exact h.readPrefix hrule hfirst
    · obtain ⟨before, start, found, hbefore, htest, -, hbody⟩ :=
        run_whileNext_error (Sound.ReadSoFar levels power c)
          (h.sound.readSoFar_of_readPrefix hrule hfirst power)
          (fun hbefore htest _ hbody => h.sound.readInfix hbefore htest hbody) hloop
      cases found with
      | infixOp => exact h.readInfixOp hbefore htest hbody
      | call => exact h.readCall hbefore htest hbody

/-- A missing semicolon is not refused for the depth of the nesting. -/
theorem expectTerminator_ne_tooDeep :
    Routine.expectTerminator.run c ≠ (.error ⟨.nestingTooDeep limit, position⟩, stop) := by
  intro hrun
  rw [run_expectTerminator] at hrun
  split at hrun
  · cases hrun
  · obtain ⟨-, hdiagnostic, -⟩ := run_expectPeek_eq_error_iff.mp hrun
    cases hdiagnostic

/-- What is entered in a statement with a value is the value. -/
theorem of_value (h : inner.Entered levels) {next : Expr → Stmt}
    (hrun : (do
      let value ← inner.expr .lowest
      Routine.expectTerminator
      return next value).run c.advance = (.error ⟨.nestingTooDeep limit, position⟩, stop)) :
    limit = nestingLimit ∧ c.Enters (.expr .lowest) levels position := by
  rcases run_bind_eq_error_iff.mp hrun with hvalue | ⟨_, _, _, hrest⟩
  · exact h.expr hvalue
  · rcases run_bind_eq_error_iff.mp hrest with hend | ⟨_, _, _, hpure⟩
    · exact absurd hend expectTerminator_ne_tooDeep
    · cases hpure

theorem readBinding (h : inner.Entered levels) (hkind : c.peek.kind = .kwLet)
    (hrun : inner.readBinding.run c.advance =
      (.error ⟨.nestingTooDeep limit, position⟩, stop)) :
    limit = nestingLimit ∧ c.Enters .stmt levels position := by
  simp only [Level.readBinding, run_current_bind] at hrun
  obtain ⟨hname, hrest⟩ := of_expectPeek_tooDeep hrun
  rw [run_current_bind] at hrest
  obtain ⟨hassignment, hrest⟩ := of_expectPeek_tooDeep hrest
  rw [run_advance_bind] at hrest
  obtain ⟨hlimit, henters⟩ := h.of_value hrest
  have hhead : c.Takes [c.peek, c.advance.peek, c.advance.advance.peek] c.advance.advance.advance :=
    ((Cursor.Takes.single (by simp [hkind])).snoc (by simp [hname])).snoc (by simp [hassignment])
  exact ⟨hlimit, henters.later hhead fun _ hrest => .binding hkind hname hassignment hrest⟩

theorem readReturning (h : inner.Entered levels) (hkind : c.peek.kind = .kwReturn)
    (hrun : inner.readReturning.run c.advance =
      (.error ⟨.nestingTooDeep limit, position⟩, stop)) :
    limit = nestingLimit ∧ c.Enters .stmt levels position := by
  have hkw : c.Takes [c.peek] c.advance := .single (by simp [hkind])
  simp only [Level.readReturning, run_current_bind, run_here_bind] at hrun
  split at hrun
  · rcases run_bind_eq_error_iff.mp hrun with hend | ⟨_, _, _, hpure⟩
    · exact absurd hend expectTerminator_ne_tooDeep
    · cases hpure
  · rw [run_advance_bind] at hrun
    obtain ⟨hlimit, henters⟩ := h.of_value hrun
    exact ⟨hlimit, henters.later hkw fun _ hrest => .returning hkind hrest⟩

theorem readExpression (h : inner.Entered levels)
    (hrun : inner.readExpression.run c.advance =
      (.error ⟨.nestingTooDeep limit, position⟩, stop)) :
    limit = nestingLimit ∧ c.Enters .stmt levels position := by
  simp only [Level.readExpression, run_current_bind] at hrun
  rcases run_bind_eq_error_iff.mp hrun with hvalue | ⟨_, _, _, hrest⟩
  · obtain ⟨hlimit, henters⟩ := h.expr hvalue
    exact ⟨hlimit, henters.later (.nil c) fun _ hrest => .expression hrest⟩
  · simp only [run_peekKind_bind] at hrest
    split at hrest <;> cases hrest

theorem readStmt (h : inner.Entered levels)
    (hrun : inner.readStmt.run c.advance = (.error ⟨.nestingTooDeep limit, position⟩, stop)) :
    limit = nestingLimit ∧ c.Enters .stmt levels position := by
  simp only [Level.readStmt, run_current_bind, Cursor.current_advance] at hrun
  split at hrun
  · exact h.readBinding ‹_› hrun
  · exact h.readReturning ‹_› hrun
  · exact h.readExpression hrun

/-- Statements up to a closing brace are refused for the depth of the nesting in one of them. -/
theorem readStmts (h : inner.Entered levels) (hinside : 0 < c.openBraces)
    (hrun : (LetScript.readStmts inner.readStmt).run c.advance =
      (.error ⟨.nestingTooDeep limit, position⟩, stop)) :
    limit = nestingLimit ∧ ∃ trees tokens nesting between, c.Takes tokens between ∧
      Derives (.stmts true between.peek.kind trees) tokens nesting ∧
        between.Enters .stmt levels position := by
  revert hinside
  refine run_readStmts_error ?_ ?_ ?_ hrun
  · intro c _ hdiagnostic
    cases hdiagnostic
  · intro c _ hfirst _
    obtain ⟨hlimit, henters⟩ := h.readStmt hfirst
    exact ⟨hlimit, [], [], 0, c, .nil c, .noStmts, henters⟩
  · intro c after first _ hfirst ih hinside
    obtain ⟨tokens, m, htakes, hderives, -⟩ :=
      h.sound.readStmt (decide_eq_true hinside).symm hfirst
    have hbraces := htakes.openBraces_of_balanced hderives.balanced
    obtain ⟨hlimit, trees, more, n, between, htakesMore, hmore, henters⟩ :=
      ih (hbraces ▸ hinside)
    rw [htakesMore.peek_kind_eq] at hderives
    exact ⟨hlimit, first :: trees, tokens ++ more, max m n, between, htakes.append htakesMore,
      .moreStmts hderives hmore, henters⟩

theorem readBlock (h : inner.Entered levels) (hkind : c.peek.kind = .openCurly)
    (hrun : inner.readBlock.run c.advance = (.error ⟨.nestingTooDeep limit, position⟩, stop)) :
    limit = nestingLimit ∧ c.Enters .block (levels + 1) position := by
  simp only [Level.readBlock, run_current_bind, run_advance_bind] at hrun
  rcases run_bind_eq_error_iff.mp hrun with hstmts | ⟨_, _, _, hpure⟩
  · have hopening : c.Takes [c.peek] c.advance := .single (by simp [hkind])
    obtain ⟨hlimit, trees, tokens, nesting, between, htakes, hderives, henters⟩ :=
      h.readStmts (Cursor.openBraces_advance_pos hkind) hstmts
    refine ⟨hlimit, henters.later (hopening.append htakes) fun _ hrest => ?_⟩
    simpa using Entering.statement hkind hderives hrest
  · cases hpure

end Entered

end Level

/-- Every level fails for the depth of the nesting only where all of its frames are open. -/
theorem Table.entered_level (levels : Nat) : (standard.level levels).Entered levels := by
  induction levels with
  | zero =>
    constructor
    · exact sound_level 0
    · intro power c stop limit position hrun
      cases hrun
      exact ⟨rfl, [], c, .nil c, .expr power, rfl⟩
    · intro c stop limit position _ hrun
      cases hrun
      exact ⟨rfl, [], c, .nil c, .block, rfl⟩
  | succ levels ih => exact ⟨sound_level _, ih.readExpr, ih.readBlock⟩

end LetScript
