import LetScript.Grammar.Statement
import LetScript.Proofs.Outcome
import LetScript.Proofs.Strata

/-!
# What is derived is read

A phrase is read from its tokens with one token of lookahead and without ever going back: as long
as its frames fit into the levels that are free, the routine for it gives exactly its tree and
stops on its last token, and otherwise it fails for the depth of the nesting. The induction is
over the derivation.

The left operand of an operator is read by the loop that then reads the operator. Hence the
statement about an expression is not that reading gives its tree, but that reading does what the
loop does from the last token on, once it has the tree; the arguments of a call are treated alike.
-/

namespace LetScript

open Routine

/-- How a run may turn out that gives `good` if the frames fit: as `good` or, if the frames do not
fit, by failing for their number. -/
inductive Gives {α : Type} (fits : Prop) (good : Except Diagnostic α × Cursor) :
    Except Diagnostic α × Cursor → Prop where
  | good : fits → Gives fits good good
  | tooDeep {diagnostic : Diagnostic} {stop : Cursor} : ¬ fits →
      diagnostic.cause = .nestingTooDeep nestingLimit →
        Gives fits good (.error diagnostic, stop)

namespace Gives

variable {α β : Type} {fits fits' : Prop}

theorem of_iff {good outcome : Except Diagnostic α × Cursor} (h : Gives fits good outcome)
    (hfits : fits ↔ fits') : Gives fits' good outcome := by
  cases h with
  | good h => exact .good (hfits.mp h)
  | tooDeep h hcause => exact .tooDeep (mt hfits.mpr h) hcause

/-- What gives a run that gives `good` gives `good`, if the frames of both fit. -/
theorem trans {good middle outcome : Except Diagnostic α × Cursor}
    (h : Gives fits middle outcome) (h' : Gives fits' good middle) :
    Gives (fits ∧ fits') good outcome := by
  cases h with
  | good h =>
    cases h' with
    | good h' => exact .good ⟨h, h'⟩
    | tooDeep h' hcause => exact .tooDeep (fun hboth => h' hboth.2) hcause
  | tooDeep h hcause => exact .tooDeep (fun hboth => h hboth.1) hcause

/-- When the first part of a routine gives a value, the whole gives what the rest gives after
it. -/
theorem bind {first : Routine α} {c between : Cursor} {value : α}
    (h : Gives fits (.ok value, between) (first.run c)) (next : α → Routine β) :
    Gives fits ((next value).run between) ((first >>= next).run c) := by
  generalize houtcome : first.run c = outcome at h
  cases h with
  | good h =>
    rw [run_bind_of_ok houtcome]
    exact .good h
  | tooDeep h hcause =>
    rw [run_bind_of_error houtcome]
    exact .tooDeep h hcause

/-- When the first part gives a value and the rest is certain to give `good`, the whole gives
`good`. -/
theorem bind_of_eq {first : Routine α} {c between : Cursor} {value : α} {next : α → Routine β}
    {good : Except Diagnostic β × Cursor}
    (h : Gives fits (.ok value, between) (first.run c))
    (hnext : (next value).run between = good) : Gives fits good ((first >>= next).run c) :=
  hnext ▸ h.bind next

/-- When the first part gives a value and the rest gives `good`, the whole gives `good`. -/
theorem andThen {first : Routine α} {c between : Cursor} {value : α} {next : α → Routine β}
    {good : Except Diagnostic β × Cursor}
    (h : Gives fits (.ok value, between) (first.run c))
    (hnext : Gives fits' good ((next value).run between)) :
    Gives (fits ∧ fits') good ((first >>= next).run c) :=
  (h.bind next).trans hnext

end Gives

/-- The loop over the operators that follow an expression. -/
def Level.readOperators (inner : Level) (power : Power) (left : Expr) : Routine Expr :=
  whileNext (fun cursor => Table.standard.infixRuleAbove power cursor.peek.kind)
    (inner.readInfix Table.standard) left

/-- The loop over the members after the first. -/
def readMoreMembers {α : Type} (member : Routine α) (members : List α) : Routine (List α) :=
  whileNext (fun cursor => if cursor.peek.kind = .comma then some () else none)
    (fun _ members => return members ++ [← member]) members

/-- What a conditional reads after its first block. -/
def Level.readAlternative (inner : Level) (token : Token) (condition : Expr)
    (consequence : Block) : Routine Expr := do
  if (← peekKind) = .kwElse then
    advance
    expectPeek .openCurly
    let alternative ← inner.block
    return .conditional token condition consequence (some alternative)
  else
    return .conditional token condition consequence none

/-- What reading a phrase gives: its tree at its last token or, for what a loop goes on with,
what the loop gives there. -/
def Phrase.Read (tokens : List Token) (nesting : Nat) : Phrase → Prop
  | .expr stratum tree => ∀ (levels : Nat) {power : Power} {c stop : Cursor}, power ≠ .call →
      Stratum.above power ≤ stratum → c.Takes tokens stop →
        Table.standard.power stop.peek.kind ≤ stratum.power → stop.peek.kind ≠ .kwElse →
          Gives (nesting ≤ levels)
            (((Table.standard.level levels).readOperators power tree).run stop)
            (((Table.standard.level levels).readExpr Table.standard power).run c.advance)
  | .someArguments trees => ∀ (levels : Nat) {c stop : Cursor}, c.Takes tokens stop →
      stop.peek.kind = .comma ∨ stop.peek.kind = .closeParen →
        Gives (nesting ≤ levels)
          ((readMoreMembers (Table.standard.level levels).readArgument trees).run stop)
          (((Table.standard.level levels).readArgument >>= fun tree =>
            readMoreMembers (Table.standard.level levels).readArgument [tree]).run c)
  | .arguments trees => ∀ (levels : Nat) {c stop : Cursor} {closing : Token},
      closing.kind = .closeParen → c.Takes (tokens ++ [closing]) stop →
        Gives (nesting ≤ levels) (.ok trees, stop)
          ((readMembers (Table.standard.level levels).readArgument).run c)
  | .block tree => ∀ (levels : Nat) {c stop : Cursor}, c.Takes tokens stop →
      c.peek.kind = .openCurly ∧ Gives (nesting ≤ levels) (.ok tree, stop)
        ((Table.standard.level levels).block.run c.advance)
  | .stmt inside next tree => ∀ (levels : Nat) {c stop : Cursor}, c.Takes tokens stop →
      stop.peek.kind = next → next ≠ .kwElse → next ≠ .semicolon →
        inside = decide (0 < c.openBraces) →
          Gives (nesting ≤ levels) (.ok tree, stop)
            ((Table.standard.level levels).readStmt.run c.advance)
  | .stmts inside next trees => ∀ (levels : Nat) {c stop : Cursor} {closing : Token},
      closing.kind = .closeCurly → (inside, next) = (true, .closeCurly) → 0 < c.openBraces →
        c.Takes (tokens ++ [closing]) stop →
          Gives (nesting ≤ levels) (.ok trees, stop)
            ((readStmts (Table.standard.level levels).readStmt).run c.advance)

namespace Level

/-- The loop over the operators ends before a token that binds no tighter. -/
theorem run_readOperators_of_le {inner : Level} {power : Power} {c : Cursor}
    (h : Table.standard.power c.peek.kind ≤ power) (left : Expr) :
    (inner.readOperators power left).run c = (.ok left, c) :=
  run_whileNext_of_eq_none (Table.infixRuleAbove_eq_none_iff.mpr h) _ _

/-- The loop over the operators goes on with a token that has a rule. -/
theorem run_readOperators_of_rule {inner : Level} {power : Power} {c : Cursor} {rule : InfixRule}
    (h : Table.standard.infixRuleAbove power c.peek.kind = some rule) (hleft : c.tokens ≠ [])
    (left : Expr) :
    (inner.readOperators power left).run c =
      (inner.readInfix Table.standard rule left >>= inner.readOperators power).run c.advance :=
  run_whileNext_of_eq_some h hleft _ _

/-- An expression is read by the rule of its first token and then by the loop over operators. -/
theorem run_readExpr_of_rule {inner : Level} {power : Power} {c : Cursor} {rule : PrefixRule}
    (h : Table.standard.prefixRule c.current.kind = some rule) :
    (inner.readExpr Table.standard power).run c =
      (inner.readPrefix rule >>= inner.readOperators power).run c := by
  rw [readExpr, run_current_bind, h]
  rfl

/-- An expression that the rule of its first token reads whole. -/
theorem gives_of_rule {levels nesting : Nat} {power : Power} {c stop : Cursor} {tree : Expr}
    {rule : PrefixRule} (hrule : Table.standard.prefixRule c.peek.kind = some rule)
    (h : Gives (nesting ≤ levels) (.ok tree, stop)
      (((Table.standard.level levels).readPrefix rule).run c.advance)) :
    Gives (nesting ≤ levels)
      (((Table.standard.level levels).readOperators power tree).run stop)
      (((Table.standard.level levels).readExpr Table.standard power).run c.advance) := by
  rw [run_readExpr_of_rule (c := c.advance) hrule]
  exact h.bind _

/-- A nested expression takes a level of its own. -/
theorem gives_expr (levels : Nat) {nesting : Nat} {power : Power} {stratum : Stratum}
    {c stop : Cursor} {tree : Expr} {tokens : List Token}
    (h : Phrase.Read tokens nesting (.expr stratum tree)) (hpower : power ≠ .call)
    (habove : Stratum.above power ≤ stratum) (htakes : c.Takes tokens stop)
    (hend : Table.standard.power stop.peek.kind ≤ power)
    (hfollow : Table.standard.power stop.peek.kind ≤ stratum.power)
    (helse : stop.peek.kind ≠ .kwElse) :
    Gives (nesting + 1 ≤ levels) (.ok tree, stop)
      (((Table.standard.level levels).expr power).run c.advance) := by
  cases levels with
  | zero => exact .tooDeep (by omega) rfl
  | succ levels =>
    have hgives := h levels hpower habove htakes hfollow helse
    rw [run_readOperators_of_le hend] at hgives
    exact hgives.of_iff (by omega)

/-- A nested expression in surroundings that bind nothing, before a token that continues none. -/
theorem gives_expr_lowest (levels : Nat) {nesting : Nat} {c stop : Cursor} {tree : Expr}
    {tokens : List Token} (h : Phrase.Read tokens nesting (.expr .equality tree))
    (htakes : c.Takes tokens stop) (hend : Table.standard.power stop.peek.kind ≤ .lowest)
    (helse : stop.peek.kind ≠ .kwElse) :
    Gives (nesting + 1 ≤ levels) (.ok tree, stop)
      (((Table.standard.level levels).expr .lowest).run c.advance) :=
  gives_expr levels h (by decide) (by decide) htakes hend
    (Power.le_trans hend (Power.lowest_le _)) helse

variable {levels : Nat}

theorem gives_prefixOp {nesting : Nat} {c stop : Cursor} {op : Token} {tokens : List Token}
    {right : Expr} (h : Phrase.Read tokens nesting (.expr .unary right))
    (htakes : c.Takes (op :: tokens) stop)
    (hfollow : Table.standard.power stop.peek.kind ≤ .unary) (helse : stop.peek.kind ≠ .kwElse) :
    Gives (nesting + 1 ≤ levels) (.ok (.prefixOp op op.literal right), stop)
      ((Table.standard.level levels).readPrefixOp.run c.advance) := by
  obtain rfl := htakes.peek_eq
  have hright := gives_expr levels h (by decide) (by decide) htakes.of_advance hfollow
    hfollow helse
  simp only [readPrefixOp, run_current_bind, run_advance_bind]
  exact hright.bind_of_eq rfl

theorem gives_grouping {nesting : Nat} {c stop : Cursor} {opening closing : Token}
    {tokens : List Token} {tree : Expr}
    (h : Phrase.Read tokens nesting (.expr .equality tree))
    (hclosing : closing.kind = .closeParen)
    (htakes : c.Takes (opening :: (tokens ++ [closing])) stop) :
    Gives (nesting + 1 ≤ levels) (.ok tree, stop)
      ((Table.standard.level levels).readGrouping.run c.advance) := by
  obtain ⟨last, htokens, hlast⟩ := htakes.of_advance.split
  obtain rfl := hlast.eq_advance
  obtain rfl := hlast.peek_eq
  have htree := gives_expr_lowest levels h htokens (by rw [hclosing]; decide)
    (by simp [hclosing])
  simp only [readGrouping, run_advance_bind]
  refine htree.bind_of_eq ?_
  rw [run_expectPeek_bind_of_eq hclosing]
  rfl

/-- A condition in parentheses and a block after it, as a conditional starts. -/
theorem gives_condition (levels : Nat) {β : Type} {m n : Nat} {c stop : Cursor}
    {opening closing : Token} {first second : List Token} {condition : Expr} {consequence : Block}
    (hcondition : Phrase.Read first m (.expr .equality condition))
    (hconsequence : Phrase.Read second n (.block consequence))
    (hopening : opening.kind = .openParen) (hclosing : closing.kind = .closeParen)
    (htakes : c.Takes (opening :: (first ++ closing :: second)) stop)
    (next : Expr → Block → Routine β) :
    Gives (m + 1 ≤ levels ∧ n ≤ levels) ((next condition consequence).run stop)
      ((do
        expectPeek .openParen
        advance
        let condition ← (Table.standard.level levels).expr .lowest
        expectPeek .closeParen
        expectPeek .openCurly
        let consequence ← (Table.standard.level levels).block
        next condition consequence).run c) := by
  obtain rfl := htakes.peek_eq
  obtain ⟨between, hfirst, hrest⟩ := htakes.of_advance.split
  obtain rfl := hrest.peek_eq
  obtain ⟨hcurly, hblock⟩ := hconsequence levels hrest.of_advance
  rw [run_expectPeek_bind_of_eq hopening, run_advance_bind]
  refine (gives_expr_lowest levels hcondition hfirst (by rw [hclosing]; decide)
    (by simp [hclosing])).andThen ?_
  rw [run_expectPeek_bind_of_eq hclosing, run_expectPeek_bind_of_eq hcurly]
  exact hblock.bind _

theorem gives_conditional {m n : Nat} {c stop : Cursor} {kw opening closing : Token}
    {first second : List Token} {condition : Expr} {consequence : Block}
    (hcondition : Phrase.Read first m (.expr .equality condition))
    (hconsequence : Phrase.Read second n (.block consequence))
    (hopening : opening.kind = .openParen) (hclosing : closing.kind = .closeParen)
    (htakes : c.Takes (kw :: opening :: (first ++ closing :: second)) stop)
    (helse : stop.peek.kind ≠ .kwElse) :
    Gives (max (m + 1) n ≤ levels)
      (.ok (.conditional kw condition consequence none), stop)
      ((Table.standard.level levels).readConditional.run c.advance) := by
  obtain rfl := htakes.peek_eq
  simp only [readConditional, run_current_bind]
  have hgives := gives_condition levels hcondition hconsequence hopening hclosing
    htakes.of_advance ((Table.standard.level levels).readAlternative c.peek)
  rw [readAlternative, run_peekKind_bind, if_neg helse] at hgives
  exact hgives.of_iff (by omega)

theorem gives_conditionalElse {m n k : Nat} {c stop : Cursor} {kw opening closing kwElse : Token}
    {first second third : List Token} {condition : Expr} {consequence alternative : Block}
    (hcondition : Phrase.Read first m (.expr .equality condition))
    (hconsequence : Phrase.Read second n (.block consequence))
    (halternative : Phrase.Read third k (.block alternative))
    (hopening : opening.kind = .openParen) (hclosing : closing.kind = .closeParen)
    (helse : kwElse.kind = .kwElse)
    (htakes : c.Takes (kw :: opening :: (first ++ closing :: (second ++ kwElse :: third))) stop) :
    Gives (max (m + 1) (max n k) ≤ levels)
      (.ok (.conditional kw condition consequence (some alternative)), stop)
      ((Table.standard.level levels).readConditional.run c.advance) := by
  rw [show kw :: opening :: (first ++ closing :: (second ++ kwElse :: third)) =
    (kw :: opening :: (first ++ closing :: second)) ++ kwElse :: third by simp] at htakes
  obtain ⟨between, hhead, hrest⟩ := htakes.split
  obtain rfl := hhead.peek_eq
  obtain rfl := hrest.peek_eq
  obtain ⟨hcurly, hblock⟩ := halternative levels hrest.of_advance
  simp only [readConditional, run_current_bind]
  have hgives := gives_condition levels hcondition hconsequence hopening hclosing
    hhead.of_advance ((Table.standard.level levels).readAlternative c.peek)
  rw [readAlternative, run_peekKind_bind, if_pos helse, run_advance_bind,
    run_expectPeek_bind_of_eq hcurly]
    at hgives
  exact (hgives.trans (hblock.bind_of_eq rfl)).of_iff (by omega)

end Level

/-- The loop over members ends before the closing parenthesis. -/
theorem run_readMoreMembers_of_closeParen {α : Type} {c : Cursor}
    (h : c.peek.kind = .closeParen) (member : Routine α) (members : List α) :
    (readMoreMembers member members).run c = (.ok members, c) :=
  run_whileNext_of_eq_none (by simp [h]) _ _

/-- The loop over members goes on with a comma. -/
theorem run_readMoreMembers_of_comma {α : Type} {c : Cursor} (h : c.peek.kind = .comma)
    (member : Routine α) (members : List α) :
    (readMoreMembers member members).run c =
      (member >>= fun a => readMoreMembers member (members ++ [a])).run c.advance := by
  have hkind : c.peek.kind ≠ .eof := by simp [h]
  obtain ⟨rest, htail⟩ := Cursor.exists_tail_eq hkind
  have hleft : c.tokens ≠ [] := by
    intro hnil
    simp [hnil] at htail
  have hsome : (if c.peek.kind = .comma then some () else none) = some () := if_pos h
  rw [readMoreMembers, run_whileNext_of_eq_some hsome hleft, bind_assoc]
  rfl

/-- Where members are read, the first and then the loop give what stands in the parentheses. -/
theorem run_readMembers_of_ne {α : Type} {c : Cursor} (h : c.peek.kind ≠ .closeParen)
    (member : Routine α) :
    (readMembers member).run c =
      ((member >>= fun a => readMoreMembers member [a]) >>= fun members => do
        expectPeek .closeParen
        return members).run c := by
  rw [readMembers, run_peekKind_bind, if_neg h, bind_assoc]
  rfl

/-- Names with a comma between each two are read as parameters. -/
theorem Names.run_readMoreMembers {parameters : List Identifier} {tokens : List Token}
    (h : Names parameters tokens) {c stop : Cursor} (htakes : c.Takes tokens stop) :
    (readParameter >>= fun id => readMoreMembers readParameter [id]).run c =
      (readMoreMembers readParameter parameters).run stop := by
  induction h generalizing stop with
  | one hname =>
    obtain rfl := htakes.eq_advance
    obtain rfl := htakes.peek_eq
    rw [readParameter, bind_assoc, run_expectPeek_bind_of_eq hname]
    rfl
  | more _ hcomma hname ih =>
    obtain ⟨between, hfirst, hrest⟩ := htakes.split
    obtain rfl := hrest.of_advance.eq_advance
    obtain rfl := hrest.peek_eq
    obtain rfl := hrest.of_advance.peek_eq
    rw [ih hfirst, run_readMoreMembers_of_comma hcomma, readParameter, bind_assoc,
      run_expectPeek_bind_of_eq hname]
    rfl

/-- Parameters are read up to the closing parenthesis. -/
theorem Parameters.run_readMembers {parameters : List Identifier} {tokens : List Token}
    (h : Parameters parameters tokens) {c stop : Cursor} {closing : Token}
    (hclosing : closing.kind = .closeParen) (htakes : c.Takes (tokens ++ [closing]) stop) :
    (readMembers readParameter).run c = (.ok parameters, stop) := by
  obtain ⟨between, htokens, hlast⟩ := htakes.split
  obtain rfl := hlast.eq_advance
  obtain rfl := hlast.peek_eq
  cases h with
  | none =>
    cases htokens
    rw [readMembers, run_peekKind_bind, if_pos hclosing]
    rfl
  | some hnames =>
    have hfirst : c.peek.kind ≠ .closeParen := by
      rw [htokens.peek_kind_eq, hnames.firstKind_eq]
      decide
    rw [run_readMembers_of_ne hfirst, run_bind, hnames.run_readMoreMembers htokens,
      run_readMoreMembers_of_closeParen hclosing]
    exact run_expectPeek_bind_of_eq hclosing _

namespace Level

variable {levels : Nat}

theorem gives_function {n : Nat} {c stop : Cursor} {kw opening closing : Token}
    {first second : List Token} {parameters : List Identifier} {body : Block}
    (hparameters : Parameters parameters first)
    (hbody : Phrase.Read second n (.block body))
    (hopening : opening.kind = .openParen) (hclosing : closing.kind = .closeParen)
    (htakes : c.Takes (kw :: opening :: (first ++ closing :: second)) stop) :
    Gives (n ≤ levels) (.ok (.function kw parameters body), stop)
      ((Table.standard.level levels).readFunction.run c.advance) := by
  rw [show kw :: opening :: (first ++ closing :: second) =
    kw :: opening :: ((first ++ [closing]) ++ second) by simp] at htakes
  obtain rfl := htakes.peek_eq
  obtain rfl := htakes.of_advance.peek_eq
  obtain ⟨between, hfirst, hsecond⟩ := htakes.of_advance.of_advance.split
  obtain ⟨hcurly, hblock⟩ := hbody levels hsecond
  simp only [readFunction, run_current_bind]
  have hread := hparameters.run_readMembers hclosing hfirst
  rw [run_expectPeek_bind_of_eq hopening, run_bind_of_ok hread, run_expectPeek_bind_of_eq hcurly]
  exact hblock.bind_of_eq rfl

/-- An operator and its right operand, which is read with the operator's power. -/
theorem gives_infixOp {n : Nat} {power : Power} {stratum : Stratum} {c stop : Cursor}
    {op : Token} {tokens : List Token} {right : Expr} (left : Expr)
    (hop : op.kind ∈ stratum.operators)
    (hright : Phrase.Read tokens n (.expr stratum.tighter right))
    (habove : Stratum.above power ≤ stratum) (htakes : c.Takes (op :: tokens) stop)
    (hfollow : Table.standard.power stop.peek.kind ≤ stratum.power)
    (helse : stop.peek.kind ≠ .kwElse) :
    Gives (n + 1 ≤ levels)
      (((Table.standard.level levels).readOperators power
        (.infixOp op left op.literal right)).run stop)
      (((Table.standard.level levels).readOperators power left).run c) := by
  obtain rfl := htakes.peek_eq
  have hrule := Table.infixRuleAbove_of_mem_operators hop
    ((Stratum.above_le_iff hop power).mp habove)
  have habove : Stratum.above stratum.power ≤ stratum.tighter := by
    rw [Stratum.above_power hop]
    exact Nat.le_refl _
  have hoperand := gives_expr levels hright
    (by rcases Stratum.cases_of_mem_operators hop with rfl | rfl | rfl | rfl <;> decide)
    habove htakes.of_advance hfollow
    (Power.le_trans hfollow (Stratum.power_le_power (Stratum.le_tighter _))) helse
  rw [run_readOperators_of_rule hrule htakes.tokens_ne_nil]
  refine Gives.bind ?_ _
  simp only [readInfix, readInfixOp, run_current_bind, run_advance_bind, Cursor.current_advance,
    Table.power_of_mem_operators hop]
  exact hoperand.bind_of_eq rfl

/-- The arguments of a call. -/
theorem gives_call {n : Nat} {power : Power} {c stop : Cursor} {opening closing : Token}
    {tokens : List Token} {trees : List Expr} (callee : Expr)
    (harguments : Phrase.Read tokens n (.arguments trees)) (hpower : power ≠ .call)
    (hopening : opening.kind = .openParen) (hclosing : closing.kind = .closeParen)
    (htakes : c.Takes (opening :: (tokens ++ [closing])) stop) :
    Gives (n ≤ levels)
      (((Table.standard.level levels).readOperators power (.call opening callee trees)).run stop)
      (((Table.standard.level levels).readOperators power callee).run c) := by
  obtain rfl := htakes.peek_eq
  have hrule : Table.standard.infixRuleAbove power c.peek.kind = some .call := by
    rw [hopening]
    revert hpower
    cases power <;> decide
  rw [run_readOperators_of_rule hrule htakes.tokens_ne_nil]
  refine Gives.bind ?_ _
  simp only [readInfix, readCall, run_current_bind, Cursor.current_advance]
  exact (harguments levels hclosing htakes.of_advance).bind_of_eq rfl

theorem gives_oneArgument {n : Nat} {c stop : Cursor} {tokens : List Token} {tree : Expr}
    (h : Phrase.Read tokens n (.expr .equality tree)) (htakes : c.Takes tokens stop)
    (hend : stop.peek.kind = .comma ∨ stop.peek.kind = .closeParen) :
    Gives (n + 1 ≤ levels) (.ok tree, stop)
      ((Table.standard.level levels).readArgument.run c) := by
  rw [readArgument, run_advance_bind]
  rcases hend with hend | hend
  · exact gives_expr_lowest levels h htakes (by rw [hend]; decide) (by simp [hend])
  · exact gives_expr_lowest levels h htakes (by rw [hend]; decide) (by simp [hend])

theorem gives_moreArguments {n : Nat} {c stop : Cursor} {comma : Token} {tokens : List Token}
    {tree : Expr} (trees : List Expr) (h : Phrase.Read tokens n (.expr .equality tree))
    (hcomma : comma.kind = .comma) (htakes : c.Takes (comma :: tokens) stop)
    (hend : stop.peek.kind = .comma ∨ stop.peek.kind = .closeParen) :
    Gives (n + 1 ≤ levels)
      ((readMoreMembers (Table.standard.level levels).readArgument (trees ++ [tree])).run stop)
      ((readMoreMembers (Table.standard.level levels).readArgument trees).run c) := by
  obtain rfl := htakes.peek_eq
  rw [run_readMoreMembers_of_comma hcomma]
  exact (gives_oneArgument h htakes.of_advance hend).bind fun a =>
    readMoreMembers _ (trees ++ [a])

theorem gives_arguments {n : Nat} {c stop : Cursor} {closing : Token} {tokens : List Token}
    {trees : List Expr} (h : Phrase.Read tokens n (.someArguments trees))
    (hfirst : c.peek.kind ≠ .closeParen) (hclosing : closing.kind = .closeParen)
    (htakes : c.Takes (tokens ++ [closing]) stop) :
    Gives (n ≤ levels) (.ok trees, stop)
      ((readMembers (Table.standard.level levels).readArgument).run c) := by
  obtain ⟨between, htokens, hlast⟩ := htakes.split
  obtain rfl := hlast.eq_advance
  obtain rfl := hlast.peek_eq
  have hloop := h levels htokens (.inr hclosing)
  rw [run_readMoreMembers_of_closeParen hclosing] at hloop
  rw [run_readMembers_of_ne hfirst]
  exact hloop.bind_of_eq (run_expectPeek_bind_of_eq hclosing _)

/-- The end of a binding or a return is read. -/
theorem run_expectTerminator_of_terminator {c stop : Cursor} {inside : Bool} {tokens : List Token}
    (h : Terminator inside stop.peek.kind tokens) (htakes : c.Takes tokens stop)
    (hinside : inside = decide (0 < c.openBraces)) :
    Routine.expectTerminator.run c = (.ok (), stop) := by
  rw [run_expectTerminator]
  cases h with
  | semicolon hkind =>
    obtain rfl := htakes.eq_advance
    obtain rfl := htakes.peek_eq
    rw [if_neg (by simp [Cursor.peekEndsStatement, hkind]), run_expectPeek_of_eq hkind]
  | endOfInput hnext =>
    cases htakes
    rw [if_pos (by simp [Cursor.peekEndsStatement, hnext])]
  | endOfBlock htrue hnext =>
    cases htakes
    rw [if_pos (by simpa [Cursor.peekEndsStatement, hnext, htrue] using hinside)]

theorem power_le_lowest_of_terminator {next : Kind} {inside : Bool} {tokens : List Token}
    (h : Terminator inside next tokens) :
    Table.standard.power (firstKind tokens next) ≤ .lowest ∧ firstKind tokens next ≠ .kwElse := by
  cases h with
  | semicolon hkind =>
    rw [firstKind_cons, hkind]
    decide
  | endOfInput hnext =>
    rw [firstKind_nil, hnext]
    decide
  | endOfBlock _ hnext =>
    rw [firstKind_nil, hnext]
    decide

/-- A value and the end of the statement after it. -/
theorem gives_value {β : Type} {n : Nat} {c stop : Cursor} {inside : Bool}
    {first second : List Token} {value : Expr}
    (h : Phrase.Read first n (.expr .equality value)) (hfirst : Balanced first)
    (hend : Terminator inside stop.peek.kind second) (htakes : c.Takes (first ++ second) stop)
    (hinside : inside = decide (0 < c.openBraces)) (next : Expr → Routine β) :
    Gives (n + 1 ≤ levels) ((next value).run stop)
      ((do
        let value ← (Table.standard.level levels).expr .lowest
        expectTerminator
        next value).run c.advance) := by
  obtain ⟨between, htakesFirst, htakesSecond⟩ := htakes.split
  rw [← htakesFirst.openBraces_of_balanced hfirst] at hinside
  obtain ⟨hlowest, helse⟩ := power_le_lowest_of_terminator hend
  rw [← htakesSecond.peek_kind_eq] at hlowest helse
  refine (gives_expr_lowest levels h htakesFirst hlowest helse).bind_of_eq ?_
  exact run_bind_of_ok (run_expectTerminator_of_terminator hend htakesSecond hinside) _

theorem gives_binding {n : Nat} {c stop : Cursor} {inside : Bool} {kw name assignment : Token}
    {first second : List Token} {value : Expr}
    (h : Phrase.Read first n (.expr .equality value)) (hfirst : Balanced first)
    (hkw : kw.kind = .kwLet) (hname : name.kind = .identifier)
    (hassignment : assignment.kind = .assignment)
    (hend : Terminator inside stop.peek.kind second)
    (htakes : c.Takes (kw :: name :: assignment :: (first ++ second)) stop)
    (hinside : inside = decide (0 < c.openBraces)) :
    Gives (n + 1 ≤ levels) (.ok (.binding kw (.ofToken name) value), stop)
      ((Table.standard.level levels).readStmt.run c.advance) := by
  replace htakes : c.Takes ([kw, name, assignment] ++ (first ++ second)) stop := htakes
  obtain ⟨between, hhead, hrest⟩ := htakes.split
  have hbraces : Balanced [kw, name, assignment] :=
    .cons (by simp [hkw]) (by simp [hkw]) (.cons (by simp [hname]) (by simp [hname])
      (.single (by simp [hassignment]) (by simp [hassignment])))
  rw [← hhead.openBraces_of_balanced hbraces] at hinside
  obtain rfl := hhead.of_advance.of_advance.eq_advance
  obtain rfl := hhead.peek_eq
  obtain rfl := hhead.of_advance.peek_eq
  obtain rfl := hhead.of_advance.of_advance.peek_eq
  simp only [readStmt, run_current_bind, Cursor.current_advance, hkw, readBinding]
  rw [run_expectPeek_bind_of_eq hname, run_current_bind, run_expectPeek_bind_of_eq hassignment,
    run_advance_bind]
  exact gives_value h hfirst hend hrest hinside fun value =>
    pure (Stmt.binding c.peek (.ofToken c.advance.peek) value)

theorem gives_returningNothing {c stop : Cursor} {inside : Bool} {kw : Token}
    {tokens : List Token} (hkw : kw.kind = .kwReturn)
    (hend : Terminator inside stop.peek.kind tokens) (htakes : c.Takes (kw :: tokens) stop)
    (hinside : inside = decide (0 < c.openBraces)) :
    Gives (0 ≤ levels) (.ok (.returning kw none), stop)
      ((Table.standard.level levels).readStmt.run c.advance) := by
  replace htakes : c.Takes ([kw] ++ tokens) stop := htakes
  obtain ⟨between, hhead, hrest⟩ := htakes.split
  have hbraces : Balanced [kw] := .single (by simp [hkw]) (by simp [hkw])
  rw [← hhead.openBraces_of_balanced hbraces] at hinside
  obtain rfl := hhead.eq_advance
  obtain rfl := hhead.peek_eq
  have hends : c.advance.peek.kind = .semicolon ∨ c.advance.peekEndsStatement = true := by
    cases hend with
    | semicolon hkind => exact .inl (hrest.peek_eq ▸ hkind)
    | endOfInput hnext =>
      cases hrest
      exact .inr (by simp [Cursor.peekEndsStatement, hnext])
    | endOfBlock htrue hnext =>
      cases hrest
      exact .inr (by simpa [Cursor.peekEndsStatement, hnext, htrue] using hinside)
  simp only [readStmt, run_current_bind, Cursor.current_advance, hkw, readReturning,
    run_here_bind, if_pos hends]
  rw [run_bind_of_ok (run_expectTerminator_of_terminator hend hrest hinside)]
  exact .good (Nat.zero_le _)

theorem gives_returning {n : Nat} {c stop : Cursor} {inside : Bool} {kw token : Token}
    {first second : List Token} {value : Expr}
    (h : Phrase.Read (token :: first) n (.expr .equality value))
    (hfirst : Balanced (token :: first)) (hstart : token.kind.startsExpr = true)
    (hkw : kw.kind = .kwReturn) (hend : Terminator inside stop.peek.kind second)
    (htakes : c.Takes (kw :: (token :: first ++ second)) stop)
    (hinside : inside = decide (0 < c.openBraces)) :
    Gives (n + 1 ≤ levels) (.ok (.returning kw (some value)), stop)
      ((Table.standard.level levels).readStmt.run c.advance) := by
  replace htakes : c.Takes ([kw] ++ (token :: first ++ second)) stop := htakes
  obtain ⟨between, hhead, hrest⟩ := htakes.split
  have hbraces : Balanced [kw] := .single (by simp [hkw]) (by simp [hkw])
  rw [← hhead.openBraces_of_balanced hbraces] at hinside
  obtain rfl := hhead.eq_advance
  obtain rfl := hhead.peek_eq
  have hgoes : ¬ (c.advance.peek.kind = .semicolon ∨ c.advance.peekEndsStatement = true) := by
    rw [Cursor.peekEndsStatement, hrest.peek_eq]
    revert hstart
    cases token.kind <;> simp [Kind.startsExpr]
  simp only [readStmt, run_current_bind, Cursor.current_advance, hkw, readReturning,
    run_here_bind, if_neg hgoes, run_advance_bind]
  exact gives_value h hfirst hend hrest hinside fun value =>
    pure (Stmt.returning c.peek (some value))

theorem gives_expression {n : Nat} {c stop : Cursor} {token : Token} {first second : List Token}
    {value : Expr} (h : Phrase.Read (token :: first) n (.expr .equality value))
    (hstart : token.kind.startsExpr = true) (hend : LooseEnd stop.peek.kind second)
    (htakes : c.Takes (token :: (first ++ second)) stop) (helse : stop.peek.kind ≠ .kwElse)
    (hsemicolon : stop.peek.kind ≠ .semicolon) :
    Gives (n + 1 ≤ levels) (.ok (.expression token value), stop)
      ((Table.standard.level levels).readStmt.run c.advance) := by
  obtain rfl := htakes.peek_eq
  obtain ⟨hlet, hreturn, -⟩ := Kind.ne_of_startsExpr hstart
  replace htakes : c.Takes (c.peek :: first ++ second) stop := htakes
  obtain ⟨between, htakesFirst, htakesSecond⟩ := htakes.split
  have hread : (Table.standard.level levels).readStmt.run c.advance =
      (Table.standard.level levels).readExpression.run c.advance := by
    simp only [readStmt, run_current_bind, Cursor.current_advance]
  rw [hread, readExpression, run_current_bind]
  cases hend with
  | semicolon hkind =>
    obtain rfl := htakesSecond.eq_advance
    obtain rfl := htakesSecond.peek_eq
    refine (gives_expr_lowest levels h htakesFirst (by rw [hkind]; decide)
      (by simp [hkind])).bind_of_eq ?_
    rw [run_peekKind_bind, if_pos hkind]
    rfl
  | nothing hnext =>
    cases htakesSecond
    refine (gives_expr_lowest levels h htakesFirst (Table.power_le_lowest_iff.mpr hnext)
      helse).bind_of_eq ?_
    rw [run_peekKind_bind, if_neg hsemicolon]
    rfl

/-- A statement of a block, and then the others up to the closing brace. -/
theorem gives_moreStmts {m n : Nat} {c stop : Cursor} {first closing : Token}
    {rest second : List Token} {tree : Stmt} {trees : List Stmt}
    (hfirst : Phrase.Read (first :: rest) m (.stmt true (firstKind second .closeCurly) tree))
    (hrest : Phrase.Read second n (.stmts true .closeCurly trees))
    (hbalanced : Balanced (first :: rest)) (hstart : first.kind ≠ .closeCurly)
    (hfollow : firstKind second .closeCurly ≠ .kwElse ∧
      firstKind second .closeCurly ≠ .semicolon)
    (hclosing : closing.kind = .closeCurly) (hinside : 0 < c.openBraces)
    (htakes : c.Takes (first :: rest ++ second ++ [closing]) stop) :
    Gives (max m n ≤ levels) (.ok (tree :: trees), stop)
      ((readStmts (Table.standard.level levels).readStmt).run c.advance) := by
  obtain rfl := htakes.peek_eq
  rw [List.append_assoc] at htakes
  obtain ⟨between, htakesFirst, htakesRest⟩ := htakes.split
  have hnext : between.peek.kind = firstKind second .closeCurly := by
    rw [htakesRest.peek_kind_eq, firstKind_append, firstKind_cons, hclosing]
  have hopen := htakesFirst.openBraces_of_balanced hbalanced
  have hstmt := hfirst levels htakesFirst hnext hfollow.1 hfollow.2 (by simp [hinside])
  have hstmts := hrest levels hclosing rfl (hopen ▸ hinside) htakesRest
  have hleft : c.advance.tokens ≠ [] := by simp [htakesFirst.tail_eq]
  rw [run_readStmts_of_ne hleft hstart]
  refine Gives.of_iff (?_ : Gives (m ≤ levels ∧ n ≤ levels) _ _) (by omega)
  exact hstmt.andThen (hstmts.bind_of_eq rfl)

end Level

namespace Phrase.Read

variable {stratum : Stratum} {tree left right condition callee : Expr} {trees : List Expr}
  {consequence alternative body : Block} {inside : Bool} {next : Kind}
  {token op kw opening closing comma kwElse name assignment : Token}
  {tokens first second third : List Token} {m n k nesting : Nat}

/-- An expression that the rule of its first token reads whole, whatever binds it from outside. -/
theorem of_rule {rule : PrefixRule} (hrule : Table.standard.prefixRule token.kind = some rule)
    (h : ∀ (levels : Nat) {c stop : Cursor}, c.Takes (token :: tokens) stop →
      Table.standard.power stop.peek.kind ≤ stratum.power → stop.peek.kind ≠ .kwElse →
        Gives (nesting ≤ levels) (.ok tree, stop)
          (((Table.standard.level levels).readPrefix rule).run c.advance)) :
    Read (token :: tokens) nesting (.expr stratum tree) := by
  intro levels power c stop hpower habove htakes hfollow helse
  rw [← htakes.peek_eq] at hrule
  exact Level.gives_of_rule hrule (h levels htakes hfollow helse)

/-- An expression of one token. -/
theorem of_single {rule : PrefixRule} (hrule : Table.standard.prefixRule token.kind = some rule)
    (h : ∀ (levels : Nat) (c : Cursor), c.peek = token →
      ((Table.standard.level levels).readPrefix rule).run c.advance = (.ok tree, c.advance)) :
    Read [token] 0 (.expr stratum tree) := by
  refine of_rule hrule fun levels c stop htakes _ _ => ?_
  obtain rfl := htakes.eq_advance
  rw [h levels c htakes.peek_eq]
  exact .good (Nat.zero_le _)

theorem tighter (h : Read tokens nesting (.expr stratum.tighter tree)) :
    Read tokens nesting (.expr stratum tree) := by
  intro levels power c stop hpower habove htakes hfollow helse
  exact h levels hpower (Stratum.le_trans habove (Stratum.le_tighter _)) htakes
    (Power.le_trans hfollow (Stratum.power_le_power (Stratum.le_tighter _))) helse

theorem infixOp (hleft : Read first m (.expr stratum left)) (hop : op.kind ∈ stratum.operators)
    (hright : Read second n (.expr stratum.tighter right)) :
    Read (first ++ op :: second) (max m (n + 1))
      (.expr stratum (.infixOp op left op.literal right)) := by
  intro levels power c stop hpower habove htakes hfollow helse
  obtain ⟨between, hfirst, hrest⟩ := htakes.split
  have hleft := hleft levels hpower habove hfirst
    (by rw [hrest.peek_eq, Table.power_of_mem_operators hop]; exact Nat.le_refl _)
    (by rw [hrest.peek_eq]; exact (Kind.plain_of_mem_operators hop).2)
  have hwhole := hleft.trans (Level.gives_infixOp left hop hright habove hrest hfollow helse)
  exact hwhole.of_iff (by omega)

theorem prefixOp (hop : op.kind = .dash ∨ op.kind = .not)
    (hright : Read tokens n (.expr .unary right)) :
    Read (op :: tokens) (n + 1) (.expr .unary (.prefixOp op op.literal right)) := by
  have hrule : Table.standard.prefixRule op.kind = some .prefixOp := by
    rcases hop with hop | hop <;> rw [hop] <;> rfl
  exact of_rule hrule fun levels _ _ htakes => Level.gives_prefixOp hright htakes

theorem call (hcallee : Read first m (.expr .call callee)) (hopening : opening.kind = .openParen)
    (harguments : Read second n (.arguments trees)) (hclosing : closing.kind = .closeParen) :
    Read (first ++ opening :: (second ++ [closing])) (max m n)
      (.expr .call (.call opening callee trees)) := by
  intro levels power c stop hpower habove htakes hfollow helse
  obtain ⟨between, hfirst, hrest⟩ := htakes.split
  have hcallee := hcallee levels hpower
    (Stratum.le_trans (Stratum.above_le_unary power) (by decide)) hfirst (Power.le_call _)
    (by simp [hrest.peek_eq, hopening])
  have hcall := hcallee.trans
    (Level.gives_call callee harguments hpower hopening hclosing hrest)
  exact hcall.of_iff (by omega)

theorem identifier (hkind : token.kind = .identifier) :
    Read [token] 0 (.expr .primary (.identifier (.ofToken token))) := by
  refine of_single (by rw [hkind]; rfl) fun levels c hpeek => ?_
  rw [← hpeek]
  rfl

theorem integer {value : Nat} (hkind : token.kind = .integer)
    (hvalue : Decimal.value? token.literal.toList = some value) (hle : value ≤ maxInteger) :
    Read [token] 0 (.expr .primary (.integer token (.ofNat value))) := by
  refine of_single (by rw [hkind]; rfl) fun levels c hpeek => ?_
  subst hpeek
  simp only [Level.readPrefix, readInteger, run_current_bind, Cursor.current_advance,
    integerValue?, hvalue, if_pos hle]
  rfl

theorem boolean (hkind : token.kind = .kwTrue ∨ token.kind = .kwFalse) :
    Read [token] 0 (.expr .primary (.boolean token (token.kind = .kwTrue))) := by
  have hrule : Table.standard.prefixRule token.kind = some .boolean := by
    rcases hkind with hkind | hkind <;> rw [hkind] <;> rfl
  refine of_single hrule fun levels c hpeek => ?_
  rw [← hpeek]
  rfl

theorem grouping (hopening : opening.kind = .openParen)
    (htree : Read tokens n (.expr .equality tree)) (hclosing : closing.kind = .closeParen) :
    Read (opening :: (tokens ++ [closing])) (n + 1) (.expr .primary tree) :=
  of_rule (by rw [hopening]; rfl) fun _ _ _ htakes _ _ =>
    Level.gives_grouping htree hclosing htakes

theorem conditional (hkw : kw.kind = .kwIf) (hopening : opening.kind = .openParen)
    (hcondition : Read first m (.expr .equality condition)) (hclosing : closing.kind = .closeParen)
    (hconsequence : Read second n (.block consequence)) :
    Read (kw :: opening :: (first ++ closing :: second)) (max (m + 1) n)
      (.expr .primary (.conditional kw condition consequence none)) :=
  of_rule (by rw [hkw]; rfl) fun _ _ _ htakes _ helse =>
    Level.gives_conditional hcondition hconsequence hopening hclosing htakes helse

theorem conditionalElse (hkw : kw.kind = .kwIf) (hopening : opening.kind = .openParen)
    (hcondition : Read first m (.expr .equality condition)) (hclosing : closing.kind = .closeParen)
    (hconsequence : Read second n (.block consequence)) (helse : kwElse.kind = .kwElse)
    (halternative : Read third k (.block alternative)) :
    Read (kw :: opening :: (first ++ closing :: (second ++ kwElse :: third)))
      (max (m + 1) (max n k))
      (.expr .primary (.conditional kw condition consequence (some alternative))) :=
  of_rule (by rw [hkw]; rfl) fun _ _ _ htakes _ _ =>
    Level.gives_conditionalElse hcondition hconsequence halternative hopening hclosing helse htakes

theorem function {parameters : List Identifier} (hkw : kw.kind = .kwFn)
    (hopening : opening.kind = .openParen) (hparameters : Parameters parameters first)
    (hclosing : closing.kind = .closeParen) (hbody : Read second n (.block body)) :
    Read (kw :: opening :: (first ++ closing :: second)) n
      (.expr .primary (.function kw parameters body)) :=
  of_rule (by rw [hkw]; rfl) fun _ _ _ htakes _ _ =>
    Level.gives_function hparameters hbody hopening hclosing htakes

theorem oneArgument (h : Read tokens n (.expr .equality tree)) :
    Read tokens (n + 1) (.someArguments [tree]) := fun _ _ _ htakes hend =>
  (Level.gives_oneArgument h htakes hend).bind fun tree => readMoreMembers _ [tree]

theorem moreArguments (htrees : Read first m (.someArguments trees)) (hcomma : comma.kind = .comma)
    (htree : Read second n (.expr .equality tree)) :
    Read (first ++ comma :: second) (max m (n + 1)) (.someArguments (trees ++ [tree])) := by
  intro levels c stop htakes hend
  obtain ⟨between, hfirst, hrest⟩ := htakes.split
  have hloop := htrees levels hfirst (.inl (by rw [hrest.peek_eq, hcomma]))
  have hmore := hloop.trans (Level.gives_moreArguments trees htree hcomma hrest hend)
  exact hmore.of_iff (by omega)

theorem noArguments : Read [] 0 (.arguments []) := by
  intro levels c stop closing hclosing htakes
  obtain rfl := htakes.eq_advance
  obtain rfl := htakes.peek_eq
  rw [readMembers, run_peekKind_bind, if_pos hclosing]
  exact .good (Nat.zero_le _)

/-- Arguments are read if there is one, since none starts with a closing parenthesis. -/
theorem arguments (h : Read (token :: tokens) n (.someArguments trees))
    (hfirst : token.kind ≠ .closeParen) : Read (token :: tokens) n (.arguments trees) :=
  fun _ _ _ _ hclosing htakes =>
    Level.gives_arguments h (htakes.peek_eq ▸ hfirst) hclosing htakes

theorem block {trees : List Stmt} (hopening : opening.kind = .openCurly)
    (htrees : Read tokens n (.stmts true .closeCurly trees))
    (hclosing : closing.kind = .closeCurly) :
    Read (opening :: (tokens ++ [closing])) (n + 1) (.block ⟨opening, trees⟩) := by
  intro levels c stop htakes
  obtain rfl := htakes.peek_eq
  have hinside := Cursor.openBraces_advance_pos hopening
  refine ⟨hopening, ?_⟩
  cases levels with
  | zero => exact .tooDeep (by omega) rfl
  | succ levels =>
    have hstmts := htrees levels hclosing rfl hinside htakes.of_advance
    refine Gives.of_iff (?_ : Gives (n ≤ levels) _ _) (by omega)
    exact hstmts.bind_of_eq rfl

theorem noStmts : Read [] 0 (.stmts inside next []) := by
  intro levels c stop closing hclosing _ _ htakes
  obtain rfl := htakes.eq_advance
  obtain rfl := htakes.peek_eq
  exact run_readStmts_of_closeCurly (c := c.advance) hclosing ▸ .good (Nat.zero_le _)

end Phrase.Read

/-- Every phrase is read from its tokens. -/
theorem Derives.read {phrase : Phrase} {tokens : List Token} {nesting : Nat}
    (h : Derives phrase tokens nesting) : phrase.Read tokens nesting := by
  induction h with
  | tighter _ ih => exact ih.tighter
  | infixOp _ hop _ left right => exact left.infixOp hop right
  | prefixOp hop _ right => exact .prefixOp hop right
  | call _ hopening _ hclosing callee arguments => exact callee.call hopening arguments hclosing
  | identifier hkind => exact .identifier hkind
  | integer hkind hvalue hle => exact .integer hkind hvalue hle
  | boolean hkind => exact .boolean hkind
  | grouping hopening _ hclosing ih => exact .grouping hopening ih hclosing
  | conditional hkw hopening _ hclosing _ condition consequence =>
    exact .conditional hkw hopening condition hclosing consequence
  | conditionalElse hkw hopening _ hclosing _ helse _ condition consequence alternative =>
    exact .conditionalElse hkw hopening condition hclosing consequence helse alternative
  | function hkw hopening hparameters hclosing _ body =>
    exact .function hkw hopening hparameters hclosing body
  | oneArgument _ ih => exact ih.oneArgument
  | moreArguments _ hcomma _ ih last => exact ih.moreArguments hcomma last
  | noArguments => exact .noArguments
  | arguments hsome ih =>
    obtain ⟨first, rest, rfl, hfirst⟩ := hsome.exists_first_of_someArguments
    exact ih.arguments (Kind.ne_of_startsExpr hfirst).2.2
  | block hopening _ hclosing ih => exact .block hopening ih hclosing
  | binding hkw hname hassignment hvalue hend ih =>
    rintro levels c stop htakes rfl _ _ hinside
    exact Level.gives_binding ih hvalue.balanced hkw hname hassignment hend htakes hinside
  | returningNothing hkw hend =>
    rintro levels c stop htakes rfl _ _ hinside
    exact Level.gives_returningNothing hkw hend htakes hinside
  | returning hkw hvalue hend ih =>
    rintro levels c stop htakes rfl _ _ hinside
    obtain ⟨first, rest, rfl, hfirst⟩ := hvalue.exists_first_of_expr
    exact Level.gives_returning ih hvalue.balanced hfirst hkw hend htakes hinside
  | expression hvalue hend ih =>
    rintro levels c stop htakes rfl helse hsemicolon _
    obtain ⟨first, rest, heq, hfirst⟩ := hvalue.exists_first_of_expr
    obtain ⟨rfl, rfl⟩ := List.cons.inj heq
    exact Level.gives_expression ih hfirst hend htakes helse hsemicolon
  | noStmts => exact .noStmts
  | moreStmts hfirst hrest ihfirst ihrest =>
    intro levels c stop closing hclosing hinside hopen htakes
    obtain ⟨rfl, rfl⟩ := Prod.mk.inj hinside
    obtain ⟨first, rest, rfl, hstart⟩ := hfirst.exists_first_of_stmt
    obtain ⟨-, -, hclose, -⟩ := Kind.ne_of_startsStmt hstart
    exact Level.gives_moreStmts ihfirst ihrest hfirst.balanced hclose
      (hrest.firstKind_of_stmts (by decide)) hclosing hopen htakes

end LetScript
