import LetScript.Grammar.Statement
import LetScript.Proofs.Outcome
import LetScript.Proofs.Strata

/-!
# What is read is derived

A routine that succeeds has taken tokens of which the grammar derives what it gives. The proof
goes up the levels of nesting: if the routines of a level read only what is derived with fewer
frames than the level has, those of the next level do, whatever rule the tokens select.

The loop over the operators keeps this: what was read so far is derived in some stratum, and the
next token binds no tighter than that stratum. Hence it may become the left operand of the next
operator, and the right operand, read with the power of the operator, leaves a next token of at
most that power again.
-/

namespace LetScript

open Routine

namespace Level

/-- The routines of a level read only what the grammar derives with fewer frames than it has
levels, and stop where the surroundings take over. -/
structure Sound (level : Level) (levels : Nat) : Prop where
  expr {power : Power} {c stop : Cursor} {tree : Expr} :
    (level.expr power).run c.advance = (.ok tree, stop) →
      ∃ tokens nesting, c.Takes tokens stop ∧ Derives (.expr (.above power) tree) tokens nesting ∧
        nesting < levels ∧ Table.standard.power stop.peek.kind ≤ power
  block {c stop : Cursor} {tree : Block} : c.peek.kind = .openCurly →
    level.block.run c.advance = (.ok tree, stop) →
      ∃ tokens nesting, c.Takes tokens stop ∧ Derives (.block tree) tokens nesting ∧
        nesting ≤ levels

namespace Sound

variable {inner : Level} {levels : Nat}

theorem readPrefixOp (h : inner.Sound levels) {c stop : Cursor} {tree : Expr}
    (hkind : c.peek.kind = .dash ∨ c.peek.kind = .not)
    (hrun : inner.readPrefixOp.run c.advance = (.ok tree, stop)) :
    ∃ tokens nesting, c.Takes tokens stop ∧ Derives (.expr .unary tree) tokens nesting ∧
      nesting ≤ levels ∧ Table.standard.power stop.peek.kind ≤ .unary := by
  simp only [Level.readPrefixOp, run_current_bind, run_advance_bind] at hrun
  obtain ⟨right, last, hright, hrest⟩ := run_bind_eq_ok_iff.mp hrun
  obtain ⟨tokens, nesting, htakes, hderives, hlt, hpower⟩ := h.expr hright
  cases hrest
  have hop : c.Takes [c.peek] c.advance :=
    .single (by rcases hkind with hkind | hkind <;> simp [hkind])
  exact ⟨_, _, hop.append htakes, .prefixOp hkind hderives, hlt, hpower⟩

theorem readGrouping (h : inner.Sound levels) {c stop : Cursor} {tree : Expr}
    (hkind : c.peek.kind = .openParen)
    (hrun : inner.readGrouping.run c.advance = (.ok tree, stop)) :
    ∃ tokens nesting, c.Takes tokens stop ∧ Derives (.expr .primary tree) tokens nesting ∧
      nesting ≤ levels := by
  simp only [Level.readGrouping, run_advance_bind] at hrun
  obtain ⟨expr, last, hexpr, hrest⟩ := run_bind_eq_ok_iff.mp hrun
  obtain ⟨hclosing, hrest⟩ := run_expectPeek_bind_eq_ok_iff.mp hrest
  obtain ⟨tokens, nesting, htakes, hderives, hlt, -⟩ := h.expr hexpr
  cases hrest
  have hopening : c.Takes [c.peek] c.advance := .single (by simp [hkind])
  exact ⟨_, _, hopening.append (htakes.snoc (by simp [hclosing])),
    .grouping hkind hderives hclosing, hlt⟩

theorem readConditional (h : inner.Sound levels) {c stop : Cursor} {tree : Expr}
    (hkind : c.peek.kind = .kwIf)
    (hrun : inner.readConditional.run c.advance = (.ok tree, stop)) :
    ∃ tokens nesting, c.Takes tokens stop ∧ Derives (.expr .primary tree) tokens nesting ∧
      nesting ≤ levels := by
  simp only [Level.readConditional, run_current_bind] at hrun
  obtain ⟨hopening, hrest⟩ := run_expectPeek_bind_eq_ok_iff.mp hrun
  rw [run_advance_bind] at hrest
  obtain ⟨condition, afterCondition, hcondition, hrest⟩ := run_bind_eq_ok_iff.mp hrest
  obtain ⟨hclosing, hrest⟩ := run_expectPeek_bind_eq_ok_iff.mp hrest
  obtain ⟨hcurly, hrest⟩ := run_expectPeek_bind_eq_ok_iff.mp hrest
  obtain ⟨consequence, afterConsequence, hconsequence, hrest⟩ := run_bind_eq_ok_iff.mp hrest
  obtain ⟨first, m, htakesFirst, hfirst, hlt, -⟩ := h.expr hcondition
  obtain ⟨second, n, htakesSecond, hsecond, hle⟩ := h.block hcurly hconsequence
  have hhead : c.Takes [c.peek, c.advance.peek] c.advance.advance :=
    (Cursor.Takes.single (by simp [hkind])).snoc (by simp [hopening])
  have htakes := hhead.append ((htakesFirst.snoc (by simp [hclosing])).append htakesSecond)
  simp only [run_peekKind_bind] at hrest
  split at hrest
  · rename_i helse
    rw [run_advance_bind] at hrest
    obtain ⟨hcurlyElse, hrest⟩ := run_expectPeek_bind_eq_ok_iff.mp hrest
    obtain ⟨alternative, afterAlternative, halternative, hrest⟩ := run_bind_eq_ok_iff.mp hrest
    obtain ⟨third, k, htakesThird, hthird, hle'⟩ := h.block hcurlyElse halternative
    cases hrest
    have hkeyword : afterConsequence.Takes [afterConsequence.peek] afterConsequence.advance :=
      .single (by simp [helse])
    have htakes := htakes.append (hkeyword.append htakesThird)
    refine ⟨_, _, ?_, .conditionalElse hkind hopening hfirst hclosing hsecond helse hthird, ?_⟩
    · simpa using htakes
    · omega
  · cases hrest
    refine ⟨_, _, ?_, .conditional hkind hopening hfirst hclosing hsecond, ?_⟩
    · simpa using htakes
    · omega

end Sound

section Members

variable {α : Type} {member : Routine α} {Some : List α → List Token → Prop}

/-- What is told of the members read so far is told of one more after a comma. -/
theorem taken_of_readMore
    (hmore : ∀ {c stop before first comma a}, Some before first → comma.kind = .comma →
      member.run c = (.ok a, stop) →
        ∃ tokens, c.Takes tokens stop ∧ Some (before ++ [a]) (first ++ comma :: tokens))
    {c start last : Cursor} {before after : List α}
    (hbefore : ∃ tokens, c.Takes tokens start ∧ Some before tokens)
    (hcomma : start.peek.kind = .comma)
    (hbody : (do return before ++ [← member] : Routine (List α)).run start.advance =
      (.ok after, last)) : ∃ tokens, c.Takes tokens last ∧ Some after tokens := by
  obtain ⟨first, htakes, hsome⟩ := hbefore
  obtain ⟨a, _, ha, hpure⟩ := run_bind_eq_ok_iff.mp hbody
  cases hpure
  obtain ⟨more, htakesMore, hsome⟩ := hmore hsome hcomma ha
  refine ⟨_, ?_, hsome⟩
  simpa using (htakes.snoc (by simp [hcomma])).append htakesMore

variable (Some)
  (hone : ∀ {c stop a}, member.run c = (.ok a, stop) →
    ∃ tokens, c.Takes tokens stop ∧ Some [a] tokens)
  (hmore : ∀ {c stop before first comma a}, Some before first → comma.kind = .comma →
    member.run c = (.ok a, stop) →
      ∃ tokens, c.Takes tokens stop ∧ Some (before ++ [a]) (first ++ comma :: tokens))
  {c stop : Cursor}

include hone hmore

/-- Reading members reads a list of which each member read prolongs what `Some` holds of, and the
closing parenthesis. -/
theorem readMembers_ok {members : List α}
    (hrun : (readMembers member).run c = (.ok members, stop)) :
    ∃ tokens closing, c.Takes (tokens ++ [closing]) stop ∧ closing.kind = .closeParen ∧
      (members = [] ∧ tokens = [] ∨ Some members tokens) := by
  simp only [readMembers, run_peekKind_bind] at hrun
  split at hrun
  · rename_i hclosing
    cases hrun
    exact ⟨[], c.peek, .single (by simp [hclosing]), hclosing, .inl ⟨rfl, rfl⟩⟩
  · obtain ⟨first, afterFirst, hfirst, hrest⟩ := run_bind_eq_ok_iff.mp hrun
    obtain ⟨all, afterAll, hall, hrest⟩ := run_bind_eq_ok_iff.mp hrest
    obtain ⟨hclosing, hrest⟩ := run_expectPeek_bind_eq_ok_iff.mp hrest
    cases hrest
    obtain ⟨⟨tokens, htakes, hsome⟩, -⟩ := run_whileNext_ok
      (fun before between => ∃ tokens, c.Takes tokens between ∧ Some before tokens)
      (hone hfirst) (fun hbefore htest _ hbody =>
        taken_of_readMore hmore hbefore (kind_of_comma htest) hbody) hall
    exact ⟨tokens, _, htakes.snoc (by simp [hclosing]), hclosing, .inr hsome⟩

/-- Reading members fails in the first one, in one after a comma, or where neither a comma nor the
closing parenthesis comes next. -/
theorem readMembers_error {diagnostic : Diagnostic}
    (hrun : (readMembers member).run c = (.error diagnostic, stop)) :
    member.run c = (.error diagnostic, stop) ∨
      ∃ members tokens between, c.Takes tokens between ∧ Some members tokens ∧
        (between.peek.kind = .comma ∧ member.run between.advance = (.error diagnostic, stop) ∨
          (expectPeek .closeParen).run between = (.error diagnostic, stop)) := by
  simp only [readMembers, run_peekKind_bind] at hrun
  split at hrun
  · cases hrun
  · rcases run_bind_eq_error_iff.mp hrun with hfirst | ⟨first, between, hfirst, hrest⟩
    · exact .inl hfirst
    · have hround {found : Unit} {before after start last}
          (hbefore : ∃ tokens, c.Takes tokens start ∧ Some before tokens)
          (htest : (if start.peek.kind = .comma then some () else none) = some found)
          (_ : start.tokens ≠ [])
          (hbody : (do return before ++ [← member] : Routine (List α)).run start.advance =
            (.ok after, last)) : ∃ tokens, c.Takes tokens last ∧ Some after tokens :=
        taken_of_readMore hmore hbefore (kind_of_comma htest) hbody
      rcases run_bind_eq_error_iff.mp hrest with hloop | ⟨members, last, hloop, hclosing⟩
      · obtain ⟨before, start, found, ⟨tokens, htakes, hsome⟩, hcomma, -, hbody⟩ :=
          run_whileNext_error _ (hone hfirst) hround hloop
        refine .inr ⟨before, tokens, start, htakes, hsome, .inl ⟨kind_of_comma hcomma, ?_⟩⟩
        rcases run_bind_eq_error_iff.mp hbody with hbody | ⟨_, _, _, hpure⟩
        · exact hbody
        · cases hpure
      · obtain ⟨⟨tokens, htakes, hsome⟩, -⟩ := run_whileNext_ok _ (hone hfirst) hround hloop
        refine .inr ⟨members, tokens, last, htakes, hsome, .inr ?_⟩
        rcases run_bind_eq_error_iff.mp hclosing with hclosing | ⟨_, _, _, hpure⟩
        · exact hclosing
        · cases hpure

end Members

theorem readParameter_ok {c stop : Cursor} {id : Identifier}
    (hrun : readParameter.run c = (.ok id, stop)) :
    c.Takes [c.peek] stop ∧ c.peek.kind = .identifier ∧ id = .ofToken c.peek := by
  obtain ⟨hname, hrest⟩ := run_expectPeek_bind_eq_ok_iff.mp hrun
  cases hrest
  exact ⟨.single (by simp [hname]), hname, rfl⟩

theorem readParameters_ok {c stop : Cursor} {parameters : List Identifier}
    (hrun : (readMembers readParameter).run c = (.ok parameters, stop)) :
    ∃ tokens closing, c.Takes (tokens ++ [closing]) stop ∧ closing.kind = .closeParen ∧
      Parameters parameters tokens := by
  have hmembers := readMembers_ok Names ?_ ?_ hrun
  · obtain ⟨tokens, closing, htakes, hclosing, ⟨rfl, rfl⟩ | hnames⟩ := hmembers
    · exact ⟨[], closing, htakes, hclosing, .none⟩
    · exact ⟨tokens, closing, htakes, hclosing, .some hnames⟩
  · intro c stop id hid
    obtain ⟨htakes, hname, rfl⟩ := readParameter_ok hid
    exact ⟨_, htakes, .one hname⟩
  · intro c stop before first comma id hbefore hcomma hid
    obtain ⟨htakes, hname, rfl⟩ := readParameter_ok hid
    exact ⟨_, htakes, .more hbefore hcomma hname⟩

namespace Sound

variable {inner : Level} {levels : Nat}

theorem readFunction (h : inner.Sound levels) {c stop : Cursor} {tree : Expr}
    (hkind : c.peek.kind = .kwFn)
    (hrun : inner.readFunction.run c.advance = (.ok tree, stop)) :
    ∃ tokens nesting, c.Takes tokens stop ∧ Derives (.expr .primary tree) tokens nesting ∧
      nesting ≤ levels := by
  simp only [Level.readFunction, run_current_bind] at hrun
  obtain ⟨hopening, hrest⟩ := run_expectPeek_bind_eq_ok_iff.mp hrun
  obtain ⟨parameters, afterParameters, hparameters, hrest⟩ := run_bind_eq_ok_iff.mp hrest
  obtain ⟨hcurly, hrest⟩ := run_expectPeek_bind_eq_ok_iff.mp hrest
  obtain ⟨body, last, hbody, hrest⟩ := run_bind_eq_ok_iff.mp hrest
  obtain ⟨first, closing, htakesFirst, hclosing, hfirst⟩ := readParameters_ok hparameters
  obtain ⟨second, nesting, htakesSecond, hsecond, hle⟩ := h.block hcurly hbody
  cases hrest
  have hhead : c.Takes [c.peek, c.advance.peek] c.advance.advance :=
    (Cursor.Takes.single (by simp [hkind])).snoc (by simp [hopening])
  refine ⟨_, _, ?_, .function hkind hopening hfirst hclosing hsecond, hle⟩
  simpa using hhead.append (htakesFirst.append htakesSecond)

theorem readArgument (h : inner.Sound levels) {c stop : Cursor} {tree : Expr}
    (hrun : inner.readArgument.run c = (.ok tree, stop)) :
    ∃ tokens nesting, c.Takes tokens stop ∧ Derives (.expr .equality tree) tokens nesting ∧
      nesting < levels := by
  rw [Level.readArgument, run_advance_bind] at hrun
  obtain ⟨tokens, nesting, htakes, hderives, hlt, -⟩ := h.expr hrun
  exact ⟨tokens, nesting, htakes, hderives, hlt⟩

theorem readArguments (h : inner.Sound levels) {c stop : Cursor} {trees : List Expr}
    (hrun : (readMembers inner.readArgument).run c = (.ok trees, stop)) :
    ∃ tokens closing nesting, c.Takes (tokens ++ [closing]) stop ∧ closing.kind = .closeParen ∧
      Derives (.arguments trees) tokens nesting ∧ nesting ≤ levels := by
  have hmembers := readMembers_ok
    (fun trees tokens => ∃ nesting ≤ levels, Derives (.someArguments trees) tokens nesting)
    ?_ ?_ hrun
  · obtain ⟨tokens, closing, htakes, hclosing, ⟨rfl, rfl⟩ | ⟨nesting, hle, hderives⟩⟩ := hmembers
    · exact ⟨[], closing, 0, htakes, hclosing, .noArguments, Nat.zero_le _⟩
    · exact ⟨tokens, closing, nesting, htakes, hclosing, .arguments hderives, hle⟩
  · intro c stop tree htree
    obtain ⟨tokens, nesting, htakes, hderives, hlt⟩ := h.readArgument htree
    exact ⟨tokens, htakes, nesting + 1, hlt, .oneArgument hderives⟩
  · rintro c stop before first comma tree ⟨m, hm, hbefore⟩ hcomma htree
    obtain ⟨tokens, nesting, htakes, hderives, hlt⟩ := h.readArgument htree
    exact ⟨tokens, htakes, max m (nesting + 1), by omega, .moreArguments hbefore hcomma hderives⟩

/-- The rule of the first token reads an operator with its operand or a primary expression. -/
theorem readPrefix (h : inner.Sound levels) {c stop : Cursor} {tree : Expr} {rule : PrefixRule}
    (hrule : Table.standard.prefixRule c.peek.kind = some rule)
    (hrun : (inner.readPrefix rule).run c.advance = (.ok tree, stop)) :
    ∃ stratum tokens nesting, c.Takes tokens stop ∧ Derives (.expr stratum tree) tokens nesting ∧
      nesting ≤ levels ∧ .unary ≤ stratum ∧
        Table.standard.power stop.peek.kind ≤ stratum.power := by
  have hprimary : (∃ tokens nesting, c.Takes tokens stop ∧
      Derives (.expr .primary tree) tokens nesting ∧ nesting ≤ levels) →
      ∃ stratum tokens nesting, c.Takes tokens stop ∧
        Derives (.expr stratum tree) tokens nesting ∧ nesting ≤ levels ∧
          Stratum.unary ≤ stratum ∧ Table.standard.power stop.peek.kind ≤ stratum.power := by
    rintro ⟨tokens, nesting, htakes, hderives, hle⟩
    exact ⟨.primary, tokens, nesting, htakes, hderives, hle, by decide, Power.le_call _⟩
  have hne : c.peek.kind ≠ .eof := by
    rintro heof
    rw [heof] at hrule
    contradiction
  have hfirst : c.Takes [c.peek] c.advance := .single hne
  cases rule with
  | identifier =>
    cases hrun
    exact hprimary ⟨_, 0, hfirst, .identifier (Table.kind_of_prefixRule hrule), Nat.zero_le _⟩
  | integer =>
    simp only [Level.readPrefix, readInteger, run_current_bind] at hrun
    split at hrun
    · rename_i value hvalue
      cases hrun
      obtain ⟨number, hnumber, hle, rfl⟩ := integerValue?_eq_some hvalue
      exact hprimary ⟨_, 0, hfirst, .integer (Table.kind_of_prefixRule hrule) hnumber hle,
        Nat.zero_le _⟩
    · cases hrun
  | boolean =>
    cases hrun
    exact hprimary ⟨_, 0, hfirst, .boolean (Table.kind_of_prefixRule hrule), Nat.zero_le _⟩
  | prefixOp =>
    obtain ⟨tokens, nesting, htakes, hderives, hle, hpower⟩ :=
      h.readPrefixOp (Table.kind_of_prefixRule hrule) hrun
    exact ⟨.unary, tokens, nesting, htakes, hderives, hle, by decide, hpower⟩
  | grouping => exact hprimary (h.readGrouping (Table.kind_of_prefixRule hrule) hrun)
  | conditional => exact hprimary (h.readConditional (Table.kind_of_prefixRule hrule) hrun)
  | function => exact hprimary (h.readFunction (Table.kind_of_prefixRule hrule) hrun)

/-- What the loop over the operators has read so far, from `c` up to `stop`: a phrase of some
stratum that is not below `power`, before a token that binds no tighter than that stratum. -/
def ReadSoFar (levels : Nat) (power : Power) (c : Cursor) (tree : Expr) (stop : Cursor) : Prop :=
  ∃ stratum tokens nesting, c.Takes tokens stop ∧ Derives (.expr stratum tree) tokens nesting ∧
    nesting ≤ levels ∧ Stratum.above power ≤ stratum ∧
      Table.standard.power stop.peek.kind ≤ stratum.power

/-- An operator and its right operand prolong what was read so far. -/
theorem readInfixOp (h : inner.Sound levels) {power : Power} {c start stop : Cursor}
    {left tree : Expr} (hleft : ReadSoFar levels power c left start)
    (hrule : Table.standard.infixRuleAbove power start.peek.kind = some .infixOp)
    (hrun : (inner.readInfixOp Table.standard left).run start.advance = (.ok tree, stop)) :
    ReadSoFar levels power c tree stop := by
  obtain ⟨stratum, first, m, htakes, hderives, hm, -, hfollow⟩ := hleft
  obtain ⟨hlt, other, hmem⟩ := Table.exists_stratum_of_infixOp hrule
  rw [Table.power_of_mem_operators hmem] at hlt hfollow
  simp only [Level.readInfixOp, run_current_bind, run_advance_bind] at hrun
  obtain ⟨right, last, hright, hrest⟩ := run_bind_eq_ok_iff.mp hrun
  rw [Cursor.current_advance, Table.power_of_mem_operators hmem] at hright
  obtain ⟨second, n, htakesSecond, hsecond, hn, hpower⟩ := h.expr hright
  rw [Stratum.above_power hmem] at hsecond
  cases hrest
  refine ⟨other, _, _, ?_, .infixOp (hderives.weaken (Stratum.le_of_power_le hmem hfollow)) hmem
    hsecond, by omega, (Stratum.above_le_iff hmem power).mpr hlt, hpower⟩
  simpa using (htakes.snoc (Kind.plain_of_mem_operators hmem).1.1).append htakesSecond

/-- A call prolongs what was read so far. -/
theorem readCall (h : inner.Sound levels) {power : Power} {c start stop : Cursor}
    {callee tree : Expr} (hcallee : ReadSoFar levels power c callee start)
    (hrule : Table.standard.infixRuleAbove power start.peek.kind = some .call)
    (hrun : (inner.readCall callee).run start.advance = (.ok tree, stop)) :
    ReadSoFar levels power c tree stop := by
  obtain ⟨stratum, first, m, htakes, hderives, hm, -, hfollow⟩ := hcallee
  have hopening := Table.eq_openParen_of_call hrule
  rw [hopening] at hfollow
  simp only [Level.readCall, run_current_bind] at hrun
  obtain ⟨trees, last, htrees, hrest⟩ := run_bind_eq_ok_iff.mp hrun
  obtain ⟨second, closing, n, htakesSecond, hclosing, hsecond, hn⟩ := h.readArguments htrees
  cases hrest
  refine ⟨.call, _, _, ?_, .call (hderives.weaken (Stratum.call_le_of_power_le hfollow)) hopening
    hsecond hclosing, by omega, Stratum.le_trans (Stratum.above_le_unary power) (by decide),
    Power.le_call _⟩
  simpa using (htakes.snoc (by simp [hopening])).append htakesSecond

/-- What the rule of the first token reads is what was read so far when the loop starts. -/
theorem readSoFar_of_readPrefix (h : inner.Sound levels) {c stop : Cursor} {tree : Expr}
    {rule : PrefixRule} (hrule : Table.standard.prefixRule c.peek.kind = some rule)
    (hrun : (inner.readPrefix rule).run c.advance = (.ok tree, stop)) (power : Power) :
    ReadSoFar levels power c tree stop := by
  obtain ⟨stratum, tokens, nesting, htakes, hderives, hle, hunary, hfollow⟩ :=
    h.readPrefix hrule hrun
  exact ⟨stratum, tokens, nesting, htakes, hderives, hle,
    Stratum.le_trans (Stratum.above_le_unary power) hunary, hfollow⟩

/-- Each round of the loop over the operators prolongs what was read so far. -/
theorem readInfix (h : inner.Sound levels) {power : Power} {c start stop : Cursor}
    {left tree : Expr} {rule : InfixRule} (hleft : ReadSoFar levels power c left start)
    (hrule : Table.standard.infixRuleAbove power start.peek.kind = some rule)
    (hrun : (inner.readInfix Table.standard rule left).run start.advance = (.ok tree, stop)) :
    ReadSoFar levels power c tree stop := by
  cases rule with
  | infixOp => exact h.readInfixOp hleft hrule hrun
  | call => exact h.readCall hleft hrule hrun

/-- An expression is read as a phrase of the stratum above its surroundings. -/
theorem readExpr (h : inner.Sound levels) {power : Power} {c stop : Cursor} {tree : Expr}
    (hrun : (inner.readExpr Table.standard power).run c.advance = (.ok tree, stop)) :
    ∃ tokens nesting, c.Takes tokens stop ∧ Derives (.expr (.above power) tree) tokens nesting ∧
      nesting < levels + 1 ∧ Table.standard.power stop.peek.kind ≤ power := by
  simp only [Level.readExpr, run_current_bind, Cursor.current_advance] at hrun
  split at hrun
  · cases hrun
  · rename_i rule hrule
    obtain ⟨first, afterFirst, hfirst, hloop⟩ := run_bind_eq_ok_iff.mp hrun
    have hkeeps := run_whileNext_ok (ReadSoFar levels power c)
      (h.readSoFar_of_readPrefix hrule hfirst power) ?_ hloop
    · obtain ⟨⟨stratum, tokens, nesting, htakes, hderives, hle, habove, -⟩, hend⟩ := hkeeps
      refine ⟨tokens, nesting, htakes, hderives.weaken habove, by omega, ?_⟩
      rcases hend with hnone | hnil
      · exact Table.infixRuleAbove_eq_none_iff.mp hnone
      · simp only [Cursor.peek, hnil]
        exact Power.lowest_le power
    · intro rule before after start last hbefore htest _ hbody
      exact h.readInfix hbefore htest hbody

/-- A terminator is read where the grammar has one. -/
theorem expectTerminator {c stop : Cursor} {u : Unit} {inside : Bool}
    (hinside : inside = decide (0 < c.openBraces))
    (hrun : Routine.expectTerminator.run c = (.ok u, stop)) :
    ∃ tokens, c.Takes tokens stop ∧ Terminator inside stop.peek.kind tokens := by
  rw [run_expectTerminator] at hrun
  split at hrun
  · rename_i hends
    cases hrun
    refine ⟨[], .nil _, ?_⟩
    simp only [Cursor.peekEndsStatement] at hends
    split at hends
    · exact .endOfInput ‹_›
    · exact .endOfBlock (hinside.trans hends) ‹_›
    · contradiction
  · obtain ⟨hkind, rfl⟩ := run_expectPeek_eq_ok_iff.mp hrun
    exact ⟨_, .single (by simp [hkind]), .semicolon hkind⟩

/-- A statement with a value ends with the value and a terminator. -/
theorem of_value (h : inner.Sound levels) {c stop : Cursor} {tree : Stmt} {next : Expr → Stmt}
    {inside : Bool} (hinside : inside = decide (0 < c.openBraces))
    (hrun : (do
      let value ← inner.expr .lowest
      Routine.expectTerminator
      return next value).run c.advance = (.ok tree, stop)) :
    ∃ value first second nesting, tree = next value ∧ c.Takes (first ++ second) stop ∧
      Derives (.expr .equality value) first nesting ∧
        Terminator inside stop.peek.kind second ∧ nesting < levels := by
  obtain ⟨value, afterValue, hvalue, hrest⟩ := run_bind_eq_ok_iff.mp hrun
  obtain ⟨_, last, hend, hrest⟩ := run_bind_eq_ok_iff.mp hrest
  cases hrest
  obtain ⟨first, nesting, htakes, hderives, hlt, -⟩ := h.expr hvalue
  have hbraces := htakes.openBraces_of_balanced hderives.balanced
  obtain ⟨second, htakesSecond, hsecond⟩ := expectTerminator (hbraces ▸ hinside) hend
  exact ⟨value, first, second, nesting, rfl, htakes.append htakesSecond, hderives, hsecond, hlt⟩

theorem readBinding (h : inner.Sound levels) {c stop : Cursor} {tree : Stmt} {inside : Bool}
    (hinside : inside = decide (0 < c.openBraces)) (hkind : c.peek.kind = .kwLet)
    (hrun : inner.readBinding.run c.advance = (.ok tree, stop)) :
    ∃ tokens nesting, c.Takes tokens stop ∧
      Derives (.stmt inside stop.peek.kind tree) tokens nesting ∧ nesting ≤ levels := by
  simp only [Level.readBinding, run_current_bind] at hrun
  obtain ⟨hname, hrest⟩ := run_expectPeek_bind_eq_ok_iff.mp hrun
  rw [run_current_bind] at hrest
  obtain ⟨hassignment, hrest⟩ := run_expectPeek_bind_eq_ok_iff.mp hrest
  rw [run_advance_bind] at hrest
  have hhead : c.Takes [c.peek, c.advance.peek, c.advance.advance.peek] c.advance.advance.advance :=
    ((Cursor.Takes.single (by simp [hkind])).snoc (by simp [hname])).snoc (by simp [hassignment])
  have hbraces := hhead.openBraces_of_balanced
    (.cons (by simp [hkind]) (by simp [hkind]) (.cons (by simp [hname]) (by simp [hname])
      (.single (by simp [hassignment]) (by simp [hassignment]))))
  obtain ⟨value, first, second, nesting, rfl, htakes, hderives, hsecond, hlt⟩ :=
    h.of_value (hbraces ▸ hinside) hrest
  refine ⟨_, _, ?_, .binding hkind hname hassignment hderives hsecond, hlt⟩
  exact hhead.append htakes

theorem readReturning (h : inner.Sound levels) {c stop : Cursor} {tree : Stmt} {inside : Bool}
    (hinside : inside = decide (0 < c.openBraces)) (hkind : c.peek.kind = .kwReturn)
    (hrun : inner.readReturning.run c.advance = (.ok tree, stop)) :
    ∃ tokens nesting, c.Takes tokens stop ∧
      Derives (.stmt inside stop.peek.kind tree) tokens nesting ∧ nesting ≤ levels := by
  have hkw : c.Takes [c.peek] c.advance := .single (by simp [hkind])
  have hbraces := hkw.openBraces_of_balanced (.single (by simp [hkind]) (by simp [hkind]))
  simp only [Level.readReturning, run_current_bind, run_here_bind] at hrun
  split at hrun
  · obtain ⟨_, last, hend, hrest⟩ := run_bind_eq_ok_iff.mp hrun
    cases hrest
    obtain ⟨second, htakesSecond, hsecond⟩ := expectTerminator (hbraces ▸ hinside) hend
    exact ⟨_, 0, hkw.append htakesSecond, .returningNothing hkind hsecond, Nat.zero_le _⟩
  · rw [run_advance_bind] at hrun
    obtain ⟨value, first, second, nesting, rfl, htakes, hderives, hsecond, hlt⟩ :=
      h.of_value (hbraces ▸ hinside) hrun
    refine ⟨_, _, ?_, .returning hkind hderives hsecond, hlt⟩
    exact hkw.append htakes

theorem readExpression (h : inner.Sound levels) {c stop : Cursor} {tree : Stmt} {inside : Bool}
    (hrun : inner.readExpression.run c.advance = (.ok tree, stop)) :
    ∃ tokens nesting, c.Takes tokens stop ∧
      Derives (.stmt inside stop.peek.kind tree) tokens nesting ∧ nesting ≤ levels := by
  simp only [Level.readExpression, run_current_bind] at hrun
  obtain ⟨value, afterValue, hvalue, hrest⟩ := run_bind_eq_ok_iff.mp hrun
  obtain ⟨tokens, nesting, htakes, hderives, hlt, hpower⟩ := h.expr hvalue
  obtain ⟨token, first, rfl, -⟩ := hderives.exists_first_of_expr
  simp only [run_peekKind_bind] at hrest
  rw [Cursor.current_advance, htakes.peek_eq] at hrest
  split at hrest
  · rename_i hsemicolon
    cases hrest
    exact ⟨_, _, htakes.snoc (by simp [hsemicolon]),
      .expression hderives (.semicolon hsemicolon), hlt⟩
  · cases hrest
    refine ⟨_, _, ?_, .expression hderives (.nothing (Table.power_le_lowest_iff.mp hpower)), hlt⟩
    simpa using htakes

/-- A statement is read as one of the grammar, inside a block or not as the braces tell. -/
theorem readStmt (h : inner.Sound levels) {c stop : Cursor} {tree : Stmt} {inside : Bool}
    (hinside : inside = decide (0 < c.openBraces))
    (hrun : inner.readStmt.run c.advance = (.ok tree, stop)) :
    ∃ tokens nesting, c.Takes tokens stop ∧
      Derives (.stmt inside stop.peek.kind tree) tokens nesting ∧ nesting ≤ levels := by
  simp only [Level.readStmt, run_current_bind, Cursor.current_advance] at hrun
  split at hrun
  · exact h.readBinding hinside ‹_› hrun
  · exact h.readReturning hinside ‹_› hrun
  · exact h.readExpression hrun

/-- Statements up to a closing brace are read as the contents of a block. -/
theorem readStmts (h : inner.Sound levels) {c stop : Cursor} {trees : List Stmt}
    (hinside : 0 < c.openBraces)
    (hrun : (LetScript.readStmts inner.readStmt).run c.advance = (.ok trees, stop)) :
    ∃ tokens closing nesting, c.Takes (tokens ++ [closing]) stop ∧ closing.kind = .closeCurly ∧
      Derives (.stmts true .closeCurly trees) tokens nesting ∧ nesting ≤ levels := by
  revert hinside
  refine run_readStmts_ok ?_ ?_ hrun
  · intro c hclosing _
    have hbrace : c.Takes [c.peek] c.advance := .single (by simp [hclosing])
    exact ⟨[], c.peek, 0, hbrace, hclosing, .noStmts, Nat.zero_le _⟩
  · intro c after stop first rest hfirst ih hinside
    obtain ⟨tokens, m, htakes, hderives, hm⟩ := h.readStmt (decide_eq_true hinside).symm hfirst
    have hbraces := htakes.openBraces_of_balanced hderives.balanced
    obtain ⟨more, closing, n, htakesMore, hclosing, hmore, hn⟩ := ih (hbraces ▸ hinside)
    have hnext : after.peek.kind = firstKind more .closeCurly := by
      rw [htakesMore.peek_kind_eq, firstKind_append, firstKind_cons, hclosing]
    rw [hnext] at hderives
    refine ⟨tokens ++ more, closing, max m n, ?_, hclosing, .moreStmts hderives hmore, by omega⟩
    simpa using htakes.append htakesMore

/-- A block is read as one of the grammar. -/
theorem readBlock (h : inner.Sound levels) {c stop : Cursor} {tree : Block}
    (hkind : c.peek.kind = .openCurly)
    (hrun : inner.readBlock.run c.advance = (.ok tree, stop)) :
    ∃ tokens nesting, c.Takes tokens stop ∧ Derives (.block tree) tokens nesting ∧
      nesting ≤ levels + 1 := by
  simp only [Level.readBlock, run_current_bind, run_advance_bind] at hrun
  obtain ⟨trees, last, htrees, hrest⟩ := run_bind_eq_ok_iff.mp hrun
  cases hrest
  have hopening : c.Takes [c.peek] c.advance := .single (by simp [hkind])
  have hinside := Cursor.openBraces_advance_pos hkind
  obtain ⟨tokens, closing, nesting, htakes, hclosing, hderives, hle⟩ := h.readStmts hinside htrees
  exact ⟨_, _, hopening.append htakes, .block hkind hderives hclosing, by omega⟩

end Sound

end Level

/-- The routines of every level of the language are sound. -/
theorem Table.sound_level (levels : Nat) : (standard.level levels).Sound levels := by
  induction levels with
  | zero =>
    constructor
    · intro power c stop tree hrun
      cases hrun
    · intro c stop tree _ hrun
      cases hrun
  | succ levels ih => exact ⟨ih.readExpr, ih.readBlock⟩

end LetScript
