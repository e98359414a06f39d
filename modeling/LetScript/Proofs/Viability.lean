import LetScript.Proofs.Completeness
import LetScript.Proofs.Completion
import LetScript.Proofs.Detection
import LetScript.Proofs.Soundness

/-!
# Every failure is detected

What stands before the token at which a routine fails can be completed to a phrase of the grammar,
whatever is open there. Each routine has its own completion at each place where it may fail, and
a failure of a part is completed as the part is and then as the whole.

The proof goes up the levels as it does for what is read: if the routines of a level detect their
failures, those of the next one do.
-/

namespace LetScript

open Routine

/-- Members that may be listed with a comma between each two: `One` tells the tokens of a member,
`Some` those of a list. -/
structure Listed {α : Type} (member : Routine α) (One : α → List Token → Prop)
    (Some : List α → List Token → Prop) : Prop where
  one {a : α} {tokens : List Token} : One a tokens → Some [a] tokens
  more {before : List α} {a : α} {comma : Token} {first second : List Token} :
    Some before first → comma.kind = .comma → One a second →
      Some (before ++ [a]) (first ++ comma :: second)
  steady : member.Steady
  taken {c stop : Cursor} {a : α} : member.run c = (.ok a, stop) →
    ∃ tokens, c.Takes tokens stop ∧ One a tokens
  detects {c stop : Cursor} {diagnostic : Diagnostic} :
    member.run c = (.error diagnostic, stop) →
      Detects c (fun tokens => ∃ a, One a tokens) member c diagnostic

/-- The tokens may be those of one member or more and the closing parenthesis. -/
def IsList {α : Type} (Some : List α → List Token → Prop) (tokens : List Token) : Prop :=
  ∃ members inside closing, tokens = inside ++ [closing] ∧ closing.kind = .closeParen ∧
    Some members inside

theorem Routine.Steady.readMoreMembers {α : Type} {member : Routine α} (h : member.Steady)
    (members : List α) : (readMoreMembers member members).Steady :=
  .whileNext (fun halike => by rw [halike.peek]) (fun _ members => .bind h fun a => .pure _) members

theorem Routine.Steady.readMembers {α : Type} {member : Routine α} (h : member.Steady) :
    (readMembers member).Steady := by
  refine .bind .peekKind fun kind => ?_
  split
  · exact .bind .advance fun _ => .pure _
  · exact .bind h fun first => .bind (h.readMoreMembers [first]) fun members =>
      .bind (.expectPeek .closeParen) fun _ => .pure _

/-- Where there is no closing brace, a statement is read, and then the others. -/
theorem run_readStmts_of_alike {statement : Routine Stmt} {c c' : Cursor} (halike : c.Alike c')
    (hclosing : c.peek.kind ≠ .closeCurly) :
    (advance >>= fun _ => readStmts statement).run c' =
      (do
        advance
        let first ← statement
        advance
        let rest ← readStmts statement
        return first :: rest).run c' := by
  rw [run_advance_bind, run_readStmts_of_ne halike.tail_ne_nil']
  · rfl
  · rwa [Cursor.current_advance, halike.peek]

namespace Listed

variable {α : Type} {member : Routine α} {One : α → List Token → Prop}
  {Some : List α → List Token → Prop} {origin c stop : Cursor} {diagnostic : Diagnostic}

/-- What was listed is completed by the closing parenthesis. -/
theorem exists_isList {members : List α} {inside : List Token} (h : Some members inside) :
    ∃ more, IsList Some (inside ++ more) :=
  ⟨[.ofKind .closeParen], members, inside, _, rfl, rfl, h⟩

/-- A comma and a member after it prolong what was listed. -/
theorem round (h : Listed member One Some) {before after : List α} {start last : Cursor}
    (hbefore : ∃ tokens, origin.Takes tokens start ∧ Some before tokens)
    (hcomma : start.peek.kind = .comma)
    (hrun : (do return before ++ [← member] : Routine (List α)).run start.advance =
      (.ok after, last)) :
    ∃ tokens, origin.Takes tokens last ∧ Some after tokens := by
  obtain ⟨first, htakes, hsome⟩ := hbefore
  obtain ⟨a, _, ha, hpure⟩ := run_bind_eq_ok_iff.mp hrun
  obtain ⟨second, htakesSecond, hsecond⟩ := h.taken ha
  cases hpure
  refine ⟨_, ?_, h.more hsome hcomma hsecond⟩
  simpa using (htakes.snoc (by simp [hcomma])).append htakesSecond

/-- The loop over the members after the first fails in one of them. -/
theorem readMoreMembers (h : Listed member One Some) {members : List α}
    (hstart : ∃ tokens, origin.Takes tokens c ∧ Some members tokens)
    (hrun : (readMoreMembers member members).run c = (.error diagnostic, stop)) :
    Detects origin (IsList Some) (LetScript.readMoreMembers member members) c diagnostic := by
  refine Detects.whileNext
    (fun before start => ∃ tokens, origin.Takes tokens start ∧ Some before tokens)
    (fun halike => by rw [halike.peek]) (fun _ members => .bind h.steady fun a => .pure _)
    (fun hbefore htest _ hbody => h.round hbefore (kind_of_comma htest) hbody) ?_ hstart hrun
  rintro found before start ⟨first, htakes, hsome⟩ htest hbody
  have hcomma := kind_of_comma htest
  rcases run_bind_eq_error_iff.mp hbody with hbody | ⟨_, _, _, hpure⟩
  · refine .advance (((h.detects hbody).within (htakes.snoc (by simp [hcomma])) ?_).bind _)
    rintro second ⟨a, ha⟩
    simpa using exists_isList (h.more hsome hcomma ha)
  · cases hpure

/-- A list in parentheses fails in a member or where it is neither continued nor closed. -/
theorem readMembers (h : Listed member One Some)
    (hrun : (readMembers member).run c = (.error diagnostic, stop)) :
    Detects c (IsList Some) (LetScript.readMembers member) c diagnostic := by
  have hne : c.peek.kind ≠ .closeParen := by
    intro hclosing
    rw [LetScript.readMembers, run_peekKind_bind, if_pos hclosing] at hrun
    cases hrun
  rw [run_readMembers_of_ne hne, Routine.bind_assoc] at hrun
  suffices hmembers : Detects c (IsList Some) (member >>= fun a =>
      LetScript.readMoreMembers member [a] >>= fun members => do
        expectPeek .closeParen
        return members) c diagnostic from
    hmembers.congr fun c' halike => by
      rw [run_readMembers_of_ne (by rwa [halike.peek]), Routine.bind_assoc]
  rcases run_bind_eq_error_iff.mp hrun with hfirst | ⟨a, between, hfirst, hrest⟩
  · refine ((h.detects hfirst).within (.nil c) ?_).bind _
    rintro phrase ⟨a, ha⟩
    exact exists_isList (h.one ha)
  · obtain ⟨tokens, htakes, ha⟩ := h.taken hfirst
    have hstart : ∃ tokens, c.Takes tokens between ∧ Some [a] tokens := ⟨tokens, htakes, h.one ha⟩
    refine .andThen h.steady hfirst ?_
    rcases run_bind_eq_error_iff.mp hrest with hloop | ⟨members, last, hloop, hrest⟩
    · exact (h.readMoreMembers hstart hloop).bind _
    · obtain ⟨⟨tokens, htakes, hsome⟩, -⟩ := run_whileNext_ok
        (fun before start => ∃ tokens, c.Takes tokens start ∧ Some before tokens) hstart
        (fun hbefore htest _ hbody => h.round hbefore (kind_of_comma htest) hbody) hloop
      refine .andThen (h.steady.readMoreMembers _) hloop
        (.expectPeek htakes (by decide) (exists_isList hsome) hrest fun _ _ hpure => ?_)
      cases hpure

end Listed

/-- Parameters are listed. -/
theorem listed_readParameter : Listed readParameter
    (fun id tokens => ∃ name, tokens = [name] ∧ name.kind = .identifier ∧ id = .ofToken name)
    Names where
  one := by
    rintro id _ ⟨name, rfl, hname, rfl⟩
    exact .one hname
  more := by
    rintro before id comma first _ hbefore hcomma ⟨name, rfl, hname, rfl⟩
    exact .more hbefore hcomma hname
  steady := Follows.steady Identifier.relocate_id fun _ _ => Level.Follows.readParameter
  taken := by
    intro c stop id hrun
    obtain ⟨htakes, hname, rfl⟩ := Level.readParameter_ok hrun
    exact ⟨_, htakes, _, rfl, hname, rfl⟩
  detects := by
    intro c stop diagnostic hrun
    refine .expectPeek (.nil c) (by decide) ?_ hrun fun _ _ hpure => ?_
    · exact ⟨[.someName], _, .someName, rfl, rfl, rfl⟩
    · cases hpure

namespace Level

/-- The failures of a level are detected. -/
structure Detecting (level : Level) (levels : Nat) : Prop where
  sound : level.Sound levels
  follows (left right : List Token) : level.Follows (.sharing left right) level
  expr {power : Power} {c stop : Cursor} {diagnostic : Diagnostic} :
    (level.expr power).run c.advance = (.error diagnostic, stop) →
      Detects c (IsExpr (.above power)) (advance >>= fun _ => level.expr power) c diagnostic
  block {c stop : Cursor} {diagnostic : Diagnostic} : c.peek.kind = .openCurly →
    level.block.run c.advance = (.error diagnostic, stop) →
      Detects c IsBlock (advance >>= fun _ => level.block) c diagnostic

namespace Detecting

variable {α : Type} {inner : Level} {levels : Nat} {origin c stop : Cursor}
  {language : List Token → Prop} {tokens : List Token} {diagnostic : Diagnostic}

theorem steady_expr (h : inner.Detecting levels) (power : Power) : (inner.expr power).Steady :=
  Follows.steady Expr.relocate_id fun left right =>
    ((h.follows left right).expr power).mono (fun _ _ => trivial) fun _ => id

theorem steady_block (h : inner.Detecting levels) : inner.block.Steady :=
  Follows.steady Block.relocate_id fun left right => (h.follows left right).block

theorem steady_readPrefix (h : inner.Detecting levels) (rule : PrefixRule) :
    (inner.readPrefix rule).Steady :=
  Follows.steady Expr.relocate_id fun left right => (h.follows left right).readPrefix rule

theorem steady_readInfix (h : inner.Detecting levels) (rule : InfixRule) (left : Expr) :
    (inner.readInfix Table.standard rule left).Steady := by
  have hfollows (first second : List Token) :=
    (h.follows first second).readInfix Table.standard rule left
  have hleft (first second : List Token) :
      left.relocate (Simulation.sharing first second).relocation = left :=
    Expr.relocate_id left
  simp only [hleft] at hfollows
  exact Follows.steady Expr.relocate_id hfollows

theorem steady_readStmt (h : inner.Detecting levels) : inner.readStmt.Steady :=
  Follows.steady Stmt.relocate_id fun left right =>
    (h.follows left right).readStmt.mono (fun _ _ => trivial) fun _ => id

/-- A failure of a nested expression, or one after it. -/
theorem of_expr (h : inner.Detecting levels) {power : Power} {next : Expr → Routine α}
    (htakes : origin.Takes tokens c)
    (hrun : (inner.expr power >>= next).run c.advance = (.error diagnostic, stop))
    (hcompletes : ∀ phrase, IsExpr (.above power) phrase →
      ∃ more, language (tokens ++ phrase ++ more))
    (hnext : ∀ {tree between phrase}, IsExpr (.above power) phrase →
      origin.Takes (tokens ++ phrase) between →
        (next tree).run between = (.error diagnostic, stop) →
          Detects origin language (next tree) between diagnostic) :
    Detects origin language (advance >>= fun _ => inner.expr power >>= next) c diagnostic := by
  rcases run_bind_eq_error_iff.mp hrun with hexpr | ⟨tree, between, hexpr, hrest⟩
  · exact ((h.expr hexpr).within htakes hcompletes).bindNext next
  · obtain ⟨phrase, nesting, htaken, hderives, -, -⟩ := h.sound.expr hexpr
    exact .advance (.andThen (h.steady_expr power) hexpr
      (hnext ⟨tree, nesting, hderives⟩ (htakes.append htaken) hrest))

/-- No opening brace, a failure of the block that starts with it, or one after the block. -/
theorem of_expectBlock (h : inner.Detecting levels) {next : Block → Routine α}
    (htakes : origin.Takes tokens c)
    (hrun : (expectPeek .openCurly >>= fun _ => inner.block >>= next).run c =
      (.error diagnostic, stop))
    (hcompletes : ∀ phrase, IsBlock phrase → ∃ more, language (tokens ++ phrase ++ more))
    (hnext : ∀ {tree between phrase}, IsBlock phrase →
      origin.Takes (tokens ++ phrase) between →
        (next tree).run between = (.error diagnostic, stop) →
          Detects origin language (next tree) between diagnostic) :
    Detects origin language (expectPeek .openCurly >>= fun _ => inner.block >>= next) c
      diagnostic := by
  rcases run_expectPeek_bind_eq_error_iff.mp hrun with hfirst | ⟨hopening, hrest⟩
  · refine .expectPeek htakes (by decide) ?_ hrun fun hopening => ?_
    · obtain ⟨more, hlanguage⟩ := hcompletes _ isBlock_empty
      exact ⟨Block.emptyTokens ++ more, by simpa using hlanguage⟩
    · exact absurd hopening (run_expectPeek_eq_error_iff.mp hfirst).1
  · suffices hadvance : Detects origin language (advance >>= fun _ => inner.block >>= next) c
        diagnostic from
      hadvance.congr fun c' halike =>
        run_expectPeek_bind_of_eq (halike.peek ▸ hopening) fun _ => inner.block >>= next
    rcases run_bind_eq_error_iff.mp hrest with hblock | ⟨tree, between, hblock, hrest⟩
    · exact ((h.block hopening hblock).within htakes hcompletes).bindNext next
    · obtain ⟨phrase, nesting, htaken, hderives, -⟩ := h.sound.block hopening hblock
      exact .advance (.andThen h.steady_block hblock
        (hnext ⟨tree, nesting, hderives⟩ (htakes.append htaken) hrest))

theorem readPrefixOp (h : inner.Detecting levels)
    (hkind : c.peek.kind = .dash ∨ c.peek.kind = .not)
    (hrun : inner.readPrefixOp.run c.advance = (.error diagnostic, stop)) :
    Detects c (IsExpr .unary) (advance >>= fun _ => inner.readPrefixOp) c diagnostic := by
  have hop : c.Takes [c.peek] c.advance :=
    .single (by rcases hkind with hkind | hkind <;> simp [hkind])
  rw [Level.readPrefixOp] at hrun ⊢
  rw [run_current_bind, run_advance_bind] at hrun
  refine .advance (.current (h.of_expr hop hrun ?_ fun _ _ hpure => ?_))
  · rintro phrase ⟨right, nesting, hderives⟩
    exact ⟨[], _, _, by simpa using Derives.prefixOp hkind hderives⟩
  · cases hpure

theorem readGrouping (h : inner.Detecting levels) (hkind : c.peek.kind = .openParen)
    (hrun : inner.readGrouping.run c.advance = (.error diagnostic, stop)) :
    Detects c (IsExpr .primary) (advance >>= fun _ => inner.readGrouping) c diagnostic := by
  have hopening : c.Takes [c.peek] c.advance := .single (by simp [hkind])
  have hcompletes {phrase : List Token} (hphrase : IsExpr .equality phrase) :
      IsExpr .primary ([c.peek] ++ phrase ++ [.ofKind .closeParen]) := by
    obtain ⟨tree, nesting, hderives⟩ := hphrase
    exact ⟨_, _, .grouping hkind hderives rfl⟩
  rw [Level.readGrouping] at hrun ⊢
  rw [run_advance_bind] at hrun
  refine .advance (h.of_expr hopening hrun (fun _ hphrase => ⟨_, hcompletes hphrase⟩)
    fun hphrase htakes hrun => ?_)
  refine .expectPeek htakes (by decide) ⟨_, hcompletes hphrase⟩ hrun fun _ _ hpure => ?_
  cases hpure

theorem readConditional (h : inner.Detecting levels) (hkind : c.peek.kind = .kwIf)
    (hrun : inner.readConditional.run c.advance = (.error diagnostic, stop)) :
    Detects c (IsExpr .primary) (advance >>= fun _ => inner.readConditional) c diagnostic := by
  have hkw : c.Takes [c.peek] c.advance := .single (by simp [hkind])
  have hcompletes {opening closing : Token} {first second : List Token}
      (hopening : opening.kind = .openParen) (hfirst : IsExpr .equality first)
      (hclosing : closing.kind = .closeParen) (hsecond : IsBlock second) :
      IsExpr .primary ([c.peek] ++ [opening] ++ first ++ [closing] ++ second) := by
    simpa using IsExpr.conditional hkind hopening hfirst hclosing hsecond
  have hname := isExpr_someName .equality
  rw [Level.readConditional] at hrun ⊢
  rw [run_current_bind] at hrun
  refine .advance (.current (.expectPeek hkw (by decide) ?_ hrun fun hopening htakes hrun => ?_))
  · exact ⟨.ofKind .openParen :: .someName :: .ofKind .closeParen :: Block.emptyTokens,
      hcompletes rfl hname rfl isBlock_empty⟩
  rw [run_advance_bind] at hrun
  refine h.of_expr htakes hrun (fun first hfirst => ?_) fun hfirst htakes hrun => ?_
  · exact ⟨.ofKind .closeParen :: Block.emptyTokens,
      by simpa using hcompletes hopening hfirst rfl isBlock_empty⟩
  refine .expectPeek htakes (by decide) ?_ hrun fun hclosing htakes hrun => ?_
  · exact ⟨.ofKind .closeParen :: Block.emptyTokens,
      by simpa using hcompletes hopening hfirst rfl isBlock_empty⟩
  refine h.of_expectBlock htakes hrun (fun second hsecond => ?_) fun hsecond htakes hrun => ?_
  · exact ⟨[], by simpa using hcompletes hopening hfirst hclosing hsecond⟩
  refine .peekKind ?_
  rw [run_peekKind_bind] at hrun
  split
  · rename_i helse
    rw [if_pos helse, run_advance_bind] at hrun
    have hcompletesElse {third : List Token} (hthird : IsBlock third) :=
      IsExpr.conditionalElse hkind hopening hfirst hclosing hsecond helse hthird
    refine .advance (h.of_expectBlock (htakes.snoc (by simp [helse])) hrun
      (fun third hthird => ?_) fun _ _ hpure => ?_)
    · exact ⟨[], by simpa using hcompletesElse hthird⟩
    · cases hpure
  · rename_i helse
    rw [if_neg helse] at hrun
    cases hrun

theorem readFunction (h : inner.Detecting levels) (hkind : c.peek.kind = .kwFn)
    (hrun : inner.readFunction.run c.advance = (.error diagnostic, stop)) :
    Detects c (IsExpr .primary) (advance >>= fun _ => inner.readFunction) c diagnostic := by
  have hkw : c.Takes [c.peek] c.advance := .single (by simp [hkind])
  have hcompletes {opening closing : Token} {first second : List Token}
      {parameters : List Identifier} (hopening : opening.kind = .openParen)
      (hfirst : Parameters parameters first) (hclosing : closing.kind = .closeParen)
      (hsecond : IsBlock second) :
      IsExpr .primary ([c.peek] ++ [opening] ++ (first ++ [closing]) ++ second) := by
    simpa using IsExpr.function hkind hopening hfirst hclosing hsecond
  rw [Level.readFunction] at hrun ⊢
  rw [run_current_bind] at hrun
  refine .advance (.current (.expectPeek hkw (by decide) ?_ hrun fun hopening htakes hrun => ?_))
  · exact ⟨.ofKind .openParen :: .ofKind .closeParen :: Block.emptyTokens,
      hcompletes rfl .none rfl isBlock_empty⟩
  rcases run_bind_eq_error_iff.mp hrun with hmembers | ⟨parameters, between, hmembers, hrun⟩
  · refine ((listed_readParameter.readMembers hmembers).within htakes ?_).bind _
    rintro _ ⟨parameters, first, closing, rfl, hclosing, hnames⟩
    exact ⟨_, hcompletes hopening (.some hnames) hclosing isBlock_empty⟩
  · obtain ⟨first, closing, htaken, hclosing, hfirst⟩ := readParameters_ok hmembers
    refine .andThen listed_readParameter.steady.readMembers hmembers (h.of_expectBlock
      (htakes.append htaken) hrun (fun second hsecond => ?_) fun _ _ hpure => ?_)
    · exact ⟨[], by simpa using hcompletes hopening hfirst hclosing hsecond⟩
    · cases hpure

/-- Arguments are listed. -/
theorem listed_readArgument (h : inner.Detecting levels) : Listed inner.readArgument
    (fun tree tokens => ∃ nesting, Derives (.expr .equality tree) tokens nesting)
    (fun trees tokens => ∃ nesting, Derives (.someArguments trees) tokens nesting) where
  one := by
    rintro tree tokens ⟨nesting, hderives⟩
    exact ⟨_, .oneArgument hderives⟩
  more := by
    rintro before tree comma first second ⟨m, hbefore⟩ hcomma ⟨n, hderives⟩
    exact ⟨_, .moreArguments hbefore hcomma hderives⟩
  steady := .bind .advance fun _ => h.steady_expr _
  taken := by
    intro c stop tree hrun
    obtain ⟨tokens, nesting, htakes, hderives, -⟩ := h.sound.readArgument hrun
    exact ⟨tokens, htakes, nesting, hderives⟩
  detects := by
    intro c stop diagnostic hrun
    rw [Level.readArgument, run_advance_bind] at hrun
    exact h.expr hrun

/-- A failure of the rule of the first token. -/
theorem readPrefix (h : inner.Detecting levels) {rule : PrefixRule}
    (hrule : Table.standard.prefixRule c.peek.kind = some rule)
    (hrun : (inner.readPrefix rule).run c.advance = (.error diagnostic, stop)) :
    Detects c (IsExpr .unary) (advance >>= fun _ => inner.readPrefix rule) c diagnostic := by
  have hunary {routine : Routine Expr}
      (hdetects : Detects c (IsExpr .primary) (advance >>= fun _ => routine) c diagnostic) :
      Detects c (IsExpr .unary) (advance >>= fun _ => routine) c diagnostic :=
    hdetects.within (.nil c) fun phrase hphrase =>
      ⟨[], by simpa using hphrase.weaken (by decide : Stratum.unary ≤ .primary)⟩
  cases rule with
  | identifier => cases hrun
  | integer =>
    rw [Level.readPrefix, readInteger, run_current_bind, Cursor.current_advance] at hrun
    split at hrun
    · cases hrun
    · rename_i hvalue
      cases hrun
      refine .here (.nil c) (isExpr_someName .unary) rfl fun c' halike => ?_
      simp only [run_advance_bind, Level.readPrefix, readInteger, run_current_bind, run_fail,
        Cursor.position, Cursor.current_advance, halike.peek, hvalue]
  | boolean => cases hrun
  | prefixOp => exact h.readPrefixOp (Table.kind_of_prefixRule hrule) hrun
  | grouping => exact hunary (h.readGrouping (Table.kind_of_prefixRule hrule) hrun)
  | conditional => exact hunary (h.readConditional (Table.kind_of_prefixRule hrule) hrun)
  | function => exact hunary (h.readFunction (Table.kind_of_prefixRule hrule) hrun)

/-- A failure of the right operand. -/
theorem readInfixOp (h : inner.Detecting levels) {power : Power} {start : Cursor} {left : Expr}
    (hleft : Sound.ReadSoFar levels power c left start)
    (hrule : Table.standard.infixRuleAbove power start.peek.kind = some .infixOp)
    (hrun : (inner.readInfixOp Table.standard left).run start.advance =
      (.error diagnostic, stop)) :
    Detects c (IsExpr (.above power)) (advance >>= fun _ => inner.readInfixOp Table.standard left)
      start diagnostic := by
  obtain ⟨stratum, first, m, htakes, hderives, -, -, hfollow⟩ := hleft
  obtain ⟨hlt, other, hmem⟩ := Table.exists_stratum_of_infixOp hrule
  have hpower := Table.power_of_mem_operators hmem
  rw [hpower] at hlt hfollow
  have habove := (Stratum.above_le_iff hmem power).mpr hlt
  have hoperand := hderives.weaken (Stratum.le_of_power_le hmem hfollow)
  rw [Level.readInfixOp] at hrun ⊢
  rw [run_current_bind, run_advance_bind] at hrun
  refine .advance (.current (h.of_expr (htakes.snoc (Kind.plain_of_mem_operators hmem).1.1) hrun
    ?_ fun _ _ hpure => ?_))
  · rintro second ⟨right, n, hsecond⟩
    rw [Cursor.current_advance, hpower, Stratum.above_power hmem] at hsecond
    exact ⟨[], _, _, by simpa using (Derives.infixOp hoperand hmem hsecond).weaken habove⟩
  · cases hpure

/-- A failure of the arguments of a call. -/
theorem readCall (h : inner.Detecting levels) {power : Power} {start : Cursor} {callee : Expr}
    (hcallee : Sound.ReadSoFar levels power c callee start)
    (hrule : Table.standard.infixRuleAbove power start.peek.kind = some .call)
    (hrun : (inner.readCall callee).run start.advance = (.error diagnostic, stop)) :
    Detects c (IsExpr (.above power)) (advance >>= fun _ => inner.readCall callee) start
      diagnostic := by
  obtain ⟨stratum, first, m, htakes, hderives, -, -, hfollow⟩ := hcallee
  have hopening := Table.eq_openParen_of_call hrule
  rw [hopening] at hfollow
  have hfirst := hderives.weaken (Stratum.call_le_of_power_le hfollow)
  have habove := Stratum.le_trans (Stratum.above_le_unary power)
    (by decide : Stratum.unary ≤ .call)
  rw [Level.readCall] at hrun ⊢
  rw [run_current_bind] at hrun
  rcases run_bind_eq_error_iff.mp hrun with hmembers | ⟨_, _, _, hpure⟩
  · refine .advance (.current ((((listed_readArgument h).readMembers hmembers).within
      (htakes.snoc (by simp [hopening])) ?_).bind _))
    rintro _ ⟨trees, second, closing, rfl, hclosing, n, hsecond⟩
    have hcall := Derives.call hfirst hopening (.arguments hsecond) hclosing
    exact ⟨[], _, _, by simpa using hcall.weaken habove⟩
  · cases hpure

/-- A failure of the rule of a token after an expression. -/
theorem readInfix (h : inner.Detecting levels) {power : Power} {start : Cursor} {left : Expr}
    {rule : InfixRule} (hleft : Sound.ReadSoFar levels power c left start)
    (hrule : Table.standard.infixRuleAbove power start.peek.kind = some rule)
    (hrun : (inner.readInfix Table.standard rule left).run start.advance =
      (.error diagnostic, stop)) :
    Detects c (IsExpr (.above power))
      (advance >>= fun _ => inner.readInfix Table.standard rule left) start diagnostic := by
  cases rule with
  | infixOp => exact h.readInfixOp hleft hrule hrun
  | call => exact h.readCall hleft hrule hrun

theorem readExpr (h : inner.Detecting levels) {power : Power}
    (hrun : (inner.readExpr Table.standard power).run c.advance = (.error diagnostic, stop)) :
    Detects c (IsExpr (.above power)) (advance >>= fun _ => inner.readExpr Table.standard power) c
      diagnostic := by
  cases hrule : Table.standard.prefixRule c.peek.kind with
  | none =>
    rw [Level.readExpr, run_current_bind, Cursor.current_advance, hrule] at hrun
    cases hrun
    refine .here (.nil c) (isExpr_someName _) rfl fun c' halike => ?_
    simp only [run_advance_bind, Level.readExpr, run_current_bind, Cursor.current_advance,
      halike.peek, hrule, run_fail, Cursor.position]
  | some rule =>
    rw [run_readExpr_of_rule (c := c.advance) hrule] at hrun
    suffices hrules : Detects c (IsExpr (.above power))
        (advance >>= fun _ => inner.readPrefix rule >>= inner.readOperators power) c diagnostic from
      hrules.congr fun c' halike => by
        rw [run_advance_bind, run_advance_bind, run_readExpr_of_rule]
        rwa [Cursor.current_advance, halike.peek]
    rcases run_bind_eq_error_iff.mp hrun with hfirst | ⟨left, between, hfirst, hloop⟩
    · exact ((h.readPrefix hrule hfirst).within (.nil c) fun phrase hphrase =>
        ⟨[], by simpa using hphrase.weaken (Stratum.above_le_unary power)⟩).bindNext _
    · refine .advance (.andThen (h.steady_readPrefix rule) hfirst (.whileNext
        (Sound.ReadSoFar levels power c) (fun halike => by rw [halike.peek])
        (fun rule left => h.steady_readInfix rule left)
        (fun hbefore htest _ hbody => h.sound.readInfix hbefore htest hbody)
        (fun hbefore htest hbody => h.readInfix hbefore htest hbody)
        (h.sound.readSoFar_of_readPrefix hrule hfirst power) hloop))

/-- A missing semicolon. -/
theorem expectTerminator_detects (htakes : origin.Takes tokens c)
    (hlanguage : language (tokens ++ [.ofKind .semicolon]))
    (hrun : expectTerminator.run c = (.error diagnostic, stop)) :
    Detects origin language expectTerminator c diagnostic := by
  rw [run_expectTerminator] at hrun
  split at hrun
  · cases hrun
  · rename_i hends
    obtain ⟨hne, rfl, rfl⟩ := run_expectPeek_eq_error_iff.mp hrun
    refine .here htakes hlanguage rfl fun c' halike => ?_
    rw [run_expectTerminator, halike.peekEndsStatement, if_neg hends,
      run_expectPeek_of_ne (by rwa [halike.peek]), halike.peek]

/-- A failure of a value or of the end of the statement after it. -/
theorem of_value (h : inner.Detecting levels) {next : Expr → Stmt}
    (htakes : origin.Takes tokens c)
    (hcompletes : ∀ phrase, IsExpr .equality phrase →
      language (tokens ++ phrase ++ [.ofKind .semicolon]))
    (hrun : (do
      let value ← inner.expr .lowest
      expectTerminator
      return next value).run c.advance = (.error diagnostic, stop)) :
    Detects origin language (advance >>= fun _ => do
      let value ← inner.expr .lowest
      expectTerminator
      return next value) c diagnostic := by
  refine h.of_expr htakes hrun (fun phrase hphrase => ⟨_, hcompletes phrase hphrase⟩)
    fun hphrase htakes hrest => ?_
  rcases run_bind_eq_error_iff.mp hrest with hend | ⟨_, _, _, hpure⟩
  · exact (expectTerminator_detects htakes (hcompletes _ hphrase) hend).bind _
  · cases hpure

theorem readBinding (h : inner.Detecting levels) (inside : Bool) (next : Kind)
    (hkind : c.peek.kind = .kwLet)
    (hrun : inner.readBinding.run c.advance = (.error diagnostic, stop)) :
    Detects c (IsStmt inside next) (advance >>= fun _ => inner.readBinding) c diagnostic := by
  have hkw : c.Takes [c.peek] c.advance := .single (by simp [hkind])
  have hcompletes {name assignment : Token} {first : List Token} (hname : name.kind = .identifier)
      (hassignment : assignment.kind = .assignment) (hfirst : IsExpr .equality first) :
      IsStmt inside next
        ([c.peek] ++ [name] ++ [assignment] ++ first ++ [.ofKind .semicolon]) := by
    obtain ⟨value, n, hvalue⟩ := hfirst
    have hend : (Token.ofKind .semicolon).kind = .semicolon := rfl
    exact ⟨_, _, by
      simpa using Derives.binding hkind hname hassignment hvalue (.semicolon hend)⟩
  have hvalue := isExpr_someName .equality
  rw [Level.readBinding] at hrun ⊢
  rw [run_current_bind] at hrun
  refine .advance (.current (.expectPeek hkw (by decide) ?_ hrun fun hname htakes hrun => ?_))
  · exact ⟨[.someName, .ofKind .assignment, .someName, .ofKind .semicolon],
      hcompletes rfl rfl hvalue⟩
  rw [run_current_bind] at hrun
  refine .current (.expectPeek htakes (by decide) ?_ hrun fun hassignment htakes hrun => ?_)
  · exact ⟨[.ofKind .assignment, .someName, .ofKind .semicolon], hcompletes hname rfl hvalue⟩
  rw [run_advance_bind] at hrun
  exact h.of_value htakes (fun _ hfirst => hcompletes hname hassignment hfirst) hrun

theorem readReturning (h : inner.Detecting levels) (inside : Bool) (next : Kind)
    (hkind : c.peek.kind = .kwReturn)
    (hrun : inner.readReturning.run c.advance = (.error diagnostic, stop)) :
    Detects c (IsStmt inside next) (advance >>= fun _ => inner.readReturning) c diagnostic := by
  have hkw : c.Takes [c.peek] c.advance := .single (by simp [hkind])
  rw [Level.readReturning] at hrun ⊢
  rw [run_current_bind, run_here_bind] at hrun
  by_cases hends : c.advance.peek.kind = .semicolon ∨ c.advance.peekEndsStatement
  · rw [if_pos hends] at hrun
    rcases run_bind_eq_error_iff.mp hrun with hend | ⟨_, _, _, hpure⟩
    · rw [run_expectTerminator] at hend
      split at hend
      · cases hend
      · have hsemicolon := hends.resolve_right ‹_›
        rw [run_expectPeek_of_eq hsemicolon] at hend
        cases hend
    · cases hpure
  · rw [if_neg hends, run_advance_bind] at hrun
    refine .advance (.current ((h.of_value hkw ?_ hrun).congr fun c' halike => ?_))
    · rintro first ⟨value, n, hvalue⟩
      exact ⟨_, _, by simpa using
        Derives.returning hkind hvalue (.semicolon (rfl : Token.kind (.ofKind _) = _))⟩
    · rw [run_here_bind, halike.peek, halike.peekEndsStatement, if_neg hends]

theorem readExpression (h : inner.Detecting levels) (inside : Bool) (next : Kind)
    (hrun : inner.readExpression.run c.advance = (.error diagnostic, stop)) :
    Detects c (IsStmt inside next) (advance >>= fun _ => inner.readExpression) c diagnostic := by
  rw [Level.readExpression] at hrun ⊢
  rw [run_current_bind] at hrun
  suffices hvalue : Detects c (IsStmt inside next) (advance >>= fun _ => do
      let value ← inner.expr .lowest
      if (← Routine.peekKind) = .semicolon then
        advance
      return Stmt.expression c.advance.current value) c diagnostic from
    hvalue.congr fun c' halike => by
      rw [run_advance_bind, run_current_bind, Cursor.current_advance, halike.peek]
      rfl
  refine h.of_expr (.nil c) hrun ?_ fun _ _ hrest => ?_
  · rintro phrase ⟨value, n, hvalue⟩
    obtain ⟨token, first, rfl, -⟩ := hvalue.exists_first_of_expr
    exact ⟨[.ofKind .semicolon], _, _, .expression hvalue (.semicolon rfl)⟩
  · rw [run_peekKind_bind] at hrest
    split at hrest <;> cases hrest

theorem readStmt (h : inner.Detecting levels) (inside : Bool) (next : Kind)
    (hrun : inner.readStmt.run c.advance = (.error diagnostic, stop)) :
    Detects c (IsStmt inside next) (advance >>= fun _ => inner.readStmt) c diagnostic := by
  by_cases hlet : c.peek.kind = .kwLet
  · simp only [Level.readStmt, run_current_bind, Cursor.current_advance, hlet] at hrun
    refine (h.readBinding inside next hlet hrun).congr fun c' halike => ?_
    simp only [run_advance_bind, Level.readStmt, run_current_bind, Cursor.current_advance,
      halike.peek, hlet]
  · by_cases hreturn : c.peek.kind = .kwReturn
    · simp only [Level.readStmt, run_current_bind, Cursor.current_advance, hreturn] at hrun
      refine (h.readReturning inside next hreturn hrun).congr fun c' halike => ?_
      simp only [run_advance_bind, Level.readStmt, run_current_bind, Cursor.current_advance,
        halike.peek, hreturn]
    · simp only [Level.readStmt, run_current_bind, Cursor.current_advance] at hrun
      refine (h.readExpression inside next hrun).congr fun c' halike => ?_
      simp only [run_advance_bind, Level.readStmt, run_current_bind, Cursor.current_advance,
        halike.peek]

/-- Statements up to a closing brace fail in one of them or where the input ends. -/
theorem readStmts (h : inner.Detecting levels)
    (hrun : (LetScript.readStmts inner.readStmt).run c.advance = (.error diagnostic, stop)) :
    Detects c IsBody (advance >>= fun _ => LetScript.readStmts inner.readStmt) c diagnostic := by
  refine run_readStmts_error ?_ ?_ ?_ hrun
  · intro c hnil hdiagnostic _
    subst hdiagnostic
    exact .here (.nil c) isBody_nil rfl fun c' halike => absurd hnil halike.tail_ne_nil
  · intro c hclosing hfirst
    exact (((h.readStmt true .closeCurly hfirst).within (.nil c)
      fun phrase hphrase => ⟨_, hphrase.isBody⟩).bindNext _).congr fun c' halike =>
        run_readStmts_of_alike halike hclosing
  · intro c after first hclosing hfirst ih
    obtain ⟨tokens, nesting, htakes, hderives, -⟩ := h.sound.readStmt rfl hfirst
    have hstmt : IsStmt _ after.peek.kind tokens := ⟨first, nesting, hderives⟩
    have hrest := ih.later htakes fun front rest hhead hbody =>
      hstmt.exists_isBody (fun token hmem => congrArg Token.kind (hhead token hmem)) hbody
    have hstmts : Detects c IsBody (do
        let first ← inner.readStmt
        advance
        let rest ← LetScript.readStmts inner.readStmt
        return first :: rest) c.advance diagnostic :=
      .andThen h.steady_readStmt hfirst (hrest.bindNext _)
    exact hstmts.advance.congr fun c' halike => run_readStmts_of_alike halike hclosing

theorem readBlock (h : inner.Detecting levels) (hkind : c.peek.kind = .openCurly)
    (hrun : inner.readBlock.run c.advance = (.error diagnostic, stop)) :
    Detects c IsBlock (advance >>= fun _ => inner.readBlock) c diagnostic := by
  have hopening : c.Takes [c.peek] c.advance := .single (by simp [hkind])
  rw [Level.readBlock] at hrun ⊢
  rw [run_current_bind, run_advance_bind] at hrun
  rcases run_bind_eq_error_iff.mp hrun with hstmts | ⟨_, _, _, hpure⟩
  · refine .advance (.current (((h.readStmts hstmts).within hopening ?_).bindNext _))
    rintro _ ⟨trees, nesting, body, closing, rfl, hclosing, hbody⟩
    exact ⟨[], _, _, by simpa using Derives.block hkind hbody hclosing⟩
  · cases hpure

end Detecting

end Level

/-- Every level of the language detects its failures. -/
theorem Table.detecting_level (levels : Nat) : (standard.level levels).Detecting levels := by
  induction levels with
  | zero =>
    have hfails {α : Type} (c c' : Cursor) (halike : c.Alike c') :
        ((advance >>= fun _ => fail (.nestingTooDeep nestingLimit) : Routine α).run c').1 =
          .error ⟨.nestingTooDeep nestingLimit, c.peek.position⟩ := by
      rw [run_advance_bind, run_fail, Cursor.position, Cursor.current_advance, halike.peek]
    refine ⟨sound_level 0, fun left right => follows_level _ 0, fun hrun => ?_, fun _ hrun => ?_⟩
    · cases hrun
      exact .here (.nil _) (isExpr_someName _) rfl (hfails _)
    · cases hrun
      exact .here (.nil _) isBlock_empty rfl (hfails _)
  | succ levels ih =>
    exact ⟨sound_level _, fun left right => follows_level _ _, ih.readExpr, ih.readBlock⟩

end LetScript
