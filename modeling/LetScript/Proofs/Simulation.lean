import LetScript.Proofs.Outcome
import LetScript.Proofs.Relocation

/-!
# Two runs side by side

A routine looks at the current and the next token of its cursor, at their kinds and texts and at
the count of open braces, and only ever moves forward. So two runs of it that start on cursors
with the same things to see go the same way. To use this where the cursors differ in something
else, or are the same only for a while, or where some routines inside are exchanged, the
statement is made once for a simulation. It says what two cursors have in common, where the first
run has come too far for the second to follow, and what a failure of the first run may be in the
second.

A simulation may also be blind at some semicolons: there the current tokens are the same, but the
next ones need not be. This does no harm, since no routine looks at what follows a semicolon on
which a statement ended. To tell so, each law says where its routine may start and where it ends
if it succeeds: anywhere, or where the next token is seen.

The values that the two runs give may differ in the places of their tokens, as a relocation of
the simulation tells.
-/

namespace LetScript

/-- The law of blind cursors for a simulation that is nowhere blind. -/
theorem Cursor.kind_of_false {c : Cursor} (h : False) : c.current.kind = .semicolon :=
  h.elim

/-- What two runs that are made side by side have in common. -/
structure Simulation where
  /-- Takes what the first run reads to what the second reads. -/
  relocation : Relocation
  /-- The two runs are at these cursors. -/
  near : Cursor → Cursor → Prop
  /-- The first run is at a cursor to which the second need not follow. -/
  lost : Cursor → Prop
  /-- The first run is at a semicolon after which the second may see something else. -/
  blind : Cursor → Prop
  /-- How a failure of the first run appears in the second. -/
  turns : Diagnostic × Cursor → Diagnostic × Cursor → Prop
  lost_advance {c : Cursor} : lost c → lost c.advance
  lost_of_blind {c : Cursor} : blind c → lost c.advance
  kind_of_blind {c : Cursor} : blind c → c.current.kind = .semicolon
  current {c c' : Cursor} : near c c' → c'.current = c.current.relocate relocation
  openBraces {c c' : Cursor} : near c c' → c'.openBraces = c.openBraces
  peek {c c' : Cursor} : near c c' → ¬ lost c → ¬ blind c →
    c'.peek = c.peek.relocate relocation
  advance {c c' : Cursor} : near c c' → ¬ lost c → ¬ blind c → near c.advance c'.advance
  tokens_eq_nil {c c' : Cursor} : near c c' → ¬ lost c → (c'.tokens = [] ↔ c.tokens = [])
  fails {c c' : Cursor} (diagnostic : Diagnostic) : near c c' →
    turns (diagnostic, c) (diagnostic.relocate relocation, c')

namespace Simulation

variable {S : Simulation}

/-- Once a run is too far, it stays so. -/
theorem lost_of_reaches {c stop : Cursor} (hlost : S.lost c) (h : c.Reaches stop) :
    S.lost stop := by
  induction h with
  | refl => exact hlost
  | advance _ ih => exact S.lost_advance ih

/-- The next token is seen. -/
def Sees (S : Simulation) (c : Cursor) : Prop := ¬ S.blind c

/-- No demand on the cursor. -/
def Anywhere (_ : Simulation) (_ : Cursor) : Prop := True

/-- A simulation is blind at semicolons only. -/
theorem sees_of_ne {c : Cursor} (h : c.current.kind ≠ .semicolon) : S.Sees c :=
  fun hblind => h (S.kind_of_blind hblind)

theorem current_kind {c c' : Cursor} (h : S.near c c') : c'.current.kind = c.current.kind := by
  rw [S.current h, Token.kind_relocate]

theorem position {c c' : Cursor} (h : S.near c c') :
    c'.position = S.relocation.position c.position := by
  rw [Cursor.position, S.current h, Token.position_relocate, Cursor.position]

theorem peek_kind {c c' : Cursor} (h : S.near c c') (hlost : ¬ S.lost c) (hsees : S.Sees c) :
    c'.peek.kind = c.peek.kind := by
  rw [S.peek h hlost hsees, Token.kind_relocate]

theorem peekEndsStatement {c c' : Cursor} (h : S.near c c') (hlost : ¬ S.lost c)
    (hsees : S.Sees c) : c'.peekEndsStatement = c.peekEndsStatement := by
  rw [Cursor.peekEndsStatement, Cursor.peekEndsStatement, peek_kind h hlost hsees, S.openBraces h]

/-- The outcomes of two runs: both give a value, the first one at a cursor of which `after` holds,
both fail, or the first has come too far. -/
inductive Ends (S : Simulation) (after : Cursor → Prop) {α β : Type} (f : α → β) :
    Except Diagnostic α × Cursor → Except Diagnostic β × Cursor → Prop where
  | ok {stop stop' : Cursor} (value : α) : S.near stop stop' → after stop →
      Ends S after f (.ok value, stop) (.ok (f value), stop')
  | error {diagnostic diagnostic' : Diagnostic} {stop stop' : Cursor} :
      S.turns (diagnostic, stop) (diagnostic', stop') →
        Ends S after f (.error diagnostic, stop) (.error diagnostic', stop')
  | lost {outcome : Except Diagnostic α × Cursor} {outcome' : Except Diagnostic β × Cursor} :
      S.lost outcome.2 → Ends S after f outcome outcome'

namespace Ends

variable {α β γ δ : Type} {between after : Cursor → Prop} {f : α → β} {c c' : Cursor}

/-- What starts too far ends too far. -/
theorem of_lost (hlost : S.lost c) (routine : Routine α)
    (outcome : Except Diagnostic β × Cursor) : S.Ends after f (routine.run c) outcome :=
  .lost (lost_of_reaches hlost (routine.reaches c))

/-- Two sequences end as their second parts do where the first parts have ended. -/
theorem bind {g : γ → δ} {first : Routine α} {first' : Routine β} {next : α → Routine γ}
    {next' : β → Routine δ} (hfirst : S.Ends between f (first.run c) (first'.run c'))
    (hnext : ∀ value stop stop', first.run c = (.ok value, stop) → S.near stop stop' →
      between stop → S.Ends after g ((next value).run stop) ((next' (f value)).run stop')) :
    S.Ends after g ((first >>= next).run c) ((first' >>= next').run c') := by
  rw [Routine.run_bind, Routine.run_bind]
  generalize first.run c = outcome at hfirst hnext
  generalize first'.run c' = outcome' at hfirst
  cases hfirst with
  | ok value hstop hend => exact hnext value _ _ rfl hstop hend
  | error hturns => exact .error hturns
  | lost hlost =>
    rcases outcome with ⟨diagnostic | value, stop⟩
    · exact .lost hlost
    · exact .of_lost hlost _ _

end Ends

end Simulation

namespace Routine

/-- The second routine follows the first from cursors of which `before` holds, its value being that
of the first mapped by `f`, and `after` holds where the first gives one. -/
def Follows (S : Simulation) (before after : Cursor → Prop) {α β : Type} (f : α → β)
    (routine : Routine α) (other : Routine β) : Prop :=
  ∀ c c' : Cursor, S.near c c' → before c → S.Ends after f (routine.run c) (other.run c')

namespace Follows

variable {S : Simulation} {α β γ δ ε : Type} {before between after : Cursor → Prop}

/-- More may be asked of the start, and less of the end. -/
theorem mono {before' after' : Cursor → Prop} {f : α → β} {routine : Routine α}
    {other : Routine β} (h : Follows S before after f routine other)
    (hbefore : ∀ c, before' c → before c) (hafter : ∀ c, after c → after' c) :
    Follows S before' after' f routine other := by
  intro c c' hnear hstart
  have hends := h c c' hnear (hbefore c hstart)
  generalize routine.run c = outcome at hends
  generalize other.run c' = outcome' at hends
  cases hends with
  | ok value hstop hend => exact .ok value hstop (hafter _ hend)
  | error hturns => exact .error hturns
  | lost hlost => exact .lost hlost

theorem pure {f : α → β} {value : α} {value' : β} (h : f value = value') :
    Follows S before before f (Pure.pure value) (Pure.pure value') := by
  subst h
  intro c c' hnear hstart
  exact .ok value hnear hstart

theorem bind {f : α → β} {h : γ → δ} {first : Routine α} {first' : Routine β}
    {next : α → Routine γ} {next' : β → Routine δ}
    (hfirst : Follows S before between f first first')
    (hnext : ∀ value, Follows S between after h (next value) (next' (f value))) :
    Follows S before after h (first >>= next) (first' >>= next') := by
  intro c c' hnear hstart
  exact .bind (hfirst c c' hnear hstart) fun value _ _ _ hstop hend =>
    hnext value _ _ hstop hend

theorem ite {f : α → β} {condition : Prop} [Decidable condition] {first second : Routine α}
    {first' second' : Routine β} (hfirst : Follows S before after f first first')
    (hsecond : Follows S before after f second second') :
    Follows S before after f (if condition then first else second)
      (if condition then first' else second') := by
  split
  · exact hfirst
  · exact hsecond

theorem current : Follows S before before (Token.relocate S.relocation) current current := by
  intro c c' hnear hstart
  rw [run_current, run_current, S.current hnear]
  exact .ok c.current hnear hstart

/-- What is done with the current token may use that the cursor stands on it. -/
theorem currentBind {h : γ → δ} {next : Token → Routine γ} {next' : Token → Routine δ}
    (hnext : ∀ token, Follows S (fun c => before c ∧ c.current = token) after h (next token)
      (next' (token.relocate S.relocation))) :
    Follows S before after h (Routine.current >>= next) (Routine.current >>= next') := by
  intro c c' hnear hstart
  rw [run_current_bind, run_current_bind, S.current hnear]
  exact hnext c.current c c' hnear ⟨hstart, rfl⟩

theorem peekKind : Follows S S.Sees S.Sees id peekKind peekKind := by
  intro c c' hnear hsees
  by_cases hlost : S.lost c
  · exact .lost hlost
  · rw [run_peekKind, run_peekKind, Simulation.peek_kind hnear hlost hsees]
    exact .ok c.peek.kind hnear hsees

theorem advance : Follows S before S.Anywhere id advance advance := by
  intro c c' hnear _
  by_cases hlost : S.lost c
  · exact .lost (S.lost_advance hlost)
  · by_cases hblind : S.blind c
    · exact .lost (S.lost_of_blind hblind)
    · exact .ok () (S.advance hnear hlost hblind) trivial

/-- The next token is one of a kind that is looked for and no semicolon, or something else is
done. -/
theorem ifPeek {f : α → β} {kind : Kind} {first second : Routine α} {first' second' : Routine β}
    (hkind : kind ≠ .semicolon) (hfirst : Follows S S.Sees after f first first')
    (hsecond : Follows S S.Sees after f second second') :
    Follows S S.Sees after f
      (Routine.peekKind >>= fun next =>
        if next = kind then Routine.advance >>= fun _ => first else second)
      (Routine.peekKind >>= fun next =>
        if next = kind then Routine.advance >>= fun _ => first' else second') := by
  intro c c' hnear hsees
  by_cases hlost : S.lost c
  · exact .of_lost hlost _ _
  · rw [run_peekKind_bind, run_peekKind_bind, Simulation.peek_kind hnear hlost hsees]
    by_cases hpeek : c.peek.kind = kind
    · rw [if_pos hpeek, if_pos hpeek, run_advance_bind, run_advance_bind]
      have hnext : c.advance.current.kind ≠ .semicolon := by rwa [Cursor.current_advance, hpeek]
      exact hfirst _ _ (S.advance hnear hlost hsees) (Simulation.sees_of_ne hnext)
    · rw [if_neg hpeek, if_neg hpeek]
      exact hsecond c c' hnear hsees

/-- Which way is taken may depend on the cursor, as long as it is the same in both runs. -/
theorem here {f : α → β} {test : Cursor → Prop} [DecidablePred test] {first second : Routine α}
    {first' second' : Routine β}
    (htest : ∀ {c c'}, S.near c c' → ¬ S.lost c → S.Sees c → (test c' ↔ test c))
    (hfirst : Follows S S.Sees after f first first')
    (hsecond : Follows S S.Sees after f second second') :
    Follows S S.Sees after f (here >>= fun c => if test c then first else second)
      (Routine.here >>= fun c => if test c then first' else second') := by
  intro c c' hnear hsees
  by_cases hlost : S.lost c
  · exact .of_lost hlost _ _
  · rw [run_here_bind, run_here_bind]
    by_cases hgoes : test c
    · rw [if_pos hgoes, if_pos ((htest hnear hlost hsees).mpr hgoes)]
      exact hfirst c c' hnear hsees
    · rw [if_neg hgoes, if_neg (mt (htest hnear hlost hsees).mp hgoes)]
      exact hsecond c c' hnear hsees

theorem fail (f : α → β) (cause : Cause) :
    Follows S before after f (fail cause) (Routine.fail cause) := by
  intro c c' hnear _
  rw [run_fail, run_fail, Simulation.position hnear]
  exact .error (S.fails ⟨cause, c.position⟩ hnear)

/-- A token that is expected may be the semicolon that ends a statement. -/
theorem expectPeek (kind : Kind) :
    Follows S S.Sees (fun c => c.current.kind = kind) id (expectPeek kind)
      (Routine.expectPeek kind) := by
  intro c c' hnear hsees
  by_cases hlost : S.lost c
  · exact .of_lost hlost _ _
  · have hpeek := Simulation.peek_kind hnear hlost hsees
    by_cases hkind : c.peek.kind = kind
    · rw [run_expectPeek_of_eq hkind, run_expectPeek_of_eq (hpeek.trans hkind)]
      exact .ok () (S.advance hnear hlost hsees) hkind
    · rw [run_expectPeek_of_ne hkind, run_expectPeek_of_ne (by rwa [hpeek]),
        S.peek hnear hlost hsees, Token.position_relocate]
      exact .error (S.fails ⟨.unexpectedToken kind c.peek.kind, c.peek.position⟩ hnear)

/-- After another token that is expected, the next one is seen. -/
theorem expectOther {kind : Kind} (hkind : kind ≠ .semicolon) :
    Follows S S.Sees S.Sees id (Routine.expectPeek kind) (Routine.expectPeek kind) :=
  (expectPeek kind).mono (fun _ => id) fun _ hcurrent =>
    Simulation.sees_of_ne (by rwa [hcurrent])

theorem expectTerminator :
    Follows S S.Sees S.Anywhere id expectTerminator Routine.expectTerminator := by
  refine here (fun hnear hlost hsees => ?_) ((pure rfl).mono (fun _ => id) fun _ _ => trivial)
    ((expectPeek .semicolon).mono (fun _ => id) fun _ _ => trivial)
  rw [Simulation.peekEndsStatement hnear hlost hsees]

/-- A loop follows another one if its body does and its test is the same in both runs. -/
theorem whileNext {f : α → β} {test : Cursor → Option ε} {body : ε → α → Routine α}
    {body' : ε → β → Routine β}
    (htest : ∀ {c c'}, S.near c c' → ¬ S.lost c → S.Sees c → test c' = test c)
    (hfound : ∀ {c found}, test c = some found → c.peek.kind ≠ .semicolon)
    (hbody : ∀ found value,
      Follows S S.Sees S.Sees f (body found value) (body' found (f value))) (value : α) :
    Follows S S.Sees S.Sees f (whileNext test body value)
      (Routine.whileNext test body' (f value)) := by
  intro c c' hnear hsees
  induction value, c using whileNext_induct test body generalizing c' with
  | leaves value c hleaves =>
    by_cases hlost : S.lost c
    · exact .of_lost hlost _ _
    · have hleaves' : test c' = none ∨ c'.tokens = [] :=
        hleaves.imp (htest hnear hlost hsees).trans (S.tokens_eq_nil hnear hlost).mpr
      rw [run_whileNext_of_leaves hleaves, run_whileNext_of_leaves hleaves']
      exact .ok value hnear hsees
  | goesOn value c found hsome hleft ih =>
    by_cases hlost : S.lost c
    · exact .of_lost hlost _ _
    · have hleft' := mt (S.tokens_eq_nil hnear hlost).mp hleft
      have hseesNext : S.Sees c.advance :=
        Simulation.sees_of_ne (by rw [Cursor.current_advance]; exact hfound hsome)
      rw [run_whileNext_of_eq_some hsome hleft,
        run_whileNext_of_eq_some ((htest hnear hlost hsees).trans hsome) hleft']
      refine .bind (hbody found value _ _ (S.advance hnear hlost hsees) hseesNext) ?_
      exact fun next after _ hround hstop hend => ih next after hround _ hstop hend

end Follows

end Routine

/-- The routines of the second level follow those of the first. An expression starts anywhere, and
the next token is seen where it ends. -/
structure Level.Follows (S : Simulation) (level other : Level) : Prop where
  expr (power : Power) :
    Routine.Follows S S.Anywhere S.Sees (Expr.relocate S.relocation) (level.expr power)
      (other.expr power)
  block :
    Routine.Follows S S.Sees S.Sees (Block.relocate S.relocation) level.block other.block

namespace Level.Follows

open Routine

variable {S : Simulation} {α β : Type} {level other : Level}

theorem readMembers {f : α → β} {member : Routine α} {member' : Routine β}
    (hmember : Routine.Follows S S.Sees S.Sees f member member') :
    Routine.Follows S S.Sees S.Sees (List.map f) (LetScript.readMembers member)
      (LetScript.readMembers member') := by
  have hbody (_ : Unit) (members : List α) : Routine.Follows S S.Sees S.Sees (List.map f)
      (do return members ++ [← member]) (do return members.map f ++ [← member']) :=
    .bind hmember fun a => .pure List.map_append
  refine .ifPeek (by decide) (.pure rfl) (.bind hmember fun first => ?_)
  refine .bind (.whileNext (fun hnear hlost hsees => ?_) (fun hcomma => ?_) hbody [first])
    fun members => .bind (.expectOther (by decide)) fun _ => .pure rfl
  · rw [Simulation.peek_kind hnear hlost hsees]
  · simp [kind_of_comma hcomma]

theorem readParameter :
    Routine.Follows S S.Sees S.Sees (Identifier.relocate S.relocation) readParameter
      readParameter :=
  .bind (.expectOther (by decide)) fun _ => .bind .current fun _ => .pure rfl

theorem readPrefixOp (h : Level.Follows S level other) :
    Routine.Follows S S.Sees S.Sees (Expr.relocate S.relocation) level.readPrefixOp
      other.readPrefixOp :=
  .bind .current fun _ => .bind .advance fun _ => .bind (h.expr _) fun _ => .pure rfl

theorem readGrouping (h : Level.Follows S level other) :
    Routine.Follows S S.Sees S.Sees (Expr.relocate S.relocation) level.readGrouping
      other.readGrouping :=
  .bind .advance fun _ => .bind (h.expr _) fun _ =>
    .bind (.expectOther (by decide)) fun _ => .pure rfl

theorem readConditional (h : Level.Follows S level other) :
    Routine.Follows S S.Sees S.Sees (Expr.relocate S.relocation) level.readConditional
      other.readConditional := by
  refine .bind .current fun token => .bind (.expectOther (by decide)) fun _ => ?_
  refine .bind .advance fun _ => .bind (h.expr _) fun condition => ?_
  refine .bind (.expectOther (by decide)) fun _ => .bind (.expectOther (by decide)) fun _ => ?_
  refine .bind h.block fun consequence => .ifPeek (by decide) ?_ (.pure rfl)
  exact .bind (.expectOther (by decide)) fun _ => .bind h.block fun _ => .pure rfl

theorem readFunction (h : Level.Follows S level other) :
    Routine.Follows S S.Sees S.Sees (Expr.relocate S.relocation) level.readFunction
      other.readFunction := by
  refine .bind .current fun token => .bind (.expectOther (by decide)) fun _ => ?_
  refine .bind (readMembers readParameter) fun parameters => ?_
  exact .bind (.expectOther (by decide)) fun _ => .bind h.block fun _ => .pure rfl

theorem readArgument (h : Level.Follows S level other) :
    Routine.Follows S S.Sees S.Sees (Expr.relocate S.relocation) level.readArgument
      other.readArgument :=
  .bind .advance fun _ => h.expr _

theorem readInfixOp (h : Level.Follows S level other) (table : Table) (left : Expr) :
    Routine.Follows S S.Sees S.Sees (Expr.relocate S.relocation) (level.readInfixOp table left)
      (other.readInfixOp table (left.relocate S.relocation)) :=
  .bind .current fun _ => .bind .advance fun _ => .bind (h.expr _) fun _ => .pure rfl

theorem readCall (h : Level.Follows S level other) (callee : Expr) :
    Routine.Follows S S.Sees S.Sees (Expr.relocate S.relocation) (level.readCall callee)
      (other.readCall (callee.relocate S.relocation)) := by
  refine .bind .current fun token => .bind (readMembers h.readArgument) fun trees => .pure ?_
  rw [Expr.relocate, Expr.relocateAll_eq]

theorem readInteger :
    Routine.Follows S S.Sees S.Sees (Expr.relocate S.relocation) readInteger readInteger := by
  refine .bind .current fun token => ?_
  rw [Token.literal_relocate]
  cases integerValue? token.literal with
  | none => exact .fail _ _
  | some value => exact .pure rfl

theorem readPrefix (h : Level.Follows S level other) (rule : PrefixRule) :
    Routine.Follows S S.Sees S.Sees (Expr.relocate S.relocation) (level.readPrefix rule)
      (other.readPrefix rule) := by
  cases rule with
  | identifier => exact .bind .current fun _ => .pure rfl
  | integer => exact readInteger
  | boolean => exact .bind .current fun _ => .pure rfl
  | prefixOp => exact h.readPrefixOp
  | grouping => exact h.readGrouping
  | conditional => exact h.readConditional
  | function => exact h.readFunction

theorem readInfix (h : Level.Follows S level other) (table : Table) (rule : InfixRule)
    (left : Expr) :
    Routine.Follows S S.Sees S.Sees (Expr.relocate S.relocation) (level.readInfix table rule left)
      (other.readInfix table rule (left.relocate S.relocation)) := by
  cases rule with
  | infixOp => exact h.readInfixOp table left
  | call => exact h.readCall left

/-- No rule of the language goes on at a semicolon. -/
theorem readInfixes (h : Level.Follows S level other) (power : Power) (left : Expr) :
    Routine.Follows S S.Sees S.Sees (Expr.relocate S.relocation)
      (whileNext (fun cursor => Table.standard.infixRuleAbove power cursor.peek.kind)
        (level.readInfix Table.standard) left)
      (whileNext (fun cursor => Table.standard.infixRuleAbove power cursor.peek.kind)
        (other.readInfix Table.standard) (left.relocate S.relocation)) := by
  refine .whileNext (fun hnear hlost hsees => ?_) (fun hfound hkind => ?_)
    (h.readInfix Table.standard) left
  · rw [Simulation.peek_kind hnear hlost hsees]
  · rw [hkind] at hfound
    cases power <;> cases hfound

/-- No rule of the language starts at a semicolon. -/
theorem readExpr (h : Level.Follows S level other) (power : Power) :
    Routine.Follows S S.Anywhere S.Sees (Expr.relocate S.relocation)
      (level.readExpr Table.standard power) (other.readExpr Table.standard power) := by
  refine .currentBind fun token => ?_
  rw [Token.kind_relocate]
  cases hrule : Table.standard.prefixRule token.kind with
  | none => exact .fail _ (refusal token)
  | some rule =>
    refine .mono (.bind (h.readPrefix rule) (h.readInfixes power)) (fun c hstart => ?_) fun _ => id
    refine Simulation.sees_of_ne fun hkind => ?_
    rw [← hstart.2, hkind] at hrule
    cases hrule

theorem readBinding (h : Level.Follows S level other) :
    Routine.Follows S S.Sees S.Anywhere (Stmt.relocate S.relocation) level.readBinding
      other.readBinding := by
  refine .bind .current fun token => .bind (.expectOther (by decide)) fun _ => ?_
  refine .bind .current fun name => .bind (.expectOther (by decide)) fun _ => ?_
  refine .bind .advance fun _ => .bind (h.expr _) fun value => ?_
  exact .bind .expectTerminator fun _ => .pure rfl

theorem readReturning (h : Level.Follows S level other) :
    Routine.Follows S S.Sees S.Anywhere (Stmt.relocate S.relocation) level.readReturning
      other.readReturning := by
  refine .bind .current fun token => .here (fun hnear hlost hsees => ?_)
    (.bind .expectTerminator fun _ => .pure rfl) (.bind .advance fun _ => ?_)
  · rw [Simulation.peek_kind hnear hlost hsees, Simulation.peekEndsStatement hnear hlost hsees]
  · exact .bind (h.expr _) fun value => .bind .expectTerminator fun _ => .pure rfl

theorem readExpression (h : Level.Follows S level other) :
    Routine.Follows S S.Anywhere S.Anywhere (Stmt.relocate S.relocation) level.readExpression
      other.readExpression := by
  refine .bind .current fun token => .bind (h.expr _) fun value => .bind .peekKind fun kind => ?_
  exact .ite (.bind .advance fun _ => .pure rfl)
    (.mono (.pure rfl) (fun _ => id) fun _ _ => trivial)

theorem readStmt (h : Level.Follows S level other) :
    Routine.Follows S S.Anywhere S.Anywhere (Stmt.relocate S.relocation) level.readStmt
      other.readStmt := by
  refine .currentBind fun token => ?_
  have hkeyword {c : Cursor} {kind : Kind} (hkind : token.kind = kind) (hne : kind ≠ .semicolon)
      (hstart : S.Anywhere c ∧ c.current = token) : S.Sees c :=
    Simulation.sees_of_ne (by rwa [hstart.2, hkind])
  rw [Token.kind_relocate]
  split
  · exact h.readBinding.mono (fun _ => hkeyword ‹_› (by decide)) fun _ => id
  · exact h.readReturning.mono (fun _ => hkeyword ‹_› (by decide)) fun _ => id
  · exact h.readExpression.mono (fun _ _ => trivial) fun _ => id

/-- Statements up to a closing brace follow if each of them does. -/
theorem readStmts {statement statement' : Routine Stmt}
    (hstatement : Routine.Follows S S.Anywhere S.Anywhere (Stmt.relocate S.relocation) statement
      statement') :
    Routine.Follows S S.Anywhere S.Sees (List.map (Stmt.relocate S.relocation))
      (LetScript.readStmts statement) (LetScript.readStmts statement') := by
  intro c c' hnear _
  induction c using readStmts_induct statement generalizing c' with
  | ended c hnil =>
    by_cases hlost : S.lost c
    · exact .of_lost hlost _ _
    · rw [run_readStmts_of_tokens_eq_nil hnil,
        run_readStmts_of_tokens_eq_nil ((S.tokens_eq_nil hnear hlost).mpr hnil),
        Simulation.position hnear]
      exact .error (S.fails ⟨.unterminatedBlock, c.position⟩ hnear)
  | closed c hclosing =>
    rw [run_readStmts_of_closeCurly hclosing,
      run_readStmts_of_closeCurly ((Simulation.current_kind hnear).trans hclosing)]
    exact .ok [] hnear (Simulation.sees_of_ne (by rw [hclosing]; decide))
  | more c hleft hclosing ih =>
    by_cases hlost : S.lost c
    · exact .of_lost hlost _ _
    · have hleft' := mt (S.tokens_eq_nil hnear hlost).mp hleft
      have hclosing' : c'.current.kind ≠ .closeCurly := by rwa [Simulation.current_kind hnear]
      rw [run_readStmts_of_ne hleft hclosing, run_readStmts_of_ne hleft' hclosing']
      refine .bind (hstatement c c' hnear trivial) fun first after after' hfirst hstop hend => ?_
      -- The rest is read behind the last token of the statement, which may be a blind semicolon.
      refine .bind (Follows.advance after after' hstop hend) fun _ _ _ hadvance hnext _ => ?_
      cases hadvance
      refine .bind (ih first after hfirst _ hnext trivial) fun rest _ _ _ hlast hend => ?_
      exact .ok (first :: rest) hlast hend

theorem readBlock (h : Level.Follows S level other) :
    Routine.Follows S S.Sees S.Sees (Block.relocate S.relocation) level.readBlock
      other.readBlock := by
  refine .bind .current fun token => .bind .advance fun _ => ?_
  refine .bind (readStmts h.readStmt) fun trees => .pure ?_
  rw [Block.relocate, Stmt.relocateAll_eq]

end Level.Follows

/-- The routines of the language follow themselves in every simulation. -/
theorem Table.follows_level (S : Simulation) (levels : Nat) :
    (standard.level levels).Follows S (standard.level levels) := by
  induction levels with
  | zero => exact ⟨fun _ => .fail _ _, .fail _ _⟩
  | succ levels ih => exact ⟨ih.readExpr, ih.readBlock⟩

/-- So does the routine for a statement. -/
theorem Table.follows_statement (S : Simulation) :
    Routine.Follows S S.Anywhere S.Anywhere (Stmt.relocate S.relocation) standard.statement
      standard.statement :=
  (follows_level S nestingLimit).readStmt

end LetScript
